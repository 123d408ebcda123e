import TomatoOs.Fs.Ext2.Descriptors

/-!
# Looking up an inode

The number of an inode gives its group, and its place in the inode table of the
group. On a mounted partition an inode never crosses the end of a block, so that
one block has all of it.
-/

namespace TomatoOs.Fs.Ext2

open Lib Memory

-- ---------------------------------------------------------------------------
-- Where an inode is
-- ---------------------------------------------------------------------------

section
variable (p : Partition) (ino : Nat)

def inodeGroup : Nat := (ino - 1) / p.sb.sInodesPerGroup

def inodeOffset : Nat := (ino - 1) % p.sb.sInodesPerGroup * p.layout.inodeSize

def inodeTable (s : Kern) : Nat :=
  (groupDesc (s.tableAt p.groups) (inodeGroup p ino)).bgInodeTable

/-- What `out` holds is inode `ino` of the partition, and one block has all of
it. -/
structure InodeAt (l : Nat) (s : Kern) (out : Mem) : Prop where
  number : 1 ≤ ino ∧ ino ≤ p.sb.sInodesCount
  group : inodeGroup p ino < p.layout.groupCount
  block : inodeTable p ino s + inodeOffset p ino / p.layout.blockSize <
    p.sb.sBlocksCount
  inside : inodeOffset p ino % p.layout.blockSize + sizeofInode ≤
    p.layout.blockSize
  bytes : ∀ j < sizeofInode, out j = s.diskByte l p.lbaStart
    (inodeTable p ino s * p.layout.blockSize + inodeOffset p ino + j)

end

section
variable {E : Env} {s t : Kern} {fs : Nat} {p : Partition}

theorem Volume.inode_inside (h : Volume l p) (ino : Nat) :
    sizeofInode ≤ p.layout.inodeSize ∧
      inodeOffset p ino % p.layout.blockSize + sizeofInode ≤ p.layout.blockSize := by
  obtain ⟨hlo, -, hdvd⟩ := h.accepted.inodeBytes
  have hsize : p.layout.inodeSize = p.sb.inodeBytes := by
    rw [h.layout]
    rfl
  have hend := mul_mod_add_le hdvd h.sectors.2.2.2.1 ((ino - 1) % p.sb.sInodesPerGroup)
  rw [inodeOffset, hsize, h.blockSize]
  exact ⟨hlo, Nat.le_trans (Nat.add_le_add_left hlo _) hend⟩

theorem readInode_triple (hv : Volume E.lbaSize (s.fsAt fs)) (hfree : (s.fsAt fs).lock = false)
    (ino : Nat) (out : Mem) :
    Triple (ext2ReadInode E fs ino out) s
      (fun r t => (∃ n, Fetches n s t) ∧ (r.1 = false → r.2 = out) ∧
        (r.1 = true → InodeAt (s.fsAt fs) ino E.lbaSize s r.2))
      fun _ => False := by
  have hno : Triple (pure (false, out) : Prog Kern (Bool × Mem)) s
      (fun r t => (∃ n, Fetches n s t) ∧ (r.1 = false → r.2 = out) ∧
        (r.1 = true → InodeAt (s.fsAt fs) ino E.lbaSize s r.2)) fun _ => False :=
    Triple.pure ⟨⟨0, .refl s⟩, fun _ => rfl, fun h => absurd h Bool.false_ne_true⟩
  refine Triple.step rfl ?_
  split
  · exact hno
  rename_i hnum
  by_cases hgroup : inodeGroup (s.fsAt fs) ino < (s.fsAt fs).layout.groupCount
  · rw [show ext2GetGroupDesc (s.fsAt fs) ((ino - 1) / (s.fsAt fs).sb.sInodesPerGroup) =
      some (sizeofGroupDesc * inodeGroup (s.fsAt fs) ino) from if_pos hgroup]
    refine Triple.step (show tableLoad _ _ 4 s = (some (inodeTable (s.fsAt fs) ino s), s) from rfl) ?_
    dsimp only
    split
    · exact hno
    rename_i hblock
    obtain ⟨hsize, hinside⟩ := hv.inode_inside ino
    rw [if_neg (Nat.not_lt.mpr hsize)]
    obtain ⟨ram, t, hrun, hfetch, hram⟩ := locked_fetch hv.sectored hfree (Nat.lt_of_not_le hblock)
      fun ok ram => (ok, if ok then Mem.paste (fun _ => 0) 0 ram ((s.fsAt fs).ioBuf +
        inodeOffset (s.fsAt fs) ino % (s.fsAt fs).layout.blockSize)
        sizeofInode else out)
    refine Triple.of_run hrun ⟨⟨1, hfetch⟩, fun h => if_neg (Bool.eq_false_iff.mp h), fun hok => ?_⟩
    refine ⟨by omega, hgroup, Nat.lt_of_not_le hblock, hinside, fun j hj => ?_⟩
    have hpaste : Mem.paste (fun _ => 0) 0 ram
        ((s.fsAt fs).ioBuf + inodeOffset (s.fsAt fs) ino % (s.fsAt fs).layout.blockSize)
        sizeofInode (0 + j) = ram ((s.fsAt fs).ioBuf + inodeOffset (s.fsAt fs) ino %
          (s.fsAt fs).layout.blockSize + j) := Mem.paste_inside _ _ _ _ hj
    rw [Nat.zero_add, Nat.add_assoc (s.fsAt fs).ioBuf, hram hok _ (by omega)] at hpaste
    refine (congrFun (if_pos hok) j).trans (hpaste.trans (congrArg _ ?_))
    -- the block and the place in it make up the place in the partition
    have hsplit := Nat.div_add_mod' (inodeOffset (s.fsAt fs) ino)
      (s.fsAt fs).layout.blockSize
    show (inodeTable (s.fsAt fs) ino s + inodeOffset (s.fsAt fs) ino /
      (s.fsAt fs).layout.blockSize) * (s.fsAt fs).layout.blockSize + _ = _
    rw [Nat.add_mul]
    omega
  · rw [show ext2GetGroupDesc (s.fsAt fs) ((ino - 1) / (s.fsAt fs).sb.sInodesPerGroup) = none from
      if_neg hgroup]
    exact hno

-- ---------------------------------------------------------------------------
-- What a mount says of the partition
-- ---------------------------------------------------------------------------

def LockOnly (fs : Nat) (s t : Kern) : Prop := ∃ b, t.fsAt fs = (s.fsAt fs).setLock b

theorem LockOnly.refl (fs : Nat) (s : Kern) : LockOnly fs s s := ⟨(s.fsAt fs).lock, rfl⟩

theorem LockOnly.trans (h : LockOnly fs s t) (h' : LockOnly fs t u) : LockOnly fs s u := by
  obtain ⟨b, hb⟩ := h
  obtain ⟨b', hb'⟩ := h'
  exact ⟨b', by rw [hb', hb]; rfl⟩

theorem readBlocks_lockOnly :
    Triple (ext2ReadBlocks E fs block buf) s (fun _ t => LockOnly fs s t) fun _ => True := by
  refine Triple.step rfl ?_
  split
  · exact Triple.pure (.refl fs s)
  dsimp only
  split
  · exact Triple.of_run rfl (.refl fs s)
  · cases hlock : (s.fsAt fs).lock with
    | true => exact Triple.of_stop (Prog.bind_stop (if_pos hlock)) trivial
    | false =>
      refine locked_triple hlock (Triple.step rfl ?_)
      have hput : LockOnly fs s ((s.putFs fs ((s.fsAt fs).setLock true)).putFs fs
          (((s.putFs fs ((s.fsAt fs).setLock true)).fsAt fs).setLock false)) := by
        refine ⟨false, ?_⟩
        simp only [Kern.putFs, Function.update_self]
        rfl
      cases E.readOk (s.putFs fs ((s.fsAt fs).setLock true)).transfers.length with
      | true => exact Triple.step rfl (Triple.pure hput)
      | false => exact Triple.step rfl (Triple.pure hput)

theorem loadBlocks_lockOnly (n i : Nat) :
    Triple (loadBlocks E fs buf first bytes n i) s (fun _ t => LockOnly fs s t) fun _ => True := by
  induction n generalizing s i with
  | zero => exact Triple.pure (.refl fs s)
  | succ n ih =>
    refine Triple.bind readBlocks_lockOnly fun ok t ht => ?_
    cases ok with
    | false => exact Triple.pure ht
    | true =>
      refine Triple.step rfl (Triple.bind ((copyToTable_triple ..).mono (fun _ _ hu => hu)
        fun _ _ => trivial) ?_)
      rintro - v rfl
      exact (ih (i + 1)).mono (fun _ u hu => ht.trans hu) fun _ h => h

/-- Sectors that are larger than a block take the lock again. -/
theorem readBlocks_spins (hheld : (s.fsAt fs).lock = true) (hb : block < (s.fsAt fs).sb.sBlocksCount)
    (hlt : (s.fsAt fs).layout.blockSize < E.lbaSize) (buf : Nat) :
    ext2ReadBlocks E fs block buf s = (none, s) := by
  unfold ext2ReadBlocks
  rw [Prog.bind_eq (show getFs fs s = (some (s.fsAt fs), s) from rfl), if_neg (Nat.not_le.mpr hb),
    if_neg (Nat.not_le.mpr hlt)]
  exact Prog.bind_stop (if_pos hheld)

/-- An inode is read under the lock, and its block is read without taking it. -/
theorem readInode_some :
    Triple (ext2ReadInode E fs ino out) s
      (fun r _ => r.1 = true → (s.fsAt fs).lock = false ∧
        E.lbaSize ≤ (s.fsAt fs).layout.blockSize) fun _ => True := by
  have hno : ∀ P : Prop, (false, out).1 = true → P := fun _ h => absurd h Bool.false_ne_true
  refine Triple.step rfl ?_
  split
  · exact Triple.pure (hno _)
  cases ext2GetGroupDesc (s.fsAt fs) ((ino - 1) / (s.fsAt fs).sb.sInodesPerGroup) with
  | none => exact Triple.pure (hno _)
  | some gd =>
    refine Triple.step rfl ?_
    dsimp only
    split
    · exact Triple.pure (hno _)
    rename_i hblock
    cases hlock : (s.fsAt fs).lock with
    | true => exact Triple.of_stop (Prog.bind_stop (if_pos hlock)) trivial
    | false =>
      rcases Nat.lt_or_ge (s.fsAt fs).layout.blockSize E.lbaSize with hlt | hle
      · refine locked_triple hlock
          (Triple.of_stop (Prog.bind_stop (readBlocks_spins ?_ ?_ ?_ _)) trivial)
        all_goals rw [show (s.putFs fs ((s.fsAt fs).setLock true)).fsAt fs =
          (s.fsAt fs).setLock true from s.putFs_fs fs _]
        · rfl
        · exact Nat.lt_of_not_le hblock
        · exact hlt
      · exact (Triple.self _ _).mono (fun _ _ _ _ => ⟨rfl, hle⟩) fun _ _ => trivial

theorem checkRoot_some (h : ext2CheckRoot E fs s = (some true, t)) :
    ∃ root, ext2ReadInode E fs ext2RootIno (fun _ => 0) s = (some (true, root), t) := by
  obtain ⟨⟨ok, root⟩, u, hread, h⟩ := Prog.bind_some h
  cases ok with
  | false => cases h
  | true =>
    dsimp only at h
    rw [if_pos rfl] at h
    split at h
    · cases h
    · cases h
      exact ⟨root, hread⟩

theorem fillSuper_steps (h : ext2FillSuper E fs s = (some true, t)) :
    ∃ s₁ s₃ root, ext2ReadSuperblock E fs s = (some true, s₁) ∧
      ext2ValidateSb (s₁.fsAt fs).sb E.lbaSize = .ok () ∧
      ext2ReadGroupDescs E fs (s₁.laidOut E.lbaSize fs) = (some true, s₃) ∧
      ext2ReadInode E fs ext2RootIno (fun _ => 0) s₃ = (some (true, root), t) := by
  obtain ⟨_ | _, s₁, hread, h⟩ := Prog.bind_some h
  · cases h
  rw [if_pos rfl, Prog.bind_eq (show getFs fs s₁ = (some (s₁.fsAt fs), s₁) from rfl)] at h
  cases hvalid : ext2ValidateSb (s₁.fsAt fs).sb E.lbaSize with
  | error why =>
    rw [hvalid] at h
    cases h
  | ok _ =>
    rw [hvalid] at h
    obtain ⟨_, _, hlay, h⟩ := Prog.bind_some h
    cases hlay
    obtain ⟨_ | _, s₃, hgroups, h⟩ := Prog.bind_some h
    · cases h
    obtain ⟨_ | _, s₄, hroot, h⟩ := Prog.bind_some h
    · obtain ⟨_, _, _, h⟩ := Prog.bind_some h
      cases h
    · cases h
      obtain ⟨root, hinode⟩ := checkRoot_some hroot
      exact ⟨s₁, s₃, root, hread, hvalid, hgroups, hinode⟩

structure Mounted (l fs : Nat) (t : Kern) : Prop where
  volume : Volume l (t.fsAt fs)
  lock : (t.fsAt fs).lock = false
  /-- the heap block of the descriptors -/
  room : ⟨(t.fsAt fs).groups, tableBytes (t.fsAt fs)⟩ ∈ t.mallocs

theorem layout_blockSize_lt (sb : Superblock) (l : Nat) :
    (ext2ComputeLayout wrapping sb l).blockSize < 2 ^ 32 :=
  Nat.mod_lt _ (by decide)

theorem fillSuper_mounted (h : ext2FillSuper E fs s = (some true, t)) :
    Mounted E.lbaSize fs t := by
  obtain ⟨s₁, s₃, root, -, hvalid, hgroups, hinode⟩ := fillSuper_steps h
  obtain ⟨hfree, hle⟩ := readInode_some.run hinode rfl
  obtain ⟨g, buf, u, v, hstart, hrun, hfields, -, hmallocs⟩ :=
    loadGroupDescs_some.run (readGroupDescs_some hgroups).1 rfl
  have hu := hstart.fields
  rw [s₁.laidOut_fs] at hu
  -- the root inode was read, so a sector is no larger than a block
  have hl : E.lbaSize < 2 ^ 32 := by
    obtain ⟨b, hb⟩ := (loadBlocks_lockOnly _ _).run hrun
    rw [hfields, hb, hu] at hle
    exact Nat.lt_of_le_of_lt hle (layout_blockSize_lt (s₁.fsAt fs).sb E.lbaSize)
  have hlaid : Volume E.lbaSize ((s₁.laidOut E.lbaSize fs).fsAt fs) := by
    rw [s₁.laidOut_fs]
    exact Volume.of_validate hl hvalid rfl
  have huv : Volume E.lbaSize (u.fsAt fs) := by
    rw [hstart.fields]
    exact hlaid.of_fields rfl rfl
  have hr := (loadTable_reads _ hlaid hstart.fields hstart.page.1 hstart.page.2).run hrun
  have hs₃ : s₃.fsAt = u.fsAt := hfields.trans hr.fsAt
  have hv : Volume E.lbaSize (s₃.fsAt fs) := by
    rw [hs₃]
    exact huv
  obtain ⟨⟨n, hfetch⟩, -, -⟩ := (readInode_triple hv hfree _ _).run hinode
  have ht : t.fsAt = u.fsAt := hfetch.fsAt.trans hs₃
  refine ⟨?_, ?_, ?_⟩
  · rw [ht]
    exact huv
  · rw [hfetch.fsAt]
    exact hfree
  · rw [hfetch.mallocs, hmallocs, hr.mallocs.1, hstart.mallocs, ht, hstart.fields]
    exact List.mem_append_right _ (List.mem_singleton_self _)

/-- On a mounted partition an inode is read from where the descriptor of its
group says, whatever is on the disk, or not at all. -/
theorem inode_lookup (hmount : ext2FillSuper E₀ fs s₀ = (some true, s₁))
    (hgroups : (s₁.fsAt fs).layout.groupCount * sizeofGroupDesc < 2 ^ 32)
    (hlba : E.lbaSize = E₀.lbaSize) (hfs : s.fsAt fs = s₁.fsAt fs) (ino : Nat) (out : Mem) :
    ∃ r t, ext2ReadInode E fs ino out s = (some r, t) ∧ (r.1 = false → r.2 = out) ∧
      (r.1 = true → InodeAt (s.fsAt fs) ino E.lbaSize s r.2 ∧
        ∃ size, ⟨(s.fsAt fs).groups, size⟩ ∈ s₁.mallocs ∧
          sizeofGroupDesc * inodeGroup (s.fsAt fs) ino + sizeofGroupDesc ≤ size) := by
  obtain ⟨hvol, hlock, hroom⟩ := fillSuper_mounted hmount
  rw [← hfs] at hvol hlock hroom hgroups
  rw [← hlba] at hvol
  obtain ⟨r, t, hrun, -, hno, hyes⟩ := (readInode_triple hvol hlock ino out).returns
  refine ⟨r, t, hrun, hno, fun hok => ⟨hyes hok, _, hroom, ?_⟩⟩
  have hgroup := Nat.mul_le_mul_left sizeofGroupDesc (Nat.succ_le_of_lt (hyes hok).group)
  rwa [tableBytes, wmul_eq hgroups, Nat.mul_comm _ sizeofGroupDesc, ← Nat.mul_succ]

def unmountedSmall : Kern :=
  (freshKern (smallImage 5)).putFs 1 { Partition.zero with ioBuf := 4096 }

def mountedSmall : Kern := (ext2FillSuper allOk 1 unmountedSmall).2

theorem inode_lookup_small :
    ∃ r t, ext2ReadInode allOk 1 2 (fun _ => 0) mountedSmall = (some r, t) ∧
      InodeAt (mountedSmall.fsAt 1) 2 512 mountedSmall r.2 := by
  obtain ⟨s₁, hmount⟩ := Prog.exists_state (show (ext2FillSuper allOk 1 unmountedSmall).1 =
    some true by decide +kernel)
  have hs₁ : mountedSmall = s₁ := by rw [mountedSmall, hmount]
  have hfits : (mountedSmall.fsAt 1).layout.groupCount * sizeofGroupDesc < 2 ^ 32 := by
    decide +kernel
  have hok : (ext2ReadInode allOk 1 2 (fun _ => 0) mountedSmall).1.map Prod.fst = some true := by
    decide +kernel
  rw [hs₁] at hfits hok ⊢
  obtain ⟨r, t, hrun, -, hat⟩ := inode_lookup hmount hfits rfl rfl 2 fun _ => 0
  rw [hrun] at hok
  exact ⟨r, t, hrun, (hat (Option.some.inj hok)).1⟩

end

end TomatoOs.Fs.Ext2
