import TomatoOs.Fs.Ext2.MountLaws

/-!
# The descriptor table

What `ext2_read_group_descs` accepts, and what it has loaded when it does, next
to the same questions over unbounded numbers. The code computes in 32 bits: the
end of the last group, the end of an inode table and the size of the whole
table can each pass `2 ^ 32`. A table of which a part was not loaded is longer
than memory goes behind a heap block, and the loop that checks it faults.
-/

namespace TomatoOs.Fs.Ext2

open Lib Memory
open Kmem (heapSize)

-- ---------------------------------------------------------------------------
-- Acceptance over unbounded numbers
-- ---------------------------------------------------------------------------

section
variable (sb : Superblock)

def Superblock.groupFirst (g : Nat) : Nat := sb.sFirstDataBlock + g * sb.sBlocksPerGroup

def Superblock.groupLast (g : Nat) : Nat :=
  min (sb.groupFirst g + sb.sBlocksPerGroup) sb.sBlocksCount - 1

def Superblock.InGroup (g b : Nat) : Prop := sb.groupFirst g ≤ b ∧ b ≤ sb.groupLast g

/-- Both bitmaps and the whole inode table belong to group `g`. -/
structure GroupDesc.InRange (g : Nat) (gd : GroupDesc) : Prop where
  blockBitmap : sb.InGroup g gd.bgBlockBitmap
  inodeBitmap : sb.InGroup g gd.bgInodeBitmap
  inodeTable : ∀ b, gd.bgInodeTable ≤ b → b < gd.bgInodeTable + sb.itb → sb.InGroup g b

def TableInRange (table : Mem) : Prop :=
  ∀ g < sb.groups, GroupDesc.InRange sb g (groupDesc table g)

/-- Where the end of the inode table is compared modulo `2 ^ 32`. -/
structure GroupDesc.Passes (g : Nat) (gd : GroupDesc) : Prop where
  blockBitmap : sb.InGroup g gd.bgBlockBitmap
  inodeBitmap : sb.InGroup g gd.bgInodeBitmap
  start : sb.groupFirst g ≤ gd.bgInodeTable
  stop : gd.bgInodeTable + sb.itb ≤ sb.groupLast g + 1 ∨
    2 ^ 32 < gd.bgInodeTable + sb.itb ∧ gd.bgInodeTable + sb.itb ≤ 2 ^ 32 + sb.groupLast g + 1

end

-- ---------------------------------------------------------------------------
-- The comparisons
-- ---------------------------------------------------------------------------

theorem wrapped_last (ha : a < 2 ^ 32) (hn : 0 < n) (hle : n < 2 ^ 32) :
    wsub 32 (wadd 32 a n) 1 = if a + n ≤ 2 ^ 32 then a + n - 1 else a + n - 1 - 2 ^ 32 := by
  unfold wsub wadd
  split <;> omega

section
variable {l g : Nat} {p : Partition} {gd : GroupDesc} {table : Mem}

theorem Volume.itb_pos (h : Volume l p) : 0 < p.sb.itb ∧ p.sb.itb < p.sb.sBlocksPerGroup := by
  have hbs := h.sectors
  have hpos : 0 < p.sb.sInodesPerGroup * p.sb.inodeBytes :=
    Nat.mul_pos h.accepted.inodesPerGroup.1 (by have := h.accepted.inodeBytes; omega)
  exact ⟨Nat.div_pos (by omega) (by omega), h.accepted.table⟩

theorem Volume.itableBlocks (h : Volume l p) : itableBlocks p = p.sb.itb := by
  obtain ⟨-, -, -, hbs, hpage⟩ := h.sectors
  have hmul : p.sb.sInodesPerGroup * p.sb.inodeBytes ≤ 32768 * 4096 :=
    Nat.mul_le_mul (by have := h.accepted.inodesPerGroup; omega)
      (by have := h.accepted.inodeBytes; omega)
  have hsize : p.layout.inodeSize = p.sb.inodeBytes := by
    rw [h.layout]
    rfl
  rw [Ext2.itableBlocks, h.blockSize, hsize, Superblock.itb, wmul_eq (by omega), wadd_eq (by omega),
    wsub_eq (by omega) (by omega)]

theorem Superblock.Accepted.groupFirst_lt {sb : Superblock} (h : sb.Accepted l)
    (hg : g < sb.groups) : sb.groupFirst g < sb.sBlocksCount := by
  have hper := h.perGroup.1
  have hfirst := h.first
  have hlt : g * sb.sBlocksPerGroup < sb.sBlocksCount - sb.sFirstDataBlock := by
    have hle : (g + 1) * sb.sBlocksPerGroup ≤
        sb.sBlocksCount - sb.sFirstDataBlock + sb.sBlocksPerGroup - 1 :=
      (Nat.le_div_iff_mul_le hper).mp hg
    rw [Nat.succ_mul] at hle
    omega
  rw [Superblock.groupFirst]
  omega

theorem Superblock.Accepted.next_first {sb : Superblock} (h : sb.Accepted l)
    (hg : g + 1 < sb.groups) : sb.groupFirst g + sb.sBlocksPerGroup < sb.sBlocksCount := by
  have := h.groupFirst_lt hg
  rw [Superblock.groupFirst, Nat.succ_mul] at this
  rw [Superblock.groupFirst]
  omega

theorem Volume.groupFirst (h : Volume l p) (hg : g < p.sb.groups) :
    groupFirst p g = p.sb.groupFirst g := by
  have hlt := h.accepted.groupFirst_lt hg
  have hcount := p.sb.blocksCount_lt
  rw [Superblock.groupFirst] at *
  rw [Ext2.groupFirst, wmul_eq (by omega), wadd_eq (by omega)]

theorem Volume.groupLast (h : Volume l p) (hg : g < p.sb.groups) :
    groupLast p g =
      if p.sb.groupFirst g + p.sb.sBlocksPerGroup ≤ 2 ^ 32 then p.sb.groupLast g
      else p.sb.groupFirst g + p.sb.sBlocksPerGroup - 1 - 2 ^ 32 := by
  have hlt := h.accepted.groupFirst_lt hg
  have hcount := p.sb.blocksCount_lt
  have hper := h.accepted.perGroup
  have hpage := h.sectors
  have hlast : wsub 32 p.sb.sBlocksCount 1 = p.sb.sBlocksCount - 1 := wsub_eq (by omega) hcount
  simp only [Ext2.groupLast, h.groupFirst hg, hlast, Superblock.groupLast]
  rw [wrapped_last (by omega) hper.1 (by omega)]
  split
  · split <;> omega
  · rw [if_neg (by omega)]

theorem groupOk_iff (h : Volume l p) (hg : g < p.sb.groups) (ht : gd.bgInodeTable < 2 ^ 32) :
    groupOk p g gd = true ↔
      p.sb.groupFirst g + p.sb.sBlocksPerGroup ≤ 2 ^ 32 ∧ GroupDesc.Passes p.sb g gd := by
  have hlt := h.accepted.groupFirst_lt hg
  have hcount := p.sb.blocksCount_lt
  have hitb := h.itb_pos
  have hper := h.accepted.perGroup
  have hpage := h.sectors
  simp only [groupOk, Bool.not_eq_true', decide_eq_false_iff_not, h.groupFirst hg, h.groupLast hg,
    h.itableBlocks, wrapped_last ht hitb.1 (by omega)]
  constructor
  · intro hok
    have hfit : p.sb.groupFirst g + p.sb.sBlocksPerGroup ≤ 2 ^ 32 := by
      by_contra hover
      rw [if_neg hover] at hok
      omega
    rw [if_pos hfit] at hok
    refine ⟨hfit, ⟨by omega, by omega⟩, ⟨by omega, by omega⟩, by omega, ?_⟩
    split at hok <;> omega
  · rintro ⟨hfit, ⟨hb, hb'⟩, ⟨hi, hi'⟩, hs, hstop⟩
    rw [if_pos hfit]
    split <;> omega

theorem checkGroups_iff (n g : Nat) :
    checkGroups p reach table n g = some true ↔ ∀ k, g ≤ k → k < g + n →
      sizeofGroupDesc * k + 12 ≤ reach ∧ groupOk p k (groupDesc table k) = true := by
  induction n generalizing g with
  | zero => exact ⟨fun _ k hk hlt => absurd hlt (by omega), fun _ => rfl⟩
  | succ n ih =>
    rw [checkGroups]
    constructor
    · intro h k hk hlt
      split at h
      · rename_i hread
        split at h
        · rename_i hg
          rcases Nat.eq_or_lt_of_le hk with rfl | hk
          · exact ⟨hread, hg⟩
          · exact (ih (g + 1)).mp h k hk (by omega)
        · cases h
      · cases h
    · intro h
      obtain ⟨hread, hg⟩ := h g (Nat.le_refl g) (by omega)
      rw [if_pos hread, if_pos hg]
      exact (ih (g + 1)).mpr fun k hk hlt => h k (by omega) (by omega)

theorem groupDesc_lt (table : Mem) (g : Nat) : (groupDesc table g).bgInodeTable < 2 ^ 32 :=
  Mem.load_lt table (sizeofGroupDesc * g + 8) 4

theorem Superblock.Accepted.ends_iff {sb : Superblock} (h : sb.Accepted l) :
    (∀ g < sb.groups, sb.groupFirst g + sb.sBlocksPerGroup ≤ 2 ^ 32) ↔
      sb.sFirstDataBlock + sb.groups * sb.sBlocksPerGroup ≤ 2 ^ 32 := by
  have hpos := h.groups_bounds.1
  have hcount := sb.blocksCount_lt
  have hlast : sb.groupFirst (sb.groups - 1) + sb.sBlocksPerGroup =
      sb.sFirstDataBlock + sb.groups * sb.sBlocksPerGroup := by
    rw [Superblock.groupFirst, Nat.add_assoc, ← Nat.succ_mul, Nat.succ_eq_add_one,
      Nat.sub_add_cancel hpos]
  constructor
  · intro hall
    rw [← hlast]
    exact hall _ (by omega)
  · intro hfit g hg
    rcases Nat.lt_or_ge (g + 1) sb.groups with hn | hn
    · have := h.next_first hn
      omega
    · obtain rfl : g = sb.groups - 1 := by omega
      rw [hlast]
      exact hfit

theorem descriptors_read_iff (hpos : 0 < n) :
    (∀ g < n, sizeofGroupDesc * g + 12 ≤ reach) ↔ sizeofGroupDesc * n ≤ reach + 20 := by
  simp only [sizeofGroupDesc]
  exact ⟨fun h => by have := h (n - 1) (by omega); omega, fun h g hg => by omega⟩

theorem checkGroups_all_iff (h : Volume l p) :
    checkGroups p reach table p.sb.groups 0 = some true ↔
      (sizeofGroupDesc * p.sb.groups ≤ reach + 20 ∧
        p.sb.sFirstDataBlock + p.sb.groups * p.sb.sBlocksPerGroup ≤ 2 ^ 32) ∧
        ∀ g < p.sb.groups, GroupDesc.Passes p.sb g (groupDesc table g) := by
  rw [checkGroups_iff, ← h.accepted.ends_iff, ← descriptors_read_iff h.accepted.groups_bounds.1]
  constructor
  · intro hall
    have hread := fun g (hg : g < p.sb.groups) => hall g (Nat.zero_le g) (by omega)
    have hok := fun g hg => (groupOk_iff h hg (groupDesc_lt table g)).mp (hread g hg).2
    exact ⟨⟨fun g hg => (hread g hg).1, fun g hg => (hok g hg).1⟩, fun g hg => (hok g hg).2⟩
  · rintro ⟨⟨hread, hfit⟩, hpass⟩ g - hg
    have hg : g < p.sb.groups := by omega
    exact ⟨hread g hg, (groupOk_iff h hg (groupDesc_lt table g)).mpr ⟨hfit g hg, hpass g hg⟩⟩

theorem inRange_iff (h : Volume l p) :
    GroupDesc.InRange p.sb g gd ↔
      GroupDesc.Passes p.sb g gd ∧ gd.bgInodeTable + p.sb.itb ≤ 2 ^ 32 := by
  have hcount := p.sb.blocksCount_lt
  have hitb := h.itb_pos
  have hlast : p.sb.groupLast g ≤ p.sb.sBlocksCount - 1 := by
    rw [Superblock.groupLast]
    omega
  constructor
  · rintro ⟨hb, hi, htable⟩
    have hs := htable gd.bgInodeTable (Nat.le_refl _) (by omega)
    have he := (htable (gd.bgInodeTable + p.sb.itb - 1) (by omega) (by omega)).2
    exact ⟨⟨hb, hi, hs.1, by omega⟩, by omega⟩
  · rintro ⟨⟨hb, hi, hs, hstop⟩, hfit⟩
    exact ⟨hb, hi, fun b hle hlt => ⟨by omega, by omega⟩⟩

end

-- ---------------------------------------------------------------------------
-- Loading
-- ---------------------------------------------------------------------------

section
variable {E : Env} {s t : Kern} {fs : Nat}

/-- What holds when the loop over the blocks starts, with block `g` for the
table and page `buf` for the transfers. -/
structure LoadStart (fs : Nat) (s : Kern) (g buf : Nat) (u : Kern) : Prop where
  page : buf ≠ 0 ∧ buf ∈ u.held
  fields : u.fsAt fs = { s.fsAt fs with groups := g }
  sectors : u.sectors = s.sectors
  mallocs : u.mallocs = s.mallocs ++ [⟨g, tableBytes (s.fsAt fs)⟩]

theorem loadGroupDescs_some :
    Triple (loadGroupDescs E fs) s (fun ok t => ok = true → ∃ g buf u v, LoadStart fs s g buf u ∧
      loadBlocks E fs buf (wadd 32 (s.fsAt fs).sb.sFirstDataBlock 1) (tableBytes (s.fsAt fs))
        (tableBlocks (s.fsAt fs)) 0 u = (some true, v) ∧
      t.fsAt = v.fsAt ∧ t.tableAt = v.tableAt ∧ t.mallocs = v.mallocs) fun _ => True := by
  have hno : ∀ P : Prop, false = true → P := fun _ h => absurd h Bool.false_ne_true
  refine Triple.step rfl ?_
  cases hk : E.grants s.kmallocCalls (tableBytes (s.fsAt fs)) with
  | false =>
    refine Triple.step (a := 0) (t := { s with kmallocCalls := s.kmallocCalls + 1 }) ?_
      (Triple.step rfl (Triple.pure (hno _)))
    simp only [kmalloc, hk, Bool.false_eq_true, if_false]
  | true =>
    let w : Kern := { s with
      kmallocCalls := s.kmallocCalls + 1
      mallocs := s.mallocs ++ [⟨s.kmallocCalls + 1, tableBytes (s.fsAt fs)⟩] }
    refine Triple.step (a := s.kmallocCalls + 1) (t := w) ?_ (Triple.step rfl ?_)
    · simp only [kmalloc, hk, if_true]
      rfl
    rw [if_neg (Nat.succ_ne_zero _)]
    obtain ⟨buf, q, held, ha, hheld⟩ := allocPage_eq E .groupDescs
      (w.putFs fs { s.fsAt fs with groups := s.kmallocCalls + 1 })
    refine Triple.step ha ?_
    split
    · exact Triple.step rfl (Triple.pure (hno _))
    · rename_i hne
      refine Triple.bind (Triple.self _ _) fun ok v hv => Triple.step rfl ?_
      cases ok with
      | true =>
        refine Triple.pure fun _ => ⟨s.kmallocCalls + 1, buf, _, v, ?_, hv, rfl, rfl, rfl⟩
        exact ⟨⟨hne, hheld hne⟩, Function.update_self .., rfl, rfl⟩
      | false => exact Triple.step rfl (Triple.pure (hno _))

/-- After the loop, from block `i` on, the table holds what is on the disk. -/
theorem loadBlocks_table {p : Partition} (hp : s.fsAt fs = p) (h : Volume E.lbaSize p)
    (hne : buf ≠ 0) (hheld : buf ∈ s.held) (hb : bytes < 2 ^ 32) (n i : Nat)
    (hfirst : first + (i + n) ≤ 2 ^ 32) (hi : ∀ k < i + n, k * p.sb.bs < bytes) :
    Triple (loadBlocks E fs buf first bytes n i) s
      (fun ok t => Reads E.lbaSize s t ∧ (ok = true →
        (∀ x < i * p.sb.bs, t.tableAt p.groups x = s.tableAt p.groups x) ∧
        ∀ x < bytes, i * p.sb.bs ≤ x → x < (i + n) * p.sb.bs →
          t.tableAt p.groups x = s.diskByte E.lbaSize p.lbaStart (first * p.sb.bs + x)))
      fun _ => True := by
  induction n generalizing s i with
  | zero =>
    refine Triple.pure ⟨.refl _ _, fun _ => ⟨fun _ _ => rfl, fun x _ hlo hhi => ?_⟩⟩
    rw [Nat.add_zero] at hhi
    omega
  | succ n ih =>
    rw [← hp] at h
    refine Triple.bind ((readBlocks_triple h hne hheld).mono (fun _ _ hq => hq) fun _ _ => trivial) ?_
    rintro ok t ⟨hr, htable, hram⟩
    rw [hp] at h hram
    cases ok with
    | false => exact Triple.pure ⟨hr, fun hf => absurd hf Bool.false_ne_true⟩
    | true =>
      have htp : t.fsAt fs = p := by rw [hr.fsAt, hp]
      have hheld' : buf ∈ t.held := by rwa [hr.held]
      have hdone : wmul 32 i p.sb.bs = i * p.sb.bs :=
        wmul_eq (Nat.lt_trans (hi i (by omega)) hb)
      have hchunk : wsub 32 bytes (i * p.sb.bs) = bytes - i * p.sb.bs :=
        wsub_eq (Nat.le_of_lt (hi i (by omega))) hb
      rw [wadd_eq (by omega)] at hram
      refine Triple.step rfl ?_
      simp only [htp, h.blockSize, hdone, hchunk]
      generalize hc : (if bytes - i * p.sb.bs > p.sb.bs then p.sb.bs else bytes - i * p.sb.bs) = c
      have hstep : (i + 1) * p.sb.bs = i * p.sb.bs + p.sb.bs := Nat.succ_mul i p.sb.bs
      have hcle : c ≤ p.sb.bs ∧ (c = p.sb.bs ∨ c = bytes - i * p.sb.bs) := by
        rw [← hc]
        split <;> omega
      let tables := Function.update t.tableAt p.groups
        ((t.tableAt p.groups).paste (i * p.sb.bs) t.ram buf c)
      refine Triple.bind ((copyToTable_triple ..).mono (fun _ _ hu => hu) fun _ _ => trivial) ?_
      rintro - v rfl
      refine (ih (s := { t with tableAt := tables }) htp hheld' (i + 1) (by omega)
        fun k hk => hi k (by omega)).mono ?_ fun _ hf => hf
      rintro ok u ⟨hru, hu⟩
      refine ⟨(hr.trans (Reads.write E.lbaSize t t.ram _)).trans hru, fun hok => ?_⟩
      obtain ⟨hlow, hhigh⟩ := hu hok
      simp only [tables, Function.update_self] at hlow
      refine ⟨fun x hx => ?_, fun x hx hlo hhi => ?_⟩
      · rw [hlow x (by omega), Mem.paste_outside fun hw => by have := hw.1; omega, htable]
      · rcases Nat.lt_or_ge x ((i + 1) * p.sb.bs) with hin | hout
        · obtain ⟨j, rfl⟩ := Nat.exists_eq_add_of_le hlo
          rw [hlow _ hin, Mem.paste_inside _ _ _ _ (by omega), hram rfl j (by omega), Nat.add_mul,
            Nat.add_assoc]
        · rw [hhigh x hx hout (by rwa [Nat.add_right_comm i 1 n])]
          exact congrFun (congrFun (congrFun hr.diskByte _) _) _

theorem readGroupDescs_loaded (h : loadGroupDescs E fs s = (some true, t)) :
    (ext2ReadGroupDescs E fs s).1 = checkGroups (t.fsAt fs) E.reach
        (t.tableAt (t.fsAt fs).groups) (t.fsAt fs).layout.groupCount 0 ∧
      ((ext2ReadGroupDescs E fs s).1 = some true → (ext2ReadGroupDescs E fs s).2 = t) := by
  rcases hcheck : checkGroups (t.fsAt fs) E.reach (t.tableAt (t.fsAt fs).groups)
    (t.fsAt fs).layout.groupCount 0 with _ | _ | _
  · simp [ext2ReadGroupDescs, bind, h, getFs, getTable, hcheck, Prog.stop]
  · simp [ext2ReadGroupDescs, bind, h, getFs, getTable, hcheck, pure, dropGroups, kfree, setFs]
  · simp [ext2ReadGroupDescs, bind, h, getFs, getTable, hcheck, pure]

theorem readGroupDescs_some (h : ext2ReadGroupDescs E fs s = (some true, t)) :
    loadGroupDescs E fs s = (some true, t) ∧
      checkGroups (t.fsAt fs) E.reach (t.tableAt (t.fsAt fs).groups)
        (t.fsAt fs).layout.groupCount 0 = some true := by
  rcases hl : loadGroupDescs E fs s with ⟨_ | _ | _, u⟩
  · simp [ext2ReadGroupDescs, bind, hl] at h
  · simp [ext2ReadGroupDescs, bind, hl, pure] at h
  · obtain ⟨hanswer, hsame⟩ := readGroupDescs_loaded hl
    rw [h] at hanswer hsame
    obtain rfl : t = u := hsame rfl
    exact ⟨rfl, hanswer.symm⟩

theorem Volume.groupCount (h : Volume l p) : p.layout.groupCount = p.sb.groups := by
  rw [h.layout]
  rfl

theorem loadGroupDescs_fields (hv : Volume E.lbaSize (s.fsAt fs))
    (h : loadGroupDescs E fs s = (some true, t)) :
    t.fsAt fs = { s.fsAt fs with groups := (t.fsAt fs).groups } := by
  obtain ⟨g, buf, u, v, hstart, hrun, hfields, -, -⟩ := loadGroupDescs_some.run h rfl
  have hr := (loadTable_reads _ hv hstart.fields hstart.page.1 hstart.page.2).run hrun
  rw [hfields, hr.fsAt, hstart.fields]

theorem loadGroupDescs_volume (hv : Volume E.lbaSize (s.fsAt fs))
    (h : loadGroupDescs E fs s = (some true, t)) : Volume E.lbaSize (t.fsAt fs) := by
  rw [loadGroupDescs_fields hv h]
  exact hv.of_fields rfl rfl

-- ---------------------------------------------------------------------------
-- What is accepted
-- ---------------------------------------------------------------------------

/-- The descriptors can all be read, and the ends that the code computes stay below
`2 ^ 32`, as far as its answer depends on them. -/
def EndsFit (reach : Nat) (sb : Superblock) (table : Mem) : Prop :=
  if sizeofGroupDesc * sb.groups ≤ reach + 20 ∧
      sb.sFirstDataBlock + sb.groups * sb.sBlocksPerGroup ≤ 2 ^ 32 then
    (∀ g < sb.groups, GroupDesc.Passes sb g (groupDesc table g)) →
      ∀ g < sb.groups, (groupDesc table g).bgInodeTable + sb.itb ≤ 2 ^ 32
  else ¬TableInRange sb table

theorem tableInRange_iff {p : Partition} (h : Volume l p) :
    TableInRange p.sb table ↔
      (∀ g < p.sb.groups, GroupDesc.Passes p.sb g (groupDesc table g)) ∧
        ∀ g < p.sb.groups, (groupDesc table g).bgInodeTable + p.sb.itb ≤ 2 ^ 32 := by
  unfold TableInRange
  simp only [inRange_iff h]
  exact ⟨fun hall => ⟨fun g hg => (hall g hg).1, fun g hg => (hall g hg).2⟩,
    fun ⟨hpass, hfit⟩ g hg => ⟨hpass g hg, hfit g hg⟩⟩

theorem Volume.of_validate (hl : l < 2 ^ 32) (hv : ext2ValidateSb p.sb l = .ok ())
    (hlay : p.layout = ext2ComputeLayout wrapping p.sb l) : Volume l p :=
  ⟨accepted_of_validate hv, hlay.trans (computeLayout_eq (accepted_of_validate hv) hl).2, hl⟩

/-- The descriptors that are accepted are those in range, unless an end that
does not fit into 32 bits, or a table that leaves memory, makes the difference. -/
theorem descriptors_accepted_iff (hl : E.lbaSize < 2 ^ 32)
    (hv : ext2ValidateSb (s.fsAt fs).sb E.lbaSize = .ok ())
    (hlay : (s.fsAt fs).layout = ext2ComputeLayout wrapping (s.fsAt fs).sb E.lbaSize)
    (hload : loadGroupDescs E fs s = (some true, t)) :
    ((ext2ReadGroupDescs E fs s).1 = some true ↔
        TableInRange (s.fsAt fs).sb (t.tableAt (t.fsAt fs).groups)) ↔
      EndsFit E.reach (s.fsAt fs).sb (t.tableAt (t.fsAt fs).groups) := by
  have hvol := Volume.of_validate hl hv hlay
  have hfs := loadGroupDescs_fields hvol hload
  have hsb : (t.fsAt fs).sb = (s.fsAt fs).sb := by rw [hfs]
  have hvolt := loadGroupDescs_volume hvol hload
  have hanswer : (ext2ReadGroupDescs E fs s).1 = some true ↔
      checkGroups (t.fsAt fs) E.reach (t.tableAt (t.fsAt fs).groups) (t.fsAt fs).sb.groups 0 =
        some true := by
    rw [(readGroupDescs_loaded hload).1, hvolt.groupCount]
  rw [hanswer, ← hsb, checkGroups_all_iff hvolt, EndsFit]
  split
  · rename_i hfit
    rw [tableInRange_iff hvolt]
    exact ⟨fun h hpass => (h.mp ⟨hfit, hpass⟩).2,
      fun h => ⟨fun ⟨_, hpass⟩ => ⟨hpass, h hpass⟩, fun ⟨hpass, _⟩ => ⟨hfit, hpass⟩⟩⟩
  · rename_i hover
    exact ⟨fun h hin => hover (h.mpr hin).1, fun h => ⟨fun ⟨hfit, _⟩ => absurd hfit hover,
      fun hin => absurd hin h⟩⟩

def smallVolume (inodeTable : Nat) : Kern :=
  (freshKern (smallImage inodeTable)).putFs 1 { Partition.zero with
    sb := smallSuperblock
    layout := ext2ComputeLayout wrapping smallSuperblock 512 }

def smallTable (inodeTable : Nat) : Mem :=
  (loadGroupDescs allOk 1 (smallVolume inodeTable)).2.tableAt 1

theorem descriptors_accepted_iff_small :
    (ext2ReadGroupDescs allOk 1 (smallVolume 5)).1 = some true ∧
      TableInRange smallSuperblock (smallTable 5) := by
  have hload : (loadGroupDescs allOk 1 (smallVolume 5)).1 = some true := by decide +kernel
  have hread : (ext2ReadGroupDescs allOk 1 (smallVolume 5)).1 = some true := by decide +kernel
  have hdesc : groupDesc (smallTable 5) 0 = ⟨3, 4, 5⟩ := by decide +kernel
  have hone : smallSuperblock.groups = 1 := by decide +kernel
  have hitb : smallSuperblock.itb = 16 := by decide +kernel
  have hfit : EndsFit heapSize smallSuperblock (smallTable 5) := by
    rw [EndsFit, if_pos (by decide +kernel)]
    rintro - g hg
    obtain rfl : g = 0 := by omega
    rw [hdesc, hitb]
    decide
  have h : ((ext2ReadGroupDescs allOk 1 (smallVolume 5)).1 = some true ↔
      TableInRange smallSuperblock (smallTable 5)) ↔
        EndsFit heapSize smallSuperblock (smallTable 5) :=
    descriptors_accepted_iff (by decide) (by decide +kernel) rfl (Prod.ext hload rfl)
  exact ⟨hread, (h.mpr hfit).mp hread⟩

/-- The inode table is said to start at the last of `2 ^ 32` blocks. -/
theorem wrapped_table_accepted :
    ext2ValidateSb smallSuperblock 512 = .ok () ∧
      (loadGroupDescs allOk 1 (smallVolume (2 ^ 32 - 1))).1 = some true ∧
      (ext2ReadGroupDescs allOk 1 (smallVolume (2 ^ 32 - 1))).1 = some true ∧
      ¬TableInRange smallSuperblock (smallTable (2 ^ 32 - 1)) := by
  have hdesc : groupDesc (smallTable (2 ^ 32 - 1)) 0 = ⟨3, 4, 2 ^ 32 - 1⟩ := by decide +kernel
  have hitb : smallSuperblock.itb = 16 := by decide +kernel
  refine ⟨by decide +kernel, by decide +kernel, by decide +kernel, fun h => ?_⟩
  have htable := (h 0 (by decide +kernel)).inodeTable (2 ^ 32 - 1)
  rw [hdesc, hitb] at htable
  exact absurd (htable (Nat.le_refl _) (by decide)) (by unfold Superblock.InGroup; decide +kernel)

-- ---------------------------------------------------------------------------
-- What is loaded
-- ---------------------------------------------------------------------------

/-- `ext2_compute_layout` and then `ext2_read_group_descs`. -/
def loadTable (E : Env) (fs : Nat) : Prog Kern Bool := do
  storeLayout E fs
  ext2ReadGroupDescs E fs

/-- The heap block that the call obtained has room for all descriptors, and
each of them is as it is on the disk. -/
structure Loaded (l fs : Nat) (s t : Kern) : Prop where
  room : ∃ size, t.mallocs = s.mallocs ++ [⟨(t.fsAt fs).groups, size⟩] ∧
    sizeofGroupDesc * (t.fsAt fs).layout.groupCount ≤ size
  same : ∀ g < (t.fsAt fs).layout.groupCount, ∀ j < sizeofGroupDesc,
    t.tableAt (t.fsAt fs).groups (sizeofGroupDesc * g + j) =
      s.diskByte l (s.fsAt fs).lbaStart (((s.fsAt fs).sb.sFirstDataBlock + 1) *
        (t.fsAt fs).layout.blockSize + sizeofGroupDesc * g + j)

section
variable {p : Partition}

theorem Volume.tableBytes (h : Volume l p) :
    tableBytes p = p.sb.groups * sizeofGroupDesc % 2 ^ 32 := by
  rw [Ext2.tableBytes, h.groupCount, wmul]

theorem Volume.tableBlocks (h : Volume l p)
    (hfit : p.sb.groups * sizeofGroupDesc + p.sb.bs ≤ 2 ^ 32) : tableBlocks p = p.sb.gdtBlocks := by
  obtain ⟨-, -, -, hbs, hpage⟩ := h.sectors
  rw [Ext2.tableBlocks, h.tableBytes, Nat.mod_eq_of_lt (by omega), h.blockSize,
    wrapped_last (by omega) hbs (by omega), if_pos hfit]
  rfl

theorem Volume.gdtBlocks (h : Volume l p) :
    (∀ k < p.sb.gdtBlocks, k * p.sb.bs < p.sb.groups * sizeofGroupDesc) ∧
      p.sb.groups * sizeofGroupDesc ≤ p.sb.gdtBlocks * p.sb.bs := by
  obtain ⟨-, -, -, hbs, -⟩ := h.sectors
  constructor
  · intro k hk
    have hle : (k + 1) * p.sb.bs ≤ p.sb.groups * sizeofGroupDesc + p.sb.bs - 1 :=
      (Nat.le_div_iff_mul_le hbs).mp hk
    rw [Nat.succ_mul] at hle
    omega
  · have hmod := Nat.div_add_mod' (p.sb.groups * sizeofGroupDesc + p.sb.bs - 1) p.sb.bs
    have hlt := Nat.mod_lt (p.sb.groups * sizeofGroupDesc + p.sb.bs - 1) hbs
    rw [Superblock.gdtBlocks]
    omega

end

theorem loadGroupDescs_loaded (hv : Volume E.lbaSize (s.fsAt fs))
    (hfit : (s.fsAt fs).sb.groups * sizeofGroupDesc + (s.fsAt fs).sb.bs ≤ 2 ^ 32)
    (h : loadGroupDescs E fs s = (some true, t)) : Loaded E.lbaSize fs s t := by
  obtain ⟨-, -, -, hbs, hpage⟩ := hv.sectors
  have hbytes : tableBytes (s.fsAt fs) = (s.fsAt fs).sb.groups * sizeofGroupDesc := by
    rw [hv.tableBytes, Nat.mod_eq_of_lt (by omega)]
  have hdescs := hv.accepted.descriptors
  have hcount := (s.fsAt fs).sb.blocksCount_lt
  obtain ⟨hstarts, hend⟩ := hv.gdtBlocks
  obtain ⟨g, buf, u, v, hstart, hrun, hfields, htable, hmallocs⟩ := loadGroupDescs_some.run h rfl
  have hvol : Volume E.lbaSize { s.fsAt fs with groups := g } :=
    hv.of_fields rfl rfl
  rw [hbytes, hv.tableBlocks hfit, wadd_eq (by omega)] at hrun
  obtain ⟨hr, hsame⟩ := (loadBlocks_table hstart.fields hvol hstart.page.1 hstart.page.2 (by omega)
    _ 0 (by omega) (by rwa [Nat.zero_add])).run hrun
  have hfs : t.fsAt fs = { s.fsAt fs with groups := g } := by
    rw [hfields, hr.fsAt, hstart.fields]
  refine ⟨⟨tableBytes (s.fsAt fs), ?_, ?_⟩, fun k hk j hj => ?_⟩
  · rw [hmallocs, hr.mallocs.1, hstart.mallocs, hfs]
  · rw [hbytes, hfs, Nat.mul_comm, ← hv.groupCount]
  · rw [hfs] at hk ⊢
    rw [hv.groupCount] at hk
    have hx : sizeofGroupDesc * k + j < (s.fsAt fs).sb.groups * sizeofGroupDesc := by
      have := Nat.mul_le_mul_left sizeofGroupDesc (Nat.succ_le_of_lt hk)
      rw [Nat.mul_succ, Nat.mul_comm _ (s.fsAt fs).sb.groups] at this
      omega
    have hbyte := (hsame rfl).2 (sizeofGroupDesc * k + j) hx (by rw [Nat.zero_mul]; exact Nat.zero_le _)
      (by rw [Nat.zero_add]; exact Nat.lt_of_lt_of_le hx hend)
    rw [htable, hbyte, hv.blockSize, Nat.add_assoc]
    simp only [Kern.diskByte, hstart.sectors]

def Kern.laidOut (s : Kern) (l fs : Nat) : Kern :=
  s.putFs fs { s.fsAt fs with layout := ext2ComputeLayout wrapping (s.fsAt fs).sb l }

theorem loadTable_eq (E : Env) (fs : Nat) (s : Kern) :
    loadTable E fs s = ext2ReadGroupDescs E fs (s.laidOut E.lbaSize fs) :=
  Prog.bind_eq rfl

theorem Kern.laidOut_fs (s : Kern) (l fs : Nat) : (s.laidOut l fs).fsAt fs =
    { s.fsAt fs with layout := ext2ComputeLayout wrapping (s.fsAt fs).sb l } :=
  Function.update_self ..

theorem loaded_laidOut : Loaded l fs (s.laidOut l fs) t ↔ Loaded l fs s t := by
  constructor
  · rintro ⟨hroom, hsame⟩
    rw [s.laidOut_fs] at hsame
    exact ⟨hroom, hsame⟩
  · rintro ⟨hroom, hsame⟩
    refine ⟨hroom, ?_⟩
    rw [s.laidOut_fs]
    exact hsame

/-- A table that is accepted is the one on the disk. The sizes of one that was not
loaded pass `2 ^ 32`, and the loop over it leaves memory. -/
theorem table_loaded (hl : E.lbaSize < 2 ^ 32)
    (hv : ext2ValidateSb (s.fsAt fs).sb E.lbaSize = .ok ())
    (h : loadTable E fs s = (some true, t)) : Loaded E.lbaSize fs s t := by
  have hvol : Volume E.lbaSize ((s.laidOut E.lbaSize fs).fsAt fs) := by
    rw [s.laidOut_fs]
    exact Volume.of_validate hl hv rfl
  rw [loadTable_eq] at h
  obtain ⟨hload, hok⟩ := readGroupDescs_some h
  have hfs := loadGroupDescs_fields hvol hload
  have hvolt := loadGroupDescs_volume hvol hload
  rw [hvolt.groupCount] at hok
  have hread := ((checkGroups_all_iff hvolt).mp hok).1.1
  have hsb : (t.fsAt fs).sb = ((s.laidOut E.lbaSize fs).fsAt fs).sb := by rw [hfs]
  have hpage := hvol.sectors
  have himage := E.image
  refine loaded_laidOut.mp (loadGroupDescs_loaded hvol ?_ hload)
  rw [hsb, Nat.mul_comm] at hread
  omega

theorem table_loaded_small :
    ∃ t, loadTable allOk 1 (smallVolume 5) = (some true, t) ∧ Loaded 512 1 (smallVolume 5) t := by
  have hrun : (loadTable allOk 1 (smallVolume 5)).1 = some true := by decide +kernel
  obtain ⟨t, ht⟩ := Prog.exists_state hrun
  exact ⟨t, ht, table_loaded (E := allOk) (by decide) (by decide +kernel) ht⟩

end

end TomatoOs.Fs.Ext2
