import TomatoOs.Fs.Ext2.Mount

/-!
# What a mount leaves behind

Every call of the mount gives back what it took before it fails: pages in the
reverse of the order in which they were handed out, and heap blocks once. It
returns unless the descriptors of the superblock are more than the heap can hold.
-/

namespace TomatoOs.Fs.Ext2

open Lib Memory
open Kmem (heapSize)

-- ---------------------------------------------------------------------------
-- Pages
-- ---------------------------------------------------------------------------

def Kern.asked (s : Kern) (site : PageSite) : Kern :=
  { s with pageCalls := Function.update s.pageCalls site (s.pageCalls site + 1) }

def Kern.granted (s : Kern) (site : PageSite) (i : Nat) : Kern :=
  { s.asked site with pmm := s.pmm.take i, held := s.pmm.page i :: s.held }

theorem Kern.asked_other (s : Kern) (h : site' ≠ site) :
    (s.asked site).pageCalls site' = s.pageCalls site' :=
  Function.update_of_ne h _ s.pageCalls

section
variable {E : Env} {s t : Kern} {fs : Nat} {site : PageSite}

theorem allocPage_cases (E : Env) (site : PageSite) (h : s.pmm.Sound) :
    (∃ i, s.pmm.Free i ∧ s.pmm.page i ≠ 0 ∧ E.pageOk site (s.pageCalls site) = true ∧
      allocPage E site s = (some (s.pmm.page i), s.granted site i)) ∨
    ((E.pageOk site (s.pageCalls site) = true → ∀ i, ¬s.pmm.Free i) ∧
      allocPage E site s = (some 0, s.asked site)) := by
  unfold allocPage
  cases hok : E.pageOk site (s.pageCalls site) with
  | false => exact .inr ⟨fun hf => absurd hf Bool.false_ne_true, rfl⟩
  | true =>
    rcases pmmAllocPage_page h with ⟨i, hi, ha⟩ | ⟨hnone, ha⟩
    · have hne := (h.address hi).2
      refine .inl ⟨i, hi, hne, rfl, ?_⟩
      simp only [ha, if_true, if_neg hne]
      rfl
    · refine .inr ⟨fun _ => hnone, ?_⟩
      simp only [ha, if_true]
      rfl

/-- What a call for a page can change, whatever the state of the allocator. -/
theorem allocPage_eq (E : Env) (site : PageSite) (s : Kern) :
    ∃ a p h, allocPage E site s = (some a, { s.asked site with pmm := p, held := h }) ∧
      (a ≠ 0 → a ∈ h) := by
  refine ⟨_, _, _, rfl, fun hne => ?_⟩
  rw [if_neg hne]
  exact List.mem_cons_self

theorem freePage_eq (h : s.pmm.Sound) (hi : s.pmm.Free i) (hp : t.pmm = s.pmm.take i)
    (hh : t.held = s.pmm.page i :: s.held) :
    freePage (s.pmm.page i) t = (some (), { t with pmm := s.pmm, held := s.held }) := by
  simp only [freePage, hp, hh, pmmFree_take h hi, List.erase_cons_head]

-- ---------------------------------------------------------------------------
-- What stays as it was
-- ---------------------------------------------------------------------------

/-- A call on the partition `fs` that holds no page when it returns and mounts
nothing. -/
structure Calm (l fs : Nat) (s t : Kern) : Prop where
  pmm : t.pmm = s.pmm
  held : t.held = s.held
  partitions : t.partitions = s.partitions
  partitionCount : t.partitionCount = s.partitionCount
  rootFs : t.rootFs = s.rootFs
  sectors : t.sectors = s.sectors
  others : ∀ q, q ≠ fs → t.fsAt q = s.fsAt q
  lbaStart : (t.fsAt fs).lbaStart = (s.fsAt fs).lbaStart
  ioBuf : (t.fsAt fs).ioBuf = (s.fsAt fs).ioBuf
  lock : (t.fsAt fs).lock = (s.fsAt fs).lock
  sites : ∀ site, site ≠ .groupDescs → t.pageCalls site = s.pageCalls site
  linuxCalls : t.linuxCalls = s.linuxCalls
  kmallocCalls : s.kmallocCalls ≤ t.kmallocCalls
  transfers : ∃ new, t.transfers = s.transfers ++ new ∧ ∀ x ∈ new, Transfer.Fits l x

theorem Calm.trans (h : Calm l fs s t) (h' : Calm l fs t u) : Calm l fs s u := by
  obtain ⟨new, htr, hfit⟩ := h.transfers
  obtain ⟨new', htr', hfit'⟩ := h'.transfers
  refine ⟨h'.pmm.trans h.pmm, h'.held.trans h.held, h'.partitions.trans h.partitions,
    h'.partitionCount.trans h.partitionCount, h'.rootFs.trans h.rootFs, h'.sectors.trans h.sectors,
    fun q hq => (h'.others q hq).trans (h.others q hq), h'.lbaStart.trans h.lbaStart,
    h'.ioBuf.trans h.ioBuf, h'.lock.trans h.lock,
    fun site hs => (h'.sites site hs).trans (h.sites site hs), h'.linuxCalls.trans h.linuxCalls,
    Nat.le_trans h.kmallocCalls h'.kmallocCalls,
    new ++ new', ?_, fun x hx => ?_⟩
  · rw [htr', htr, List.append_assoc]
  · rcases List.mem_append.mp hx with hx | hx
    · exact hfit x hx
    · exact hfit' x hx

theorem Calm.of_reads (h : Reads l s t) : Calm l fs s t := by
  obtain ⟨ram, tables, new, rfl, hfit⟩ := h
  exact ⟨rfl, rfl, rfl, rfl, rfl, rfl, fun _ _ => rfl, rfl, rfl, rfl, fun _ _ => rfl, rfl,
    Nat.le_refl _, new, rfl, hfit⟩

theorem Calm.putFs (l fs : Nat) (s : Kern) (p : Partition) (hp : p.lbaStart = (s.fsAt fs).lbaStart)
    (hb : p.ioBuf = (s.fsAt fs).ioBuf) (hl : p.lock = (s.fsAt fs).lock) :
    Calm l fs s (s.putFs fs p) := by
  have hfs := s.putFs_fs fs p
  refine ⟨rfl, rfl, rfl, rfl, rfl, rfl, fun q hq => Function.update_of_ne hq .., ?_, ?_, ?_,
    fun _ _ => rfl, rfl, Nat.le_refl _, [], by simp [Kern.putFs]⟩
  · rw [hfs, hp]
  · rw [hfs, hb]
  · rw [hfs, hl]

-- ---------------------------------------------------------------------------
-- Heap blocks
-- ---------------------------------------------------------------------------

def Balanced (s t : Kern) : Prop :=
  ∃ blocks, t.mallocs = s.mallocs ++ blocks ∧ t.frees = s.frees ++ blocks.map HeapBlock.addr ∧
    (blocks.map HeapBlock.addr).Nodup

def Gained (p : Nat) (s t : Kern) : Prop :=
  p ≠ 0 ∧ ∃ size, t.mallocs = s.mallocs ++ [⟨p, size⟩] ∧ t.frees = s.frees

theorem Balanced.of_eq (hm : t.mallocs = s.mallocs) (hf : t.frees = s.frees) : Balanced s t :=
  ⟨[], by rw [hm, List.append_nil], by rw [hf, List.map_nil, List.append_nil], List.nodup_nil⟩

theorem Gained.freed (h : Gained p s t) (hm : u.mallocs = t.mallocs) (hf : u.frees = t.frees ++ [p]) :
    Balanced s u := by
  obtain ⟨-, size, hm', hf'⟩ := h
  exact ⟨[⟨p, size⟩], by rw [hm, hm'], by rw [hf, hf', List.map_singleton], List.nodup_singleton p⟩

theorem Calm.of_frees (t : Kern) (frees : List Nat) : Calm l fs t { t with frees := frees } :=
  ⟨rfl, rfl, rfl, rfl, rfl, rfl, fun _ _ => rfl, rfl, rfl, rfl, fun _ _ => rfl, rfl,
    Nat.le_refl _, [], by simp⟩

theorem Reads.mallocs (h : Reads l s t) : t.mallocs = s.mallocs ∧ t.frees = s.frees := by
  obtain ⟨_, _, _, rfl, -⟩ := h
  exact ⟨rfl, rfl⟩

-- ---------------------------------------------------------------------------
-- Descriptors
-- ---------------------------------------------------------------------------

/-- Where a call stops that follows a table out of the heap. -/
structure Overrun (l fs : Nat) (s t : Kern) : Prop where
  long : heapSize < sizeofGroupDesc * (t.fsAt fs).layout.groupCount
  transfers : ∃ new, t.transfers = s.transfers ++ new ∧ ∀ x ∈ new, Transfer.Fits l x

theorem Calm.overrun (h : Calm l fs s t) (ho : Overrun l fs t u) : Overrun l fs s u := by
  obtain ⟨new, htr, hfit⟩ := h.transfers
  obtain ⟨new', htr', hfit'⟩ := ho.transfers
  refine ⟨ho.long, new ++ new', by rw [htr', htr, List.append_assoc], fun x hx => ?_⟩
  exact (List.mem_append.mp hx).elim (hfit x) (hfit' x)

theorem Volume.tableBlock_lt (h : Volume l p) (hk : k < tableBlocks p) :
    k * p.sb.bs < tableBytes p := by
  obtain ⟨-, -, -, hbs, hpage⟩ := h.sectors
  have hlast : wsub 32 (wadd 32 (tableBytes p) p.sb.bs) 1 ≤ tableBytes p + p.sb.bs - 1 := by
    unfold wsub wadd
    omega
  rw [tableBlocks, h.blockSize] at hk
  have hle := (Nat.le_div_iff_mul_le hbs).mp hk
  rw [Nat.succ_mul] at hle
  omega

theorem tableBytes_le (p : Partition) : tableBytes p ≤ sizeofGroupDesc * p.layout.groupCount := by
  rw [Nat.mul_comm]
  exact Nat.mod_le ..

theorem copyToTable_triple (groups done buf n : Nat) (s : Kern) :
    Triple (loadBlocks.copyToTable groups done buf n) s
      (fun _ t => t = { s with
        tableAt := Function.update s.tableAt groups ((s.tableAt groups).paste done s.ram buf n) })
      fun t => t = s ∧ heapSize < done + n := by
  by_cases hfit : done + n ≤ heapSize
  · exact Triple.of_run (if_pos hfit) rfl
  · exact Triple.of_stop (if_neg hfit) ⟨rfl, Nat.lt_of_not_le hfit⟩

theorem loadBlocks_reads (h : Volume E.lbaSize (s.fsAt fs)) (hne : buf ≠ 0) (hheld : buf ∈ s.held)
    (hb : bytes < 2 ^ 32) (n i : Nat) (hi : ∀ k < i + n, k * (s.fsAt fs).sb.bs < bytes) :
    Triple (loadBlocks E fs buf firstBlock bytes n i) s (fun _ t => Reads E.lbaSize s t)
      fun t => Reads E.lbaSize s t ∧ heapSize < bytes := by
  induction n generalizing s i with
  | zero => exact Triple.pure (.refl _ _)
  | succ n ih =>
    refine Triple.bind (readBlocks_triple h hne hheld).total ?_
    rintro ok t ⟨hr, -, -⟩
    cases ok with
    | false => exact Triple.pure hr
    | true =>
      have hlt := hi i (by omega)
      have hdone : wmul 32 i (t.fsAt fs).layout.blockSize = i * (s.fsAt fs).sb.bs := by
        rw [hr.fsAt, h.blockSize]
        exact wmul_eq (by omega)
      have hchunk : wsub 32 bytes (i * (s.fsAt fs).sb.bs) = bytes - i * (s.fsAt fs).sb.bs :=
        wsub_eq (by omega) hb
      refine Triple.step rfl (Triple.bind ((copyToTable_triple ..).mono (fun _ _ hu => hu) ?_) ?_)
      · rintro u ⟨rfl, hover⟩
        refine ⟨hr, Nat.lt_of_lt_of_le hover ?_⟩
        rw [hdone, hchunk]
        split <;> omega
      · rintro - u rfl
        refine (ih ?_ ?_ (i + 1) ?_).mono
          (fun _ _ hu => (hr.trans (Reads.write E.lbaSize t t.ram _)).trans hu)
          fun _ hu => ⟨(hr.trans (Reads.write E.lbaSize t t.ram _)).trans hu.1, hu.2⟩
        · show Volume E.lbaSize (t.fsAt fs)
          rw [hr.fsAt]
          exact h
        · show buf ∈ t.held
          rw [hr.held]
          exact hheld
        · intro k hk
          show k * (t.fsAt fs).sb.bs < bytes
          rw [hr.fsAt]
          exact hi k (by omega)

theorem loadTable_reads {u : Kern} (firstBlock : Nat) (hv : Volume E.lbaSize (s.fsAt fs))
    (hput : u.fsAt fs = { s.fsAt fs with groups := g }) (hne : buf ≠ 0) (hheld : buf ∈ u.held) :
    Triple (loadBlocks E fs buf firstBlock (tableBytes (s.fsAt fs)) (tableBlocks (s.fsAt fs)) 0) u
      (fun _ t => Reads E.lbaSize u t) fun t => Reads E.lbaSize u t ∧
        heapSize < sizeofGroupDesc * (t.fsAt fs).layout.groupCount := by
  have hvol : Volume E.lbaSize (u.fsAt fs) := by
    rw [hput]
    exact hv.of_fields rfl rfl
  have hstarts : ∀ k < 0 + tableBlocks (s.fsAt fs),
      k * (u.fsAt fs).sb.bs < tableBytes (s.fsAt fs) := by
    intro k hk
    rw [hput]
    exact hv.tableBlock_lt (by omega)
  refine (loadBlocks_reads hvol hne hheld (Nat.mod_lt _ (by decide)) _ 0 hstarts).mono
    (fun _ _ hr => hr) ?_
  rintro t ⟨hr, hover⟩
  refine ⟨hr, ?_⟩
  rw [hr.fsAt, hput]
  exact Nat.lt_of_lt_of_le hover (tableBytes_le _)

structure TableCall (l fs : Nat) (s : Kern) (ok : Bool) (t : Kern) : Prop where
  calm : Calm l fs s t
  fields : ∃ g, t.fsAt fs = { s.fsAt fs with groups := g }
  heap : if ok then Gained (t.fsAt fs).groups s t else Balanced s t

theorem TableCall.failed (h : TableCall l fs s false t) (P : Prop) :
    TableCall l fs s false t ∧ (false = true → P) :=
  ⟨h, fun hf => absurd hf Bool.false_ne_true⟩

theorem dropGroups_triple {R : Kern → Prop} (h : TableCall E.lbaSize fs s true t) :
    Triple (dropGroups fs) t (fun _ u => TableCall E.lbaSize fs s false u) R := by
  refine Triple.of_run (a := ())
    (t := Kern.putFs { t with frees := t.frees ++ [(t.fsAt fs).groups] } fs
      { t.fsAt fs with groups := 0 }) rfl ?_
  have hc := (h.calm.trans (Calm.of_frees t _)).trans
    (Calm.putFs E.lbaSize fs { t with frees := t.frees ++ [(t.fsAt fs).groups] }
      { t.fsAt fs with groups := 0 } rfl rfl rfl)
  obtain ⟨g, hg⟩ := h.fields
  refine ⟨hc, ⟨0, ?_⟩, ?_⟩
  · simp only [Kern.putFs, Function.update_self, hg]
  · exact Gained.freed h.heap rfl rfl

theorem kmalloc_cases (E : Env) (size l fs : Nat) (s : Kern) :
    ∃ g t, kmalloc E size s = (some g, t) ∧ Calm l fs s t ∧ t.fsAt = s.fsAt ∧
      (g = 0 ∧ t.mallocs = s.mallocs ∧ t.frees = s.frees ∨
        g ≠ 0 ∧ t.mallocs = s.mallocs ++ [⟨g, size⟩] ∧ t.frees = s.frees) := by
  unfold kmalloc
  cases E.grants s.kmallocCalls size with
  | false =>
    refine ⟨0, _, rfl, ?_, rfl, .inl ⟨rfl, rfl, rfl⟩⟩
    exact ⟨rfl, rfl, rfl, rfl, rfl, rfl, fun _ _ => rfl, rfl, rfl, rfl, fun _ _ => rfl, rfl,
      Nat.le_succ _, [], by simp⟩
  | true =>
    refine ⟨_, _, rfl, ?_, rfl, .inr ⟨Nat.succ_ne_zero _, rfl, rfl⟩⟩
    exact ⟨rfl, rfl, rfl, rfl, rfl, rfl, fun _ _ => rfl, rfl, rfl, rfl, fun _ _ => rfl, rfl,
      Nat.le_succ _, [], by simp⟩

theorem TableCall.asked (h : TableCall l fs s ok t) : TableCall l fs s ok (t.asked .groupDescs) := by
  refine ⟨h.calm.trans ?_, h.fields, h.heap⟩
  exact ⟨rfl, rfl, rfl, rfl, rfl, rfl, fun _ _ => rfl, rfl, rfl, rfl,
    fun site hs => Function.update_of_ne hs .., rfl, Nat.le_refl _, [], by simp [Kern.asked]⟩

theorem TableCall.page (h : TableCall l fs s ok t) (hr : Reads l (t.granted .groupDescs i) u) :
    TableCall l fs s ok { u with pmm := t.pmm, held := t.held } := by
  obtain ⟨ram, tables, new, rfl, hfit⟩ := hr
  refine ⟨h.calm.trans ?_, h.fields, h.heap⟩
  exact ⟨rfl, rfl, rfl, rfl, rfl, rfl, fun _ _ => rfl, rfl, rfl, rfl,
    fun site hs => Function.update_of_ne hs .., rfl, Nat.le_refl _, new, rfl, hfit⟩

theorem loadGroupDescs_triple (hs : s.pmm.Sound) (hv : Volume E.lbaSize (s.fsAt fs)) :
    Triple (loadGroupDescs E fs) s
      (fun ok t => TableCall E.lbaSize fs s ok t ∧ (ok = true → ∃ j, s.pmm.Free j))
      fun t => Overrun E.lbaSize fs s t := by
  refine Triple.step rfl ?_
  obtain ⟨g, t, hk, hcalm, hfs, hheap⟩ := kmalloc_cases E (tableBytes (s.fsAt fs)) E.lbaSize fs s
  refine Triple.step hk (Triple.step (a := ()) (t := t.putFs fs { t.fsAt fs with groups := g }) rfl ?_)
  have hput : (t.putFs fs { t.fsAt fs with groups := g }).fsAt fs = { s.fsAt fs with groups := g } := by
    simp only [Kern.putFs, Function.update_self, hfs]
  have hc := hcalm.trans (Calm.putFs E.lbaSize fs t { t.fsAt fs with groups := g } rfl rfl rfl)
  rcases hheap with ⟨rfl, hm, hf⟩ | ⟨hg, hm, hf⟩
  · exact Triple.pure ⟨⟨hc, ⟨0, hput⟩, Balanced.of_eq hm hf⟩, fun h => absurd h Bool.false_ne_true⟩
  · have hcall : TableCall E.lbaSize fs s true (t.putFs fs { t.fsAt fs with groups := g }) := by
      refine ⟨hc, ⟨g, hput⟩, ?_⟩
      simp only [hput, if_true]
      exact ⟨hg, _, hm, hf⟩
    rw [if_neg hg]
    generalize t.putFs fs { t.fsAt fs with groups := g } = u at hput hcall
    have hsound : u.pmm.Sound := by
      rw [hcall.calm.pmm]
      exact hs
    rcases allocPage_cases E .groupDescs hsound with
      ⟨i, hi, hne, -, ha⟩ | ⟨-, ha⟩
    · refine Triple.step ha ?_
      rw [if_neg hne]
      have hload := loadTable_reads (u := u.granted .groupDescs i)
        (wadd 32 (s.fsAt fs).sb.sFirstDataBlock 1) hv hput hne List.mem_cons_self
      refine Triple.bind (hload.mono (fun _ _ hr => hr) fun _ hover =>
        ⟨hover.2, (hcall.page hover.1).calm.transfers⟩) ?_
      intro ok v hr
      have hback := hcall.page hr
      obtain ⟨ram, tables, new, rfl, -⟩ := hr
      refine Triple.step (freePage_eq hsound hi rfl rfl) ?_
      cases ok with
      | true =>
        rw [hcall.calm.pmm] at hi
        exact Triple.pure ⟨hback, fun _ => ⟨i, hi⟩⟩
      | false => exact Triple.bind (dropGroups_triple hback) fun _ _ hd => Triple.pure (hd.failed _)
    · refine Triple.step ha ?_
      exact Triple.bind (dropGroups_triple hcall.asked) fun _ _ hd => Triple.pure (hd.failed _)

theorem checkGroups_none {p : Partition} (h : checkGroups p reach table n g = none) :
    reach < sizeofGroupDesc * (g + n) := by
  induction n generalizing g with
  | zero => cases h
  | succ n ih =>
    rw [checkGroups] at h
    split at h
    · split at h
      · rw [Nat.add_comm n, ← Nat.add_assoc]
        exact ih h
      · cases h
    · simp only [sizeofGroupDesc] at *
      omega

theorem readGroupDescs_triple (hs : s.pmm.Sound) (hv : Volume E.lbaSize (s.fsAt fs)) :
    Triple (ext2ReadGroupDescs E fs) s
      (fun ok t => TableCall E.lbaSize fs s ok t ∧ (ok = true → ∃ j, s.pmm.Free j))
      fun t => Overrun E.lbaSize fs s t := by
  refine Triple.bind (loadGroupDescs_triple hs hv) ?_
  rintro ok t ⟨ht, hspare⟩
  cases ok with
  | false => exact Triple.pure (ht.failed _)
  | true =>
    refine Triple.step rfl (Triple.step rfl ?_)
    split
    · exact Triple.pure ⟨ht, hspare⟩
    · exact Triple.bind (dropGroups_triple ht) fun _ _ hd => Triple.pure (hd.failed _)
    · rename_i hfault
      refine Triple.of_stop rfl ⟨?_, ht.calm.transfers⟩
      have hlong := checkGroups_none hfault
      rw [Nat.zero_add] at hlong
      exact Nat.lt_of_le_of_lt E.image.1 hlong

-- ---------------------------------------------------------------------------
-- The root inode and the superblock
-- ---------------------------------------------------------------------------

theorem TableCall.reads (h : TableCall l fs s ok t) (hr : Reads l t u) : TableCall l fs s ok u := by
  obtain ⟨ram, tables, new, rfl, hfit⟩ := hr
  exact ⟨h.calm.trans (Calm.of_reads ⟨ram, tables, new, rfl, hfit⟩), h.fields, h.heap⟩

theorem checkRoot_triple {P R : Kern → Prop}
    (h : Triple (ext2ReadInode E fs ext2RootIno fun _ => 0) s (fun _ t => P t) R) :
    Triple (ext2CheckRoot E fs) s (fun _ t => P t) R := by
  refine Triple.bind h ?_
  rintro ⟨ok, root⟩ t ht
  cases ok with
  | false => exact Triple.pure ht
  | true =>
    dsimp only
    rw [if_pos rfl]
    split
    · exact Triple.pure ht
    · exact Triple.step rfl (Triple.step rfl (Triple.step rfl (Triple.pure ht)))

theorem freeGroupDescs_triple {R : Kern → Prop} (h : TableCall E.lbaSize fs s true t) :
    Triple (ext2FreeGroupDescs fs) t (fun _ u => TableCall E.lbaSize fs s false u) R := by
  have hgained : Gained (t.fsAt fs).groups s t := h.heap
  refine Triple.step rfl ?_
  rw [if_neg hgained.1]
  exact dropGroups_triple h

theorem readSuperblock_triple (hl : 0 < E.lbaSize) (hle : E.lbaSize ≤ 4096)
    (hne : (s.fsAt fs).ioBuf ≠ 0) (hheld : (s.fsAt fs).ioBuf ∈ s.held) :
    Triple (ext2ReadSuperblock E fs) s
      (fun _ t => Calm E.lbaSize fs s t ∧ t.mallocs = s.mallocs ∧ t.frees = s.frees)
      fun _ => False := by
  have hread : Triple (diskRead E (s.fsAt fs).ioBuf
      (wadd 64 (s.fsAt fs).lbaStart (bytesToBlocks 1024 1024 E.lbaSize).lba)
      (bytesToBlocks 1024 1024 E.lbaSize).sizeInBlocks) s (fun _ t => Reads E.lbaSize s t)
      fun _ => False := by
    refine Triple.of_run rfl ⟨_, _, _, rfl, fun x hx => ?_⟩
    rw [List.mem_singleton.mp hx]
    exact ⟨hne, hheld, bytesToBlocks_superblock hl hle⟩
  refine Triple.step rfl (Triple.bind hread ?_)
  intro ok t hr
  cases ok with
  | false => exact Triple.pure ⟨.of_reads hr, hr.mallocs⟩
  | true =>
    refine Triple.step rfl (Triple.step rfl (Triple.pure ⟨?_, hr.mallocs⟩))
    exact (Calm.of_reads hr).trans (Calm.putFs _ _ t _ rfl rfl rfl)

-- ---------------------------------------------------------------------------
-- The mount
-- ---------------------------------------------------------------------------

theorem TableCall.ready (h : TableCall l fs s ok t) (hs : Ready l fs s) : Ready l fs t := by
  obtain ⟨g, hg⟩ := h.fields
  refine ⟨?_, ?_, ?_, ?_⟩
  · rw [hg]
    exact hs.volume.of_fields rfl rfl
  · rw [h.calm.ioBuf]
    exact hs.page
  · rw [h.calm.ioBuf, h.calm.held]
    exact hs.held
  · rw [h.calm.lock]
    exact hs.lock

theorem fillGroups_triple (hs : s.pmm.Sound) (hr : Ready E.lbaSize fs s) :
    Triple (fillGroups E fs) s
      (fun ok t => TableCall E.lbaSize fs s ok t ∧ (ok = true → ∃ j, s.pmm.Free j))
      fun t => Overrun E.lbaSize fs s t := by
  refine Triple.bind (readGroupDescs_triple hs hr.volume) ?_
  rintro ok t ⟨ht, hspare⟩
  cases ok with
  | false => exact Triple.pure (ht.failed _)
  | true =>
    refine Triple.bind (checkRoot_triple (readInode_reads (ht.ready hr))).total ?_
    intro ok u hu
    have hu := ht.reads hu
    cases ok with
    | true => exact Triple.pure ⟨hu, hspare⟩
    | false =>
      exact Triple.bind (freeGroupDescs_triple hu) fun _ _ hd => Triple.pure (hd.failed _)

structure FillCall (l fs : Nat) (s : Kern) (ok : Bool) (t : Kern) : Prop where
  calm : Calm l fs s t
  heap : if ok then Gained (t.fsAt fs).groups s t else Balanced s t
  volume : ok = true → Volume l (t.fsAt fs)
  spare : ok = true → ∃ j, s.pmm.Free j

theorem FillCall.failed (hc : Calm l fs s t) (hb : Balanced s t) : FillCall l fs s false t :=
  ⟨hc, hb, fun h => absurd h Bool.false_ne_true, fun h => absurd h Bool.false_ne_true⟩

theorem fillSuper_triple (hs : s.pmm.Sound) (hl : 0 < E.lbaSize) (hle : E.lbaSize ≤ 4096)
    (hne : (s.fsAt fs).ioBuf ≠ 0) (hheld : (s.fsAt fs).ioBuf ∈ s.held)
    (hlock : (s.fsAt fs).lock = false) :
    Triple (ext2FillSuper E fs) s (fun ok t => FillCall E.lbaSize fs s ok t)
      fun t => Overrun E.lbaSize fs s t := by
  refine Triple.bind (readSuperblock_triple hl hle hne hheld).total ?_
  rintro ok t ⟨hcalm, hm, hf⟩
  cases ok with
  | false => exact Triple.pure (.failed hcalm (.of_eq hm hf))
  | true =>
    refine Triple.step rfl ?_
    split
    · exact Triple.pure (.failed hcalm (.of_eq hm hf))
    · rename_i hvalid
      have hacc := accepted_of_validate hvalid
      let p : Partition :=
        { t.fsAt fs with layout := ext2ComputeLayout wrapping (t.fsAt fs).sb E.lbaSize }
      have hput := t.putFs_fs fs p
      have hcalm' : Calm E.lbaSize fs s (t.putFs fs p) := hcalm.trans (Calm.putFs _ _ t _ rfl rfl rfl)
      have hready : Ready E.lbaSize fs (t.putFs fs p) := by
        refine ⟨?_, ?_, ?_, ?_⟩
        · rw [hput]
          exact ⟨hacc, (computeLayout_eq hacc (by omega)).2, by omega⟩
        · rw [hcalm'.ioBuf]
          exact hne
        · rw [hcalm'.ioBuf, hcalm'.held]
          exact hheld
        · rw [hcalm'.lock]
          exact hlock
      have hsound : (t.putFs fs p).pmm.Sound := by
        rw [hcalm'.pmm]
        exact hs
      refine Triple.step (a := ()) (t := t.putFs fs p) rfl ?_
      refine (fillGroups_triple hsound hready).mono ?_ fun _ h => hcalm'.overrun h
      rintro ok u ⟨hu, hspare⟩
      rw [hcalm'.pmm] at hspare
      refine ⟨hcalm'.trans hu.calm, ?_, fun _ => (hu.ready hready).volume, hspare⟩
      have hheap := hu.heap
      unfold Gained Balanced at *
      rwa [← hm, ← hf]

structure InitCall (l fs : Nat) (s : Kern) (ok : Bool) (t : Kern) : Prop where
  lock : (t.fsAt fs).lock = false
  others : ∀ q, q ≠ fs → t.fsAt q = s.fsAt q
  sites : ∀ site, site ≠ .ioBuf → site ≠ .groupDescs → t.pageCalls site = s.pageCalls site
  linuxCalls : t.linuxCalls = s.linuxCalls
  kmallocCalls : s.kmallocCalls ≤ t.kmallocCalls
  transfers : ∃ new, t.transfers = s.transfers ++ new ∧ ∀ x ∈ new, Transfer.Fits l x
  failed : ok = false → t.pmm = s.pmm ∧ t.held = s.held ∧ Balanced s t ∧
    t.partitions = s.partitions ∧ t.partitionCount = s.partitionCount ∧ t.rootFs = s.rootFs
  mounted : ok = true → Ready l fs t ∧ Gained (t.fsAt fs).groups s t ∧
    t.partitions = Function.update s.partitions s.partitionCount fs ∧
    t.partitionCount = s.partitionCount + 1 ∧ t.partitionCount ≤ maxPartitions ∧
    ∃ i, s.pmm.Free i ∧ t.pmm = s.pmm.take i ∧ (t.fsAt fs).ioBuf = s.pmm.page i ∧
      t.held = s.pmm.page i :: s.held ∧ ∃ j, t.pmm.Free j

theorem InitCall.refused (hlock : (t.fsAt fs).lock = false)
    (hothers : ∀ q, q ≠ fs → t.fsAt q = s.fsAt q)
    (ht : t = { s with fsAt := t.fsAt, pageCalls := t.pageCalls })
    (hsites : ∀ site, site ≠ .ioBuf → t.pageCalls site = s.pageCalls site) :
    InitCall l fs s false t := by
  rw [ht] at *
  exact ⟨hlock, hothers, fun site hio _ => hsites site hio, rfl, Nat.le_refl _, ⟨[], by simp⟩,
    fun _ => ⟨rfl, rfl, .of_eq rfl rfl, rfl, rfl, rfl⟩, fun h => absurd h Bool.false_ne_true⟩

theorem mountWith_triple (hs : s.pmm.Sound) (hl : 0 < E.lbaSize) (hle : E.lbaSize ≤ 4096)
    (hi : s.pmm.Free i) (hlock : (s.fsAt fs).lock = false) (hcount : s.partitionCount < maxPartitions) :
    Triple (mountWith E fs (s.pmm.page i)) (s.granted .ioBuf i)
      (fun ok t => InitCall E.lbaSize fs s ok t) fun t => Overrun E.lbaSize fs s t := by
  have hne := (hs.address hi).2
  let v := (s.granted .ioBuf i).putFs fs { s.fsAt fs with ioBuf := s.pmm.page i }
  have hv : v.fsAt fs = { s.fsAt fs with ioBuf := s.pmm.page i } := Function.update_self ..
  have hpage : (v.fsAt fs).ioBuf ≠ 0 := by
    rw [hv]
    exact hne
  have hheld : (v.fsAt fs).ioBuf ∈ v.held := by
    rw [hv]
    exact List.mem_cons_self
  have hvlock : (v.fsAt fs).lock = false := by
    rw [hv]
    exact hlock
  refine Triple.step (a := ()) (t := v) rfl ?_
  refine Triple.bind ((fillSuper_triple (hs.take i) hl hle hpage hheld hvlock).mono
    (fun _ _ hq => hq) fun _ ho => ⟨ho.long, ho.transfers⟩) ?_
  intro ok w hw
  have hothers : ∀ q, q ≠ fs → w.fsAt q = s.fsAt q := fun q hq =>
    (hw.calm.others q hq).trans (Function.update_of_ne hq ..)
  have hsites : ∀ site, site ≠ .ioBuf → site ≠ .groupDescs →
      w.pageCalls site = s.pageCalls site := fun site hio hgd =>
    (hw.calm.sites site hgd).trans (Function.update_of_ne hio ..)
  have hwlock := hw.calm.lock.trans hvlock
  cases ok with
  | false =>
    refine Triple.step (freePage_eq hs hi hw.calm.pmm hw.calm.held) (Triple.pure ?_)
    refine ⟨hwlock, hothers, hsites, hw.calm.linuxCalls, hw.calm.kmallocCalls, hw.calm.transfers,
      fun _ => ?_, fun h => absurd h Bool.false_ne_true⟩
    exact ⟨rfl, rfl, hw.heap, hw.calm.partitions, hw.calm.partitionCount, hw.calm.rootFs⟩
  | true =>
    have hready : Ready E.lbaSize fs w := by
      refine ⟨hw.volume rfl, ?_, ?_, hwlock⟩
      · rw [hw.calm.ioBuf]
        exact hpage
      · rw [hw.calm.ioBuf, hw.calm.held]
        exact hheld
    have hbuf : (w.fsAt fs).ioBuf = s.pmm.page i := by
      rw [hw.calm.ioBuf, hv]
    have hgrown : w.partitionCount + 1 = s.partitionCount + 1 := by
      rw [hw.calm.partitionCount]
      rfl
    have hslots : Function.update w.partitions w.partitionCount fs =
        Function.update s.partitions s.partitionCount fs := by
      rw [hw.calm.partitions, hw.calm.partitionCount]
      rfl
    obtain ⟨j, hj⟩ := hw.spare rfl
    have hfree : w.pmm.Free j := by
      rw [hw.calm.pmm]
      exact hj
    refine Triple.step rfl (Triple.pure ?_)
    refine ⟨hwlock, hothers, hsites, hw.calm.linuxCalls, hw.calm.kmallocCalls, hw.calm.transfers,
      fun h => absurd h.symm Bool.false_ne_true, fun _ => ?_⟩
    exact ⟨⟨hready.volume, hready.page, hready.held, hready.lock⟩, hw.heap, hslots, hgrown,
      hgrown ▸ hcount, i, hi, hw.calm.pmm, hbuf, hw.calm.held, j, hfree⟩

theorem InitCall.cleared (h : InitCall l fs (s.putFs fs z) ok t) : InitCall l fs s ok t :=
  { h with others := fun q hq => (h.others q hq).trans (Function.update_of_ne hq ..) }

theorem ext2Init_triple (hs : s.pmm.Sound) (hl : 0 < E.lbaSize) (hle : E.lbaSize ≤ 4096)
    (hfs : fs ≠ 0) (lbaStart : Nat) :
    Triple (ext2Init E fs lbaStart) s (fun ok t => InitCall E.lbaSize fs s ok t)
      fun t => Overrun E.lbaSize fs s t := by
  unfold ext2Init
  rw [if_neg hfs]
  let z : Partition := { Partition.zero with lbaStart := lbaStart }
  have hz := s.putFs_fs fs z
  have hlock : ((s.putFs fs z).fsAt fs).lock = false := by
    rw [hz]
    rfl
  refine Triple.step (a := ()) (t := s.putFs fs z) rfl (Triple.step rfl ?_)
  split
  · exact Triple.pure (InitCall.cleared (.refused hlock (fun _ _ => rfl) rfl fun _ _ => rfl))
  · rename_i hcount
    rcases allocPage_cases (s := s.putFs fs z) E .ioBuf hs with
      ⟨i, hi, hne, -, ha⟩ | ⟨-, ha⟩
    · refine Triple.step ha ?_
      rw [if_neg hne]
      have hlt : (s.putFs fs z).partitionCount < maxPartitions := Nat.lt_of_not_ge hcount
      exact (mountWith_triple (s := s.putFs fs z) hs hl hle hi hlock hlt).mono
        (fun _ _ h => h.cleared) fun _ h => ⟨h.long, h.transfers⟩
    · refine Triple.step ha (Triple.pure (InitCall.cleared (.refused hlock (fun _ _ => rfl) rfl ?_)))
      exact fun site hio => Function.update_of_ne hio ..

/-- A mount that fails leaves the kernel as it found it; one that succeeds
keeps the page of the buffer and the block of the descriptors. Only descriptors
that are more than the heap can hold keep it from returning. -/
theorem mount_leaves_no_trace (hl : E.lbaSize = 512 ∨ E.lbaSize = 1024 ∨ E.lbaSize = 2048 ∨
      E.lbaSize = 4096) (hs : s.pmm.Sound) (hfs : fs ≠ 0) (lbaStart : Nat) :
    ∃ r t, ext2Init E fs lbaStart s = (r, t) ∧
      (r = none → heapSize < sizeofGroupDesc * (t.fsAt fs).layout.groupCount) ∧
      (r ≠ none → (t.fsAt fs).lock = false) ∧
      (r = some false → t.pmm.bitmap = s.pmm.bitmap ∧ Balanced s t ∧
        t.partitionCount = s.partitionCount ∧ t.partitions = s.partitions ∧ t.rootFs = s.rootFs) ∧
      (r = some true → Gained (t.fsAt fs).groups s t ∧
        t.partitionCount = s.partitionCount + 1 ∧ t.partitionCount ≤ 8 ∧
        ∃ i, s.pmm.Free i ∧ (t.fsAt fs).ioBuf = s.pmm.page i ∧
          t.pmm.bitmap = Bitmap.set s.pmm.bitmap i) := by
  have hcall := ext2Init_triple (E := E) hs (by omega) (by omega) hfs lbaStart
  rcases hrun : ext2Init E fs lbaStart s with ⟨_ | ok, t⟩
  · exact ⟨none, t, rfl, fun _ => (hcall.stopped hrun).long, fun h => absurd rfl h, nofun, nofun⟩
  have h := hcall.run hrun
  refine ⟨some ok, t, rfl, nofun, fun _ => h.lock, fun hok => ?_, fun hok => ?_⟩
  · obtain ⟨hpmm, -, hheap, hslots, hcount, hroot⟩ := h.failed (Option.some.inj hok)
    exact ⟨by rw [hpmm], hheap, hcount, hslots, hroot⟩
  · obtain ⟨-, hheap, -, hcount, hmax, i, hi, hpmm, hbuf, -, -⟩ := h.mounted (Option.some.inj hok)
    exact ⟨hheap, hcount, hmax, i, hi, hbuf, by rw [hpmm]; rfl⟩

theorem freshKern_sound (image : Mem) : (freshKern image).pmm.Sound :=
  ⟨by simp only [freshKern]; decide, fun h => absurd h (by simp only [freshKern]; decide)⟩

theorem mount_leaves_no_trace_small :
    ∃ t, ext2Init allOk 1 0 (freshKern (smallImage 5)) = (some true, t) ∧ t.partitionCount = 1 ∧
      ∃ i, (t.fsAt 1).ioBuf = (freshKern (smallImage 5)).pmm.page i := by
  have hrun : (ext2Init allOk 1 0 (freshKern (smallImage 5))).1 = some true := by decide +kernel
  obtain ⟨r, t, ht, -, -, -, hok⟩ := mount_leaves_no_trace (E := allOk) (.inl rfl)
    (freshKern_sound (smallImage 5)) (Nat.succ_ne_zero 0) 0
  rw [ht] at hrun
  obtain rfl : r = some true := hrun
  obtain ⟨-, hcount, -, i, -, hbuf, -⟩ := hok rfl
  exact ⟨t, ht, hcount, i, hbuf⟩

end

end TomatoOs.Fs.Ext2
