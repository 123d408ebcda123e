import TomatoOs.Drivers.Disk
import TomatoOs.Fs.Ext2.MountLaws

/-!
# Where transfers go

Every transfer of a disk that comes up, and of the partitions mounted from it,
goes to a page that is handed out and has room for it, if the functions of
`disk.c` get the pages they ask for and a sector fits into a page. They do not
look, so that nothing less will do.
-/

namespace TomatoOs.Drivers

open Lib Memory Fs.Ext2

-- ---------------------------------------------------------------------------
-- Sessions
-- ---------------------------------------------------------------------------

inductive ReadOp
  | inode (slot ino : Nat)
  | bmap (slot : Nat) (inode : Mem) (fb : Nat)

/-- The partition in the slot, if it was mounted from slot `base` on. -/
def mountedAt (base slot : Nat) : Prog Kern (Option Nat) := fun s =>
  (some (if base ≤ slot ∧ slot < s.partitionCount then some (s.partitions slot) else none), s)

section
variable (E : Env) (base : Nat)

def readOp : ReadOp → Prog Kern Unit
  | .inode slot ino => do
    match ← mountedAt base slot with
    | some fs =>
      let _ ← ext2ReadInode E fs ino fun _ => 0
    | none => return ()
  | .bmap slot inode fb => do
    match ← mountedAt base slot with
    | some fs =>
      let _ ← ext2Bmap E fs inode fb
    | none => return ()

def readOps : List ReadOp → Prog Kern Unit
  | [] => pure ()
  | op :: ops => do
    readOp E base op
    readOps ops

def diskSession (ops : List ReadOp) : Prog Kern Unit := do
  initDisk E
  readOps E base ops

end

-- ---------------------------------------------------------------------------
-- Transfers that fit
-- ---------------------------------------------------------------------------

def Fitting (l : Nat) (s t : Kern) : Prop :=
  ∃ new, t.transfers = s.transfers ++ new ∧ ∀ x ∈ new, Transfer.Fits l x

theorem Fitting.refl (l : Nat) (s : Kern) : Fitting l s s := ⟨[], by simp⟩

theorem Fitting.trans (h : Fitting l s t) (h' : Fitting l t u) : Fitting l s u := by
  obtain ⟨new, htr, hfit⟩ := h
  obtain ⟨new', htr', hfit'⟩ := h'
  refine ⟨new ++ new', by rw [htr', htr, List.append_assoc], fun x hx => ?_⟩
  rcases List.mem_append.mp hx with hx | hx
  · exact hfit x hx
  · exact hfit' x hx

theorem Fitting.of_reads (h : Reads l s t) : Fitting l s t := by
  obtain ⟨_, _, new, rfl, hfit⟩ := h
  exact ⟨new, rfl, hfit⟩

-- ---------------------------------------------------------------------------
-- Pages for buffers
-- ---------------------------------------------------------------------------

section
variable {E : Env} {s t : Kern} {l i base : Nat} {site : PageSite}

theorem allocPage_served (hs : s.pmm.Sound) (hfree : ∃ i, s.pmm.Free i)
    (hok : E.pageOk site (s.pageCalls site) = true) :
    ∃ i, s.pmm.Free i ∧ s.pmm.page i ≠ 0 ∧
      allocPage E site s = (some (s.pmm.page i), s.granted site i) := by
  rcases allocPage_cases E site hs with ⟨i, hi, hne, -, ha⟩ | ⟨hnone, -⟩
  · exact ⟨i, hi, hne, ha⟩
  · obtain ⟨i, hi⟩ := hfree
    exact absurd hi (hnone hok i)

theorem diskRead_page (hne : s.pmm.page i ≠ 0) (hr : Reads E.lbaSize (s.granted site i) t)
    (hlen : len * E.lbaSize ≤ 4096) :
    Triple (diskRead E (s.pmm.page i) lba len) t
      (fun _ u => Reads E.lbaSize (s.granted site i) u) fun _ => False := by
  refine Triple.of_run rfl (hr.trans ⟨_, _, _, rfl, fun x hx => ?_⟩)
  rw [List.mem_singleton.mp hx]
  refine ⟨hne, ?_, hlen⟩
  rw [hr.held]
  exact List.mem_cons_self

theorem freePage_reads (hs : s.pmm.Sound) (hi : s.pmm.Free i) (hr : Reads l (s.granted site i) t) :
    ∃ u, freePage (s.pmm.page i) t = (some (), u) ∧ Reads l (s.asked site) u := by
  obtain ⟨ram, tables, new, rfl, hfit⟩ := hr
  exact ⟨_, freePage_eq hs hi rfl rfl, ram, tables, new, rfl, hfit⟩

theorem selftest_reads (hs : s.pmm.Sound) (hfree : ∃ i, s.pmm.Free i) (hle : E.lbaSize ≤ 4096)
    (hok : E.pageOk .selftest (s.pageCalls .selftest) = true) :
    Triple (diskSelftest E) s (fun _ t => Reads E.lbaSize (s.asked .selftest) t)
      fun _ => False := by
  obtain ⟨i, hi, hne, ha⟩ := allocPage_served hs hfree hok
  refine Triple.step ha (Triple.bind (diskRead_page hne (.refl _ _) (by omega)) ?_)
  intro ok t hr
  obtain ⟨u, hf, hu⟩ := freePage_reads hs hi hr
  exact Triple.step hf (Triple.pure hu)

theorem determineDiskType_reads (hs : s.pmm.Sound) (hfree : ∃ i, s.pmm.Free i)
    (hle : E.lbaSize ≤ 4096) (hok : E.pageOk .diskType (s.pageCalls .diskType) = true) :
    Triple (determineDiskType E) s (fun _ t => Reads E.lbaSize (s.asked .diskType) t)
      fun _ => False := by
  obtain ⟨i, hi, hne, ha⟩ := allocPage_served hs hfree hok
  refine Triple.step ha (Triple.bind (diskRead_page hne (.refl _ _) (by omega)) ?_)
  intro ok t hr
  cases ok with
  | false =>
    obtain ⟨u, hf, hu⟩ := freePage_reads hs hi hr
    exact Triple.step hf (Triple.pure hu)
  | true =>
    refine Triple.step rfl ?_
    split
    · obtain ⟨u, hf, hu⟩ := freePage_reads hs hi hr
      exact Triple.step hf (Triple.pure hu)
    · refine Triple.bind (diskRead_page hne hr (by omega)) ?_
      intro mbrOk v hv
      obtain ⟨u, hf, hu⟩ := freePage_reads hs hi hv
      exact Triple.step rfl (Triple.step hf (Triple.pure hu))

theorem lookForExt2_reads (hs : s.pmm.Sound) (hfree : ∃ i, s.pmm.Free i) (hl : 0 < E.lbaSize)
    (hle : E.lbaSize ≤ 4096) (hok : E.pageOk site (s.pageCalls site) = true) :
    Triple (lookForExt2 E site start) s (fun _ t => Reads E.lbaSize (s.asked site) t)
      fun _ => False := by
  obtain ⟨i, hi, hne, ha⟩ := allocPage_served hs hfree hok
  refine Triple.step ha
    (Triple.bind (diskRead_page hne (.refl _ _) (bytesToBlocks_superblock hl hle)) ?_)
  intro ok t hr
  obtain ⟨u, hf, hu⟩ := freePage_reads hs hi hr
  exact Triple.step rfl (Triple.step hf (Triple.pure hu))

-- ---------------------------------------------------------------------------
-- The partitions that are mounted
-- ---------------------------------------------------------------------------

def Mounted (l base : Nat) (s : Kern) : Prop :=
  ∀ m, base ≤ m → m < s.partitionCount → Ready l (s.partitions m) s

/-- While partitions are looked for. No page that is free or belongs to a mounted
partition is at one of the addresses in `busy`. -/
structure Storage (l base : Nat) (busy : List Nat) (s : Kern) : Prop where
  sound : s.pmm.Sound
  count : base ≤ s.partitionCount
  mounted : Mounted l base s
  older : ∀ m, base ≤ m → m < s.partitionCount → s.partitions m ≤ s.kmallocCalls
  free : ∀ a ∈ busy, ∀ j, s.pmm.Free j → s.pmm.page j ≠ a
  apart : ∀ a ∈ busy, ∀ m, base ≤ m → m < s.partitionCount → (s.fsAt (s.partitions m)).ioBuf ≠ a

theorem Storage.reads (h : Storage l base busy s) (hr : Reads l s t) : Storage l base busy t := by
  obtain ⟨ram, tables, new, rfl, -⟩ := hr
  exact ⟨h.sound, h.count, fun m hm hlt => (h.mounted m hm hlt).congr rfl (List.Subset.refl _),
    h.older, h.free, h.apart⟩

theorem Storage.refused (h : Storage l base busy s) (hcall : InitCall l fs s false t)
    (hold : ∀ m, base ≤ m → m < s.partitionCount →
      t.fsAt (s.partitions m) = s.fsAt (s.partitions m)) : Storage l base busy t := by
  obtain ⟨hpmm, hheld, -, hslots, hcount, -⟩ := hcall.failed rfl
  have hpages : ∀ a ∈ busy, ∀ j, t.pmm.Free j → t.pmm.page j ≠ a := by
    rw [hpmm]
    exact h.free
  refine ⟨hpmm ▸ h.sound, hcount ▸ h.count, ?_, ?_, hpages, ?_⟩
  · intro m hm hlt
    rw [hcount] at hlt
    rw [hslots]
    exact (h.mounted m hm hlt).congr (hold m hm hlt) (hheld ▸ List.Subset.refl _)
  · intro m hm hlt
    rw [hcount] at hlt
    rw [hslots]
    exact Nat.le_trans (h.older m hm hlt) hcall.kmallocCalls
  · intro a ha m hm hlt
    rw [hcount] at hlt
    rw [hslots, hold m hm hlt]
    exact h.apart a ha m hm hlt

theorem Storage.mounts (h : Storage l base busy s) (hcall : InitCall l fs s true t)
    (hold : ∀ m, base ≤ m → m < s.partitionCount →
      t.fsAt (s.partitions m) = s.fsAt (s.partitions m))
    (hfs : fs ≤ s.kmallocCalls) : Storage l base busy t := by
  obtain ⟨hready, -, hslots, hcount, -, i, hi, hpmm, hbuf, hheld, -⟩ := hcall.mounted rfl
  have hpages : ∀ a ∈ busy, ∀ j, t.pmm.Free j → t.pmm.page j ≠ a := by
    rw [hpmm]
    exact fun a ha j hj => h.free a ha j (Pmm.free_take_iff.mp hj).1
  -- a slot of `t` is the new one, or it was there before
  have hslot : ∀ m, base ≤ m → m < t.partitionCount →
      t.partitions m = fs ∨ m < s.partitionCount ∧ t.partitions m = s.partitions m := by
    intro m hm hlt
    rw [hslots]
    rcases Nat.eq_or_lt_of_le (show m ≤ s.partitionCount by omega) with rfl | hlt
    · exact .inl (Function.update_self ..)
    · exact .inr ⟨hlt, Function.update_of_ne (Nat.ne_of_lt hlt) ..⟩
  refine ⟨hpmm ▸ h.sound.take i, ?_, ?_, ?_, hpages, ?_⟩
  · have := h.count
    omega
  · intro m hm hlt
    rcases hslot m hm hlt with he | ⟨hlt, he⟩
    · rw [he]
      exact hready
    · rw [he]
      exact (h.mounted m hm hlt).congr (hold m hm hlt) (hheld ▸ List.subset_cons_self ..)
  · intro m hm hlt
    rcases hslot m hm hlt with he | ⟨hlt, he⟩
    · rw [he]
      exact Nat.le_trans hfs hcall.kmallocCalls
    · rw [he]
      exact Nat.le_trans (h.older m hm hlt) hcall.kmallocCalls
  · intro a ha m hm hlt
    rcases hslot m hm hlt with he | ⟨hlt, he⟩
    · rw [he, hbuf]
      exact h.free a ha i hi
    · rw [he, hold m hm hlt]
      exact h.apart a ha m hm hlt

theorem Storage.init (h : Storage l base busy s) (hcall : InitCall l fs s ok t)
    (hnew : ∀ m, base ≤ m → m < s.partitionCount → s.partitions m < fs)
    (hfs : fs ≤ s.kmallocCalls) : Storage l base busy t := by
  have hold : ∀ m, base ≤ m → m < s.partitionCount →
      t.fsAt (s.partitions m) = s.fsAt (s.partitions m) := fun m hm hlt =>
    hcall.others _ (Nat.ne_of_lt (hnew m hm hlt))
  cases ok with
  | false => exact h.refused hcall hold
  | true => exact h.mounts hcall hold hfs

structure Scanning (l base : Nat) (busy : List Nat) (s₀ s : Kern) : Prop where
  storage : Storage l base busy s
  spare : ∃ j, s.pmm.Free j
  fitting : Fitting l s₀ s

theorem Scanning.reads (h : Scanning l base busy s₀ s) (hr : Reads l s t) :
    Scanning l base busy s₀ t := by
  refine ⟨h.storage.reads hr, ?_, h.fitting.trans (.of_reads hr)⟩
  obtain ⟨ram, tables, new, rfl, -⟩ := hr
  exact h.spare

theorem Scanning.records (h : Scanning l base busy s₀ s) (hn : s.kmallocCalls ≤ n)
    (calls : PageSite → Nat) (mallocs : List HeapBlock) (frees starts : List Nat) :
    Scanning l base busy s₀ { s with
      pageCalls := calls, kmallocCalls := n, mallocs := mallocs, frees := frees
      linuxCalls := starts } := by
  refine ⟨⟨h.storage.sound, h.storage.count, fun m hm hlt => ?_, fun m hm hlt => ?_,
    h.storage.free, h.storage.apart⟩, h.spare, h.fitting⟩
  · exact (h.storage.mounted m hm hlt).congr rfl (List.Subset.refl _)
  · exact Nat.le_trans (h.storage.older m hm hlt) hn

theorem Scanning.asked (h : Scanning l base busy s₀ s) (site : PageSite) :
    Scanning l base busy s₀ (s.asked site) :=
  h.records (Nat.le_refl _) _ _ _ _

theorem mountOrFree_triple (h : Scanning E.lbaSize base busy s₀ s) (hl : 0 < E.lbaSize)
    (hle : E.lbaSize ≤ 4096)
    (hnew : fs ≠ 0 → (∀ m, base ≤ m → m < s.partitionCount → s.partitions m < fs) ∧
      fs ≤ s.kmallocCalls) :
    Triple (mountOrFree E fs start) s
      (fun _ t => Scanning E.lbaSize base busy s₀ t ∧
        t.pageCalls .mbrLinux = s.pageCalls .mbrLinux)
      fun t => Fitting E.lbaSize s₀ t := by
  rcases Nat.eq_zero_or_pos fs with rfl | hpos
  · exact Triple.of_stop rfl h.fitting
  · have hne := Nat.ne_of_gt hpos
    obtain ⟨hnew, hfs⟩ := hnew hne
    refine Triple.bind ((ext2Init_triple h.storage.sound hl hle hne start).mono (fun _ _ hc => hc)
      fun _ ho => h.fitting.trans ho.transfers) ?_
    intro ok t hc
    have hsites : t.pageCalls .mbrLinux = s.pageCalls .mbrLinux :=
      hc.sites .mbrLinux (by decide) (by decide)
    have hst := h.storage.init hc hnew hfs
    have hfit : Fitting E.lbaSize s₀ t := h.fitting.trans hc.transfers
    cases ok with
    | true =>
      obtain ⟨-, -, -, -, -, -, -, -, -, -, hspare⟩ := hc.mounted rfl
      exact Triple.pure ⟨⟨hst, hspare, hfit⟩, hsites⟩
    | false =>
      have hspare : ∃ j, t.pmm.Free j := by
        rw [(hc.failed rfl).1]
        exact h.spare
      refine Triple.of_run (a := ()) rfl ⟨?_, hsites⟩
      exact Scanning.records ⟨hst, hspare, hfit⟩ (Nat.le_refl _) _ _ _ _

theorem Scanning.kmalloc (h : Scanning l base busy s₀ s) (size : Nat) :
    ∃ g t, kmalloc E size s = (some g, t) ∧ Scanning l base busy s₀ t ∧
      t.pageCalls = s.pageCalls ∧ (g ≠ 0 → (∀ m, base ≤ m → m < t.partitionCount →
        t.partitions m < g) ∧ g ≤ t.kmallocCalls) := by
  unfold Fs.Ext2.kmalloc
  cases E.grants s.kmallocCalls size with
  | false =>
    exact ⟨0, _, rfl, h.records (Nat.le_succ _) _ _ _ _, rfl, fun hne => absurd rfl hne⟩
  | true =>
    refine ⟨_, _, rfl, h.records (Nat.le_succ _) _ _ _ _, rfl,
      fun _ => ⟨fun m hm hlt => ?_, Nat.le_refl _⟩⟩
    exact Nat.lt_succ_of_le (h.storage.older m hm hlt)

-- ---------------------------------------------------------------------------
-- The functions of `disk.c`
-- ---------------------------------------------------------------------------

theorem diskTryLinux_triple (h : Scanning E.lbaSize base busy s₀ s) (hl : 0 < E.lbaSize)
    (hle : E.lbaSize ≤ 4096) (hok : E.pageOk .tryLinux (s.pageCalls .tryLinux) = true) :
    Triple (diskTryLinux E) s (fun _ t => Scanning E.lbaSize base busy s₀ t)
      fun t => Fitting E.lbaSize s₀ t := by
  refine Triple.bind (lookForExt2_reads h.storage.sound h.spare hl hle hok).total ?_
  intro found t hr
  have ht := (h.asked .tryLinux).reads hr
  split
  · obtain ⟨g, u, hk, hu, -, hnew⟩ := ht.kmalloc (E := E) sizeofPartition
    refine Triple.step hk ?_
    split
    · exact Triple.pure hu
    · exact Triple.bind (mountOrFree_triple hu hl hle hnew) fun _ _ hv => Triple.pure hv.1
  · exact Triple.pure ht

theorem diskDoMbrLinux_triple (h : Scanning E.lbaSize base busy s₀ s) (hl : 0 < E.lbaSize)
    (hle : E.lbaSize ≤ 4096) (hok : E.pageOk .mbrLinux (s.pageCalls .mbrLinux) = true) :
    Triple (diskDoMbrLinux E start) s
      (fun _ t => Scanning E.lbaSize base busy s₀ t ∧
        t.pageCalls .mbrLinux = s.pageCalls .mbrLinux + 1)
      fun t => Fitting E.lbaSize s₀ t := by
  have h₁ := h.records (Nat.le_refl _) s.pageCalls s.mallocs s.frees (s.linuxCalls ++ [start])
  refine Triple.step rfl
    (Triple.bind (lookForExt2_reads h₁.storage.sound h₁.spare hl hle hok).total ?_)
  intro found t hr
  have ht := (h₁.asked .mbrLinux).reads hr
  have hcalls : t.pageCalls .mbrLinux = s.pageCalls .mbrLinux + 1 := by
    rw [hr.pageCalls]
    exact Function.update_self PageSite.mbrLinux _ s.pageCalls
  split
  · obtain ⟨g, u, hk, hu, hsame, hnew⟩ := ht.kmalloc (E := E) sizeofPartition
    refine Triple.step hk (Triple.bind (mountOrFree_triple hu hl hle hnew) ?_)
    rintro - v ⟨hv, hcalls'⟩
    exact Triple.pure ⟨hv, by rw [hcalls', hsame, hcalls]⟩
  · exact Triple.pure ⟨ht, hcalls⟩

theorem mbrLoop_triple (h : Scanning E.lbaSize base busy s₀ s) (hl : 0 < E.lbaSize)
    (hle : E.lbaSize ≤ 4096) (n i : Nat)
    (hok : ∀ k < n, E.pageOk .mbrLinux (s.pageCalls .mbrLinux + k) = true) :
    Triple (mbrLoop E phys n i) s (fun _ t => Scanning E.lbaSize base busy s₀ t)
      fun t => Fitting E.lbaSize s₀ t := by
  induction n generalizing s i with
  | zero => exact Triple.pure h
  | succ n ih =>
    refine Triple.step rfl ?_
    unfold Prog.when
    split
    · refine Triple.bind (Q := fun _ t => Scanning E.lbaSize base busy s₀ t ∧
        t.pageCalls .mbrLinux = s.pageCalls .mbrLinux + 1) ?_ ?_
      · exact Triple.bind (diskDoMbrLinux_triple h hl hle (hok 0 (by omega))) fun _ _ ht =>
          Triple.pure ht
      · rintro - t ⟨ht, hcalls⟩
        refine ih ht (i + 1) fun k hk => ?_
        rw [hcalls, Nat.add_assoc, Nat.add_comm 1 k]
        exact hok (k + 1) (by omega)
    · exact Triple.step rfl (ih h (i + 1) fun k hk => hok k (by omega))

structure Done (l base : Nat) (s₀ s : Kern) : Prop where
  mounted : Mounted l base s
  fitting : Fitting l s₀ s

theorem Scanning.done (h : Scanning l base busy s₀ s) : Done l base s₀ s :=
  ⟨h.storage.mounted, h.fitting⟩

/-- The loop over the table of a GPT is empty. -/
theorem diskGpt_triple (h : Scanning E.lbaSize base [] s₀ s) (hle : E.lbaSize ≤ 4096)
    (hok : E.pageOk .gpt (s.pageCalls .gpt) = true) :
    Triple (diskGpt E) s (fun _ t => Done E.lbaSize base s₀ t) fun t => Fitting E.lbaSize s₀ t := by
  obtain ⟨i, hi, hne, ha⟩ := allocPage_served h.storage.sound h.spare hok
  refine Triple.step ha (Triple.bind (diskRead_page hne (.refl _ _) (by omega)).total ?_)
  intro ok t hr
  obtain ⟨u, hf, hu⟩ := freePage_reads h.storage.sound hi hr
  exact Triple.step rfl (Triple.of_run hf ((h.asked .gpt).reads hu).done)

theorem diskMbr_triple (h : Scanning E.lbaSize base [] s₀ s) (hcount : s.partitionCount = base)
    (htwo : ∃ i j, i ≠ j ∧ s.pmm.Free i ∧ s.pmm.Free j) (hl : 0 < E.lbaSize)
    (hle : E.lbaSize ≤ 4096) (hok : E.pageOk .mbr (s.pageCalls .mbr) = true)
    (hoks : ∀ k < 4, E.pageOk .mbrLinux (s.pageCalls .mbrLinux + k) = true) :
    Triple (diskMbr E) s (fun _ t => Done E.lbaSize base s₀ t) fun t => Fitting E.lbaSize s₀ t := by
  obtain ⟨i, hi, hne, ha⟩ := allocPage_served h.storage.sound h.spare hok
  have hnone : ∀ m, base ≤ m → m < s.partitionCount → False := by omega
  have hspare : ∃ j, (s.pmm.take i).Free j := by
    obtain ⟨a, b, hab, hfa, hfb⟩ := htwo
    by_cases hia : i = a
    · exact ⟨b, Pmm.free_take_iff.mpr ⟨hfb, hia ▸ hab⟩⟩
    · exact ⟨a, Pmm.free_take_iff.mpr ⟨hfa, hia⟩⟩
  have hg : Scanning E.lbaSize base [s.pmm.page i] s₀ (s.granted .mbr i) := by
    refine ⟨⟨h.storage.sound.take i, h.storage.count, fun m hm hlt => (hnone m hm hlt).elim,
      h.storage.older, fun a hmem j hj => ?_, fun a _ m hm hlt => (hnone m hm hlt).elim⟩, hspare,
      h.fitting⟩
    rw [List.mem_singleton.mp hmem]
    exact fun he => (Pmm.free_take_iff.mp hj).2 (Pmm.page_injective he).symm
  refine Triple.step ha (Triple.bind (diskRead_page hne (.refl _ _) (by omega)).total ?_)
  intro ok t hr
  have hcalls : t.pageCalls .mbrLinux = s.pageCalls .mbrLinux := by
    rw [hr.pageCalls]
    exact s.asked_other (show PageSite.mbrLinux ≠ .mbr by decide)
  refine Triple.bind (mbrLoop_triple (hg.reads hr) hl hle 4 0 (by rwa [hcalls])) ?_
  intro _ u hu
  refine Triple.of_run (a := ()) rfl ⟨fun m hm hlt => ?_, hu.fitting⟩
  -- the buffers of the partitions are not the page that is given back
  obtain ⟨hv, hp, hh, hlock⟩ := hu.storage.mounted m hm hlt
  exact ⟨hv, hp, (List.mem_erase_of_ne (hu.storage.apart _ (List.mem_singleton_self _) m hm hlt)).mpr hh,
    hlock⟩

/-- The pages that the functions of `disk.c` ask for without looking at the
answer are served. -/
structure ProbesServed (page : PageSite → Nat → Bool) (calls : PageSite → Nat) : Prop where
  selftest : page .selftest (calls .selftest) = true
  diskType : page .diskType (calls .diskType) = true
  tryLinux : page .tryLinux (calls .tryLinux) = true
  gpt : page .gpt (calls .gpt) = true
  mbr : page .mbr (calls .mbr) = true
  mbrLinux : ∀ k < 4, page .mbrLinux (calls .mbrLinux + k) = true

theorem initDisk_triple (hs : s.pmm.Sound) (hl : 0 < E.lbaSize) (hle : E.lbaSize ≤ 4096)
    (htwo : ∃ i j, i ≠ j ∧ s.pmm.Free i ∧ s.pmm.Free j)
    (hserved : ProbesServed E.pageOk s.pageCalls) :
    Triple (initDisk E) s (fun _ t => Done E.lbaSize s.partitionCount s t)
      fun t => Fitting E.lbaSize s t := by
  have hspare : ∃ i, s.pmm.Free i := by
    obtain ⟨i, -, -, hi, -⟩ := htwo
    exact ⟨i, hi⟩
  have hstart : Scanning E.lbaSize s.partitionCount [] s s :=
    ⟨⟨hs, Nat.le_refl _, fun m hm hlt => absurd hlt (Nat.not_lt.mpr hm),
      fun m hm hlt => absurd hlt (Nat.not_lt.mpr hm), fun _ ha => absurd ha List.not_mem_nil,
      fun _ ha => absurd ha List.not_mem_nil⟩, hspare, .refl _ _⟩
  refine Triple.bind (selftest_reads hs hspare hle hserved.selftest).total ?_
  intro ok t hr
  have ht := (hstart.asked .selftest).reads hr
  have hpmm : t.pmm = s.pmm := hr.pmm
  have hcalls : ∀ site, site ≠ .selftest → t.pageCalls site = s.pageCalls site := by
    intro site hne
    rw [hr.pageCalls]
    exact s.asked_other hne
  cases ok with
  | false => exact Triple.pure ht.done
  | true =>
    have hok : E.pageOk .diskType (t.pageCalls .diskType) = true := by
      rw [hcalls .diskType (by decide)]
      exact hserved.diskType
    refine Triple.bind (determineDiskType_reads ht.storage.sound ht.spare hle hok).total ?_
    intro style u hr'
    have hu := (ht.asked .diskType).reads hr'
    have hpmm' : u.pmm = s.pmm := hr'.pmm.trans hpmm
    have hcount : u.partitionCount = s.partitionCount := hr'.partitionCount.trans hr.partitionCount
    have hcalls' : ∀ site, site ≠ .selftest → site ≠ .diskType →
        u.pageCalls site = s.pageCalls site := by
      intro site hne hne'
      rw [hr'.pageCalls, t.asked_other hne', hcalls site hne]
    have htry : Triple (do let _ ← diskTryLinux E) u
        (fun _ v => Done E.lbaSize s.partitionCount s v) fun v => Fitting E.lbaSize s v := by
      refine Triple.bind (diskTryLinux_triple hu hl hle ?_) fun _ _ hv => Triple.pure hv.done
      rw [hcalls' .tryLinux (by decide) (by decide)]
      exact hserved.tryLinux
    cases style with
    | mbr =>
      refine diskMbr_triple hu hcount ?_ hl hle ?_ ?_
      · rw [hpmm']
        exact htwo
      · rw [hcalls' .mbr (by decide) (by decide)]
        exact hserved.mbr
      · rw [hcalls' .mbrLinux (by decide) (by decide)]
        exact hserved.mbrLinux
    | gpt =>
      refine diskGpt_triple hu hle ?_
      rw [hcalls' .gpt (by decide) (by decide)]
      exact hserved.gpt
    | err => exact htry
    | raw => exact htry

-- ---------------------------------------------------------------------------
-- Reads of what was mounted
-- ---------------------------------------------------------------------------

theorem Mounted.reads (h : Mounted l base s) (hr : Reads l s t) : Mounted l base t := by
  intro m hm hlt
  rw [hr.partitionCount] at hlt
  rw [hr.partitions]
  exact (h m hm hlt).reads hr

theorem readOp_reads (h : Mounted E.lbaSize base s) (op : ReadOp) :
    Triple (readOp E base op) s (fun _ t => Reads E.lbaSize s t) fun _ => False := by
  cases op with
  | inode slot ino =>
    refine Triple.step rfl ?_
    by_cases hslot : base ≤ slot ∧ slot < s.partitionCount
    · rw [if_pos hslot]
      exact Triple.bind (readInode_reads (h slot hslot.1 hslot.2)) fun _ _ hr => Triple.pure hr
    · rw [if_neg hslot]
      exact Triple.pure (.refl _ _)
  | bmap slot inode fb =>
    refine Triple.step rfl ?_
    by_cases hslot : base ≤ slot ∧ slot < s.partitionCount
    · rw [if_pos hslot]
      exact Triple.bind (bmap_reads (h slot hslot.1 hslot.2)) fun _ _ hr => Triple.pure hr
    · rw [if_neg hslot]
      exact Triple.pure (.refl _ _)

theorem readOps_reads (h : Mounted E.lbaSize base s) (ops : List ReadOp) :
    Triple (readOps E base ops) s (fun _ t => Reads E.lbaSize s t) fun _ => False := by
  induction ops generalizing s with
  | nil => exact Triple.pure (.refl _ _)
  | cons op ops ih =>
    refine Triple.bind (readOp_reads h op) fun _ t hr => ?_
    exact (ih (h.reads hr)).mono (fun _ _ hu => hr.trans hu) fun _ hf => hf

theorem diskSession_fitting (hs : s.pmm.Sound) (hl : 0 < E.lbaSize) (hle : E.lbaSize ≤ 4096)
    (htwo : ∃ i j, i ≠ j ∧ s.pmm.Free i ∧ s.pmm.Free j)
    (hserved : ProbesServed E.pageOk s.pageCalls) (ops : List ReadOp) :
    Fitting E.lbaSize s (diskSession E s.partitionCount ops s).2 := by
  have h : Triple (diskSession E s.partitionCount ops) s (fun _ t => Fitting E.lbaSize s t)
      fun t => Fitting E.lbaSize s t := by
    refine Triple.bind (initDisk_triple hs hl hle htwo hserved) fun _ t ht => ?_
    exact (readOps_reads ht.mounted ops).mono
      (fun _ _ hr => ht.fitting.trans (.of_reads hr)) fun _ hf => hf.elim
  exact h.final

-- ---------------------------------------------------------------------------
-- Pages that were not handed out
-- ---------------------------------------------------------------------------

def buffered (s : Kern) (site : PageSite) (p : Pmm) (held : List Nat) (ram : Mem)
    (xs : List Transfer) : Kern :=
  { s.asked site with pmm := p, held := held, ram := ram, transfers := s.transfers ++ xs }

def sectorRam (E : Env) (s : Kern) (a lba : Nat) (ram : Mem) : Mem :=
  ram.paste a (s.diskByte E.lbaSize lba) 0 (1 * E.lbaSize)

/-- The calls of one function for one page, its transfers `xs` into that page
and the return of the page, whether or not the page was handed out. -/
structure Probed (E : Env) (site : PageSite) (s : Kern) (xs : List Transfer) (t : Kern) : Prop where
  transfers : t.transfers = s.transfers ++ xs
  calls : t.pageCalls = (s.asked site).pageCalls
  sectors : t.sectors = s.sectors
  served : s.pmm.Sound → (∀ x ∈ xs, Transfer.Fits E.lbaSize x) →
    E.pageOk site (s.pageCalls site) = true ∧ (∃ i, s.pmm.Free i) ∧ t.pmm = s.pmm

theorem allocPage_buffered (E : Env) (site : PageSite) (s : Kern) :
    ∃ a p h, allocPage E site s = (some a, buffered s site p h s.ram []) := by
  obtain ⟨a, p, h, ha, -⟩ := allocPage_eq E site s
  refine ⟨a, p, h, ?_⟩
  rw [ha, buffered, List.append_nil]
  rfl

theorem getRam_buffered :
    getRam (buffered s site p h ram xs) = (some ram, buffered s site p h ram xs) := rfl

theorem freePage_run (a : Nat) (s : Kern) : freePage a s = (some (), (freePage a s).2) := rfl

theorem buffered_length :
    (buffered s site p h ram xs).transfers.length = s.transfers.length + xs.length :=
  List.length_append

theorem diskRead_failed (hfail : E.readOk (s.transfers.length + xs.length) = false) :
    diskRead E a lba len (buffered s site p h ram xs) =
      (some false, buffered s site p h ram (xs ++ [⟨a, lba, len, h⟩])) := by
  simp only [diskRead, buffered_length, hfail, Bool.false_eq_true, if_false]
  simp only [buffered, List.append_assoc]

theorem diskRead_done (hdone : E.readOk (s.transfers.length + xs.length) = true) :
    diskRead E a lba 1 (buffered s site p h ram xs) =
      (some true, buffered s site p h (sectorRam E s a lba ram) (xs ++ [⟨a, lba, 1, h⟩])) := by
  simp only [diskRead, buffered_length, hdone, if_true]
  simp only [buffered, List.append_assoc]
  rfl

theorem buffered_served (ha : allocPage E site s = (some a, buffered s site p h ram []))
    (hs : s.pmm.Sound) (hx : Transfer.Fits E.lbaSize ⟨a, lba, len, h'⟩) :
    E.pageOk site (s.pageCalls site) = true ∧
      ∃ i, s.pmm.Free i ∧ a = s.pmm.page i ∧ p = s.pmm.take i := by
  rcases allocPage_cases E site hs with ⟨i, hi, -, hok, hal⟩ | ⟨-, hal⟩
  · have heq := Prod.mk.inj (ha.symm.trans hal)
    exact ⟨hok, i, hi, Option.some.inj heq.1, congrArg Kern.pmm heq.2⟩
  · have heq := congrArg Prod.fst (ha.symm.trans hal)
    exact absurd (Option.some.inj heq) hx.page

theorem probed_of (ha : allocPage E site s = (some a, buffered s site p h ram []))
    (hx : ⟨a, lba, len, h⟩ ∈ xs) (ram' : Mem) :
    Probed E site s xs (freePage a (buffered s site p h ram' xs)).2 := by
  refine ⟨rfl, rfl, rfl, fun hs hfit => ?_⟩
  obtain ⟨hok, i, hi, rfl, rfl⟩ := buffered_served ha hs (hfit _ hx)
  exact ⟨hok, ⟨i, hi⟩, pmmFree_take hs hi⟩

theorem diskSelftest_probed (h : E.readOk s.transfers.length = ok) :
    ∃ x t, x.len = 1 ∧ diskSelftest E s = (some ok, t) ∧ Probed E .selftest s [x] t := by
  obtain ⟨a, p, held, ha⟩ := allocPage_buffered E .selftest s
  unfold diskSelftest
  cases ok with
  | false =>
    refine ⟨⟨a, 0, 1, held⟩, _, rfl, ?_, probed_of ha (List.mem_singleton_self _) s.ram⟩
    rw [Prog.bind_eq ha, Prog.bind_eq (diskRead_failed h)]
    rfl
  | true =>
    refine ⟨⟨a, 0, 1, held⟩, _, rfl, ?_,
      probed_of ha (List.mem_singleton_self _) (sectorRam E s a 0 s.ram)⟩
    rw [Prog.bind_eq ha, Prog.bind_eq (diskRead_done h)]
    rfl

theorem lookForExt2_probed (site : PageSite) (start : Nat)
    (hfail : E.readOk s.transfers.length = false) :
    ∃ x t, lookForExt2 E site start s = (some none, t) ∧ Probed E site s [x] t ∧
      t.ram = s.ram := by
  obtain ⟨a, p, held, ha⟩ := allocPage_buffered E site s
  let b := bytesToBlocks 1024 1024 E.lbaSize
  refine ⟨⟨a, wadd 64 start b.lba, b.sizeInBlocks, held⟩, _, ?_,
    probed_of ha (List.mem_singleton_self _) s.ram, rfl⟩
  unfold lookForExt2
  rw [Prog.bind_eq ha, Prog.bind_eq (diskRead_failed hfail)]
  rfl

theorem memcmpEq_congr {m m' : Mem} {a b : Nat} (h : ∀ i < bytes.length, m (a + i) = m' (b + i)) :
    memcmpEq m a bytes = memcmpEq m' b bytes := by
  induction bytes generalizing a b with
  | nil => rfl
  | cons byte bytes ih =>
    have h0 : m a = m' b := h 0 (Nat.succ_pos _)
    have hrest : memcmpEq m (a + 1) bytes = memcmpEq m' (b + 1) bytes := by
      apply ih
      intro i hi
      have := h (i + 1) (Nat.succ_lt_succ hi)
      rwa [Nat.add_assoc, Nat.add_comm 1 i, Nat.add_assoc b, Nat.add_comm 1 i]
    rw [memcmpEq, memcmpEq, h0, hrest]

theorem diskByte_lt (s : Kern) (hlba : lba < 2 ^ 64) (hi : i < l) :
    s.diskByte l lba i = s.sectors lba i := by
  rw [Kern.diskByte, Nat.div_eq_of_lt hi, Nat.mod_eq_of_lt hi, Nat.add_zero, Nat.mod_eq_of_lt hlba]

theorem sector_read (m : Mem) (a : Nat) (hlba : lba < 2 ^ 64) (hi : i < E.lbaSize) :
    sectorRam E s a lba m (a + i) = s.sectors lba i := by
  rw [sectorRam, Mem.paste_inside _ _ _ _ (by omega), Nat.zero_add, diskByte_lt s hlba hi]

theorem gptSector_read (m : Mem) (a : Nat) (hl : 512 ≤ E.lbaSize) :
    memcmpEq (sectorRam E s a 1 m) a gptSignature =
      memcmpEq (s.sectors 1) 0 gptSignature := by
  refine memcmpEq_congr fun i hi => ?_
  have hi8 : i < 8 := hi
  rw [sector_read _ _ (by decide) (by omega), Nat.zero_add]

theorem determineDiskType_failed (hfail : E.readOk s.transfers.length = false) :
    ∃ x t, determineDiskType E s = (some .err, t) ∧ Probed E .diskType s [x] t := by
  obtain ⟨a, p, held, ha⟩ := allocPage_buffered E .diskType s
  refine ⟨⟨a, 1, 1, held⟩, _, ?_, probed_of ha (List.mem_singleton_self _) s.ram⟩
  unfold determineDiskType
  rw [Prog.bind_eq ha, Prog.bind_eq (diskRead_failed hfail)]
  rfl

theorem determineDiskType_gpt (hl : 512 ≤ E.lbaSize) (hread : E.readOk s.transfers.length = true)
    (hgpt : memcmpEq (s.sectors 1) 0 gptSignature = true) :
    ∃ x t, determineDiskType E s = (some .gpt, t) ∧ Probed E .diskType s [x] t := by
  obtain ⟨a, p, held, ha⟩ := allocPage_buffered E .diskType s
  refine ⟨⟨a, 1, 1, held⟩, _, ?_, probed_of ha (List.mem_singleton_self _) (sectorRam E s a 1 s.ram)⟩
  unfold determineDiskType
  rw [Prog.bind_eq ha, Prog.bind_eq (diskRead_done hread), if_pos rfl, Prog.bind_eq (getRam_buffered),
    if_pos ((gptSector_read _ _ hl).trans hgpt)]
  rfl

theorem determineDiskType_mbr (hl : 512 ≤ E.lbaSize) (hread : E.readOk s.transfers.length = true)
    (hread' : E.readOk (s.transfers.length + 1) = true)
    (hgpt : memcmpEq (s.sectors 1) 0 gptSignature = false)
    (h510 : s.sectors 0 510 = 0x55) (h511 : s.sectors 0 511 = 0xAA) :
    ∃ xs t, xs.length = 2 ∧ determineDiskType E s = (some .mbr, t) ∧
      Probed E .diskType s xs t := by
  obtain ⟨a, p, held, ha⟩ := allocPage_buffered E .diskType s
  have hnot : ¬memcmpEq (sectorRam E s a 1 s.ram) a gptSignature = true := by
    rw [gptSector_read _ _ hl, hgpt]
    exact Bool.false_ne_true
  refine ⟨[⟨a, 1, 1, held⟩, ⟨a, 0, 1, held⟩], _, rfl, ?_,
    probed_of ha List.mem_cons_self (sectorRam E s a 0 (sectorRam E s a 1 s.ram))⟩
  unfold determineDiskType
  rw [Prog.bind_eq ha, Prog.bind_eq (diskRead_done hread), if_pos rfl, Prog.bind_eq (getRam_buffered),
    if_neg hnot, Prog.bind_eq (diskRead_done hread'), Prog.bind_eq (getRam_buffered),
    Prog.bind_eq (freePage_run a _), if_pos]
  · rfl
  · refine ⟨rfl, ?_, ?_⟩
    · exact (sector_read _ _ (by decide) (by omega)).trans h510
    · exact (sector_read _ _ (by decide) (by omega)).trans h511

theorem Probed.other (h : Probed E site s xs t) (hne : site' ≠ site) :
    t.pageCalls site' = s.pageCalls site' := by
  rw [h.calls]
  exact s.asked_other hne

theorem Probed.length (h : Probed E site s xs t) :
    t.transfers.length = s.transfers.length + xs.length := by
  rw [h.transfers, List.length_append]

theorem mbrLoop_failed (hfail : ∀ k, s.transfers.length ≤ k → E.readOk k = false) (n i : Nat)
    (htype : ∀ j, i ≤ j → j < i + n → mbrType s.ram phys j = 0x83) :
    ∃ xs t, mbrLoop E phys n i s = (some (), t) ∧ t.transfers = s.transfers ++ xs ∧
      (s.pmm.Sound → (∀ x ∈ xs, Transfer.Fits E.lbaSize x) →
        (∀ k < n, E.pageOk .mbrLinux (s.pageCalls .mbrLinux + k) = true) ∧
          (0 < n → ∃ j, s.pmm.Free j)) := by
  induction n generalizing s i with
  | zero =>
    exact ⟨[], s, rfl, by simp, fun _ _ =>
      ⟨fun k hk => absurd hk (Nat.not_lt_zero k), fun h => absurd h (Nat.lt_irrefl 0)⟩⟩
  | succ n ih =>
    let start := mbrStart s.ram phys i
    let s₁ : Kern := { s with linuxCalls := s.linuxCalls ++ [start] }
    obtain ⟨x, t, hrun, hp, hram⟩ :=
      lookForExt2_probed (s := s₁) .mbrLinux start (hfail _ (Nat.le_refl _))
    have hlen : t.transfers.length = s.transfers.length + 1 := hp.length
    obtain ⟨xs, u, hloop, htr, hserved⟩ := ih (s := t) (fun k hk => hfail k (by omega)) (i + 1)
      (fun j hj hlt => by
        rw [hram]
        exact htype j (by omega) (by omega))
    have hcall : diskDoMbrLinux E start s = (some false, t) := by
      unfold diskDoMbrLinux
      rw [Prog.bind_eq (show recordLinuxCall start s = (some (), s₁) from rfl), Prog.bind_eq hrun]
      rfl
    have hbody : (do let _ ← diskDoMbrLinux E start : Prog Kern Unit) s = (some (), t) :=
      Prog.bind_eq hcall
    refine ⟨x :: xs, u, ?_, ?_, fun hs hfit => ?_⟩
    · rw [mbrLoop, Prog.bind_eq (show getRam s = (some s.ram, s) from rfl), Prog.when,
        if_pos (decide_eq_true (htype i (Nat.le_refl i) (by omega))), Prog.bind_eq hbody, hloop]
    · rw [htr, hp.transfers, List.append_assoc]
      rfl
    · obtain ⟨hok, hfree, hpmm⟩ := hp.served hs fun y hy => hfit y (by
        rw [List.mem_singleton.mp hy]
        exact List.mem_cons_self)
      have ht : t.pmm.Sound := by
        rw [hpmm]
        exact hs
      obtain ⟨hoks, -⟩ := hserved ht fun y hy => hfit y (List.mem_cons_of_mem _ hy)
      have hcalls : t.pageCalls .mbrLinux = s.pageCalls .mbrLinux + 1 := by
        rw [hp.calls]
        exact Function.update_self PageSite.mbrLinux _ s.pageCalls
      refine ⟨fun k hk => ?_, fun _ => hfree⟩
      cases k with
      | zero => exact hok
      | succ k =>
        have := hoks k (by omega)
        rwa [hcalls, Nat.add_assoc, Nat.add_comm 1 k] at this

theorem diskTryLinux_failed (hfail : E.readOk s.transfers.length = false) :
    ∃ x t, diskTryLinux E s = (some false, t) ∧ Probed E .tryLinux s [x] t := by
  obtain ⟨x, t, hrun, hp, -⟩ := lookForExt2_probed (s := s) .tryLinux 0 hfail
  refine ⟨x, t, ?_, hp⟩
  unfold diskTryLinux
  rw [Prog.bind_eq hrun]
  rfl

theorem diskGpt_failed (hfail : E.readOk s.transfers.length = false) :
    ∃ x t, diskGpt E s = (some (), t) ∧ Probed E .gpt s [x] t := by
  obtain ⟨a, p, held, ha⟩ := allocPage_buffered E .gpt s
  refine ⟨⟨a, 1, 1, held⟩, _, ?_, probed_of ha (List.mem_singleton_self _) s.ram⟩
  unfold diskGpt
  rw [Prog.bind_eq ha, Prog.bind_eq (diskRead_failed hfail)]
  rfl

theorem diskMbr_failed (hl : 512 ≤ E.lbaSize) (hread : E.readOk s.transfers.length = true)
    (hfail : ∀ k, s.transfers.length < k → E.readOk k = false)
    (htype : ∀ j < 4, s.sectors 0 (446 + 16 * j + 4) = 0x83) :
    ∃ xs t, diskMbr E s = (some (), t) ∧ t.transfers = s.transfers ++ xs ∧
      (s.pmm.Sound → (∀ x ∈ xs, Transfer.Fits E.lbaSize x) →
        E.pageOk .mbr (s.pageCalls .mbr) = true ∧
        (∀ k < 4, E.pageOk .mbrLinux (s.pageCalls .mbrLinux + k) = true) ∧
        ∃ i j, i ≠ j ∧ s.pmm.Free i ∧ s.pmm.Free j) := by
  obtain ⟨a, p, held, ha⟩ := allocPage_buffered E .mbr s
  let x : Transfer := ⟨a, 0, 1, held⟩
  let s₁ := buffered s .mbr p held (sectorRam E s a 0 s.ram) [x]
  have hlen : s₁.transfers.length = s.transfers.length + 1 := buffered_length
  have htypes : ∀ j, 0 ≤ j → j < 0 + 4 → mbrType s₁.ram a j = 0x83 := by
    intro j _ hj
    rw [mbrType, show a + 446 + 16 * j + 4 = a + (446 + 16 * j + 4) by omega]
    exact (sector_read _ _ (by decide) (by omega)).trans (htype j (by omega))
  obtain ⟨xs, t, hloop, htr, hserved⟩ :=
    mbrLoop_failed (s := s₁) (fun k hk => hfail k (by omega)) 4 0 htypes
  refine ⟨x :: xs, (freePage a t).2, ?_, ?_, fun hs hfit => ?_⟩
  · unfold diskMbr
    rw [Prog.bind_eq ha, Prog.bind_eq (diskRead_done hread), List.nil_append, Prog.bind_eq hloop]
    rfl
  · have htr' : t.transfers = s.transfers ++ [x] ++ xs := htr
    rw [show (freePage a t).2.transfers = t.transfers from rfl, htr', List.append_assoc]
    rfl
  · obtain ⟨hok, i, hi, rfl, rfl⟩ := buffered_served ha hs (hfit x List.mem_cons_self)
    obtain ⟨hoks, hfree⟩ := hserved (hs.take i) fun y hy => hfit y (List.mem_cons_of_mem _ hy)
    obtain ⟨j, hj⟩ := hfree (by decide)
    have hj' := Pmm.free_take_iff.mp hj
    refine ⟨hok, fun k hk => ?_, i, j, hj'.2, hi, hj'.1⟩
    have hcalls : s₁.pageCalls .mbrLinux = s.pageCalls .mbrLinux :=
      s.asked_other (show PageSite.mbrLinux ≠ .mbr by decide)
    rw [← hcalls]
    exact hoks k hk

-- ---------------------------------------------------------------------------
-- What the pages are needed for
-- ---------------------------------------------------------------------------

def failingFrom (l : Nat) (page : PageSite → Nat → Bool) (n : Nat) : Env :=
  { lbaSize := l, readOk := fun k => decide (k < n), writeOk := fun _ => true, pageOk := page
    kmallocOk := fun _ => true }

def gptImage : Nat → Mem := fun lba off => if lba = 1 then gptSignature.getD off 0 else 0

def mbrImage : Nat → Mem := fun lba off =>
  if lba ≠ 0 then 0
  else if off = 510 then 0x55
  else if off = 511 then 0xAA
  else if off ∈ [450, 466, 482, 498] then 0x83
  else 0

theorem Fitting.of_session (hrun : initDisk E s = (some (), t))
    (htr : t.transfers = s.transfers ++ xs)
    (h : Fitting E.lbaSize s (diskSession E base [] s).2) :
    ∀ x ∈ xs, Transfer.Fits E.lbaSize x := by
  have hend : diskSession E base [] s = (some (), t) := by
    unfold diskSession
    rw [Prog.bind_eq hrun]
    rfl
  rw [hend] at h
  obtain ⟨new, hnew, hfit⟩ := h
  rw [htr] at hnew
  rw [List.append_cancel_left hnew]
  exact hfit

def scanStyle (E : Env) : PartitionStyle → Prog Kern Unit
  | .mbr => diskMbr E
  | .gpt => diskGpt E
  | _ => do let _ ← diskTryLinux E

structure Told (E : Env) (s : Kern) (style : PartitionStyle) (xs : List Transfer) (t : Kern) :
    Prop where
  run : initDisk E s = scanStyle E style t
  transfers : t.transfers = s.transfers ++ xs
  sectors : t.sectors = s.sectors
  other : ∀ site, site ≠ .selftest → site ≠ .diskType → t.pageCalls site = s.pageCalls site
  served : s.pmm.Sound → (∀ x ∈ xs, Transfer.Fits E.lbaSize x) → E.lbaSize ≤ 4096 ∧
    E.pageOk .selftest (s.pageCalls .selftest) = true ∧
    E.pageOk .diskType (s.pageCalls .diskType) = true ∧ t.pmm = s.pmm

theorem told_of (hlen : x.len = 1) (hself : diskSelftest E s = (some true, t))
    (hp : Probed E .selftest s [x] t) (htype : determineDiskType E t = (some style, u))
    (hp' : Probed E .diskType t ys u) : Told E s style (x :: ys) u := by
  refine ⟨?_, ?_, hp'.sectors.trans hp.sectors, fun site hne hne' => ?_, fun hs hfit => ?_⟩
  · unfold initDisk
    rw [Prog.bind_eq hself, if_pos rfl, Prog.bind_eq htype]
    cases style <;> rfl
  · simp [hp'.transfers, hp.transfers]
  · rw [hp'.other hne', hp.other hne]
  · have hx := hfit x List.mem_cons_self
    obtain ⟨hok, -, hpmm⟩ := hp.served hs fun y hy => (List.mem_singleton.mp hy) ▸ hx
    obtain ⟨hok', -, hpmm'⟩ := hp'.served (hpmm ▸ hs) fun y hy =>
      hfit y (List.mem_cons_of_mem _ hy)
    have hroom := hx.room
    rw [hlen, Nat.one_mul] at hroom
    rw [hp.other (by decide)] at hok'
    exact ⟨hroom, hok, hok', hpmm'.trans hpmm⟩

theorem Told.fits (ht : Told E s style xs t)
    (h : Fitting E.lbaSize s (diskSession E base [] s).2)
    (hrun : initDisk E s = (some (), u)) (htr : u.transfers = t.transfers ++ ys) :
    (∀ x ∈ xs, Transfer.Fits E.lbaSize x) ∧ ∀ y ∈ ys, Transfer.Fits E.lbaSize y := by
  rw [ht.transfers, List.append_assoc] at htr
  have hfit := Fitting.of_session hrun htr h
  exact ⟨fun x hx => hfit x (List.mem_append_left _ hx),
    fun y hy => hfit y (List.mem_append_right _ hy)⟩

def FailsFrom (E : Env) (n : Nat) : Prop := ∀ k, E.readOk k = decide (k < n)

theorem FailsFrom.done (h : FailsFrom E n) (hk : k < n) : E.readOk k = true :=
  (h k).trans (decide_eq_true hk)

theorem FailsFrom.failed (h : FailsFrom E n) (hk : n ≤ k) : E.readOk k = false :=
  (h k).trans (decide_eq_false (Nat.not_lt.mpr hk))

theorem session_raw (hs : s.pmm.Sound) (hr : FailsFrom E (s.transfers.length + 1))
    (h : Fitting E.lbaSize s (diskSession E base [] s).2) :
    E.lbaSize ≤ 4096 ∧ E.pageOk .selftest (s.pageCalls .selftest) = true ∧
      E.pageOk .diskType (s.pageCalls .diskType) = true ∧
      E.pageOk .tryLinux (s.pageCalls .tryLinux) = true := by
  obtain ⟨x, t, hlen, hrun, hp⟩ := diskSelftest_probed (s := s) (hr.done (Nat.lt_succ_self _))
  have htlen : t.transfers.length = s.transfers.length + 1 := hp.length
  obtain ⟨y, u, hrun', hp'⟩ := determineDiskType_failed (s := t) (hr.failed (by omega))
  have hulen : u.transfers.length = t.transfers.length + 1 := hp'.length
  have ht := told_of hlen hrun hp hrun' hp'
  obtain ⟨z, v, hrun'', hp''⟩ := diskTryLinux_failed (s := u) (hr.failed (by omega))
  obtain ⟨hxs, hz⟩ := ht.fits h (ht.run.trans (Prog.bind_eq hrun'')) hp''.transfers
  obtain ⟨hle, hok, hok', hpmm⟩ := ht.served hs hxs
  obtain ⟨hok'', -, -⟩ := hp''.served (hpmm ▸ hs) hz
  rw [ht.other _ (by decide) (by decide)] at hok''
  exact ⟨hle, hok, hok', hok''⟩

theorem session_gpt (hs : s.pmm.Sound) (hl : 512 ≤ E.lbaSize) (hdisk : s.sectors = gptImage)
    (hr : FailsFrom E (s.transfers.length + 2))
    (h : Fitting E.lbaSize s (diskSession E base [] s).2) :
    E.pageOk .gpt (s.pageCalls .gpt) = true := by
  obtain ⟨x, t, hlen, hrun, hp⟩ := diskSelftest_probed (s := s) (hr.done (by omega))
  have htlen : t.transfers.length = s.transfers.length + 1 := hp.length
  have hgpt : memcmpEq (t.sectors 1) 0 gptSignature = true := by
    rw [hp.sectors, hdisk]
    decide
  obtain ⟨y, u, hrun', hp'⟩ := determineDiskType_gpt (s := t) hl (hr.done (by omega)) hgpt
  have hulen : u.transfers.length = t.transfers.length + 1 := hp'.length
  have ht := told_of hlen hrun hp hrun' hp'
  obtain ⟨z, v, hrun'', hp''⟩ := diskGpt_failed (s := u) (hr.failed (by omega))
  obtain ⟨hxs, hz⟩ := ht.fits h (ht.run.trans hrun'') hp''.transfers
  obtain ⟨-, -, -, hpmm⟩ := ht.served hs hxs
  obtain ⟨hok, -, -⟩ := hp''.served (hpmm ▸ hs) hz
  rwa [ht.other _ (by decide) (by decide)] at hok

theorem session_mbr (hs : s.pmm.Sound) (hl : 512 ≤ E.lbaSize) (hdisk : s.sectors = mbrImage)
    (hr : FailsFrom E (s.transfers.length + 4))
    (h : Fitting E.lbaSize s (diskSession E base [] s).2) :
    E.pageOk .mbr (s.pageCalls .mbr) = true ∧
      (∀ k < 4, E.pageOk .mbrLinux (s.pageCalls .mbrLinux + k) = true) ∧
      ∃ i j, i ≠ j ∧ s.pmm.Free i ∧ s.pmm.Free j := by
  obtain ⟨x, t, hlen, hrun, hp⟩ := diskSelftest_probed (s := s) (hr.done (by omega))
  have htlen : t.transfers.length = s.transfers.length + 1 := hp.length
  have htd : t.sectors = mbrImage := hp.sectors.trans hdisk
  have hgpt : memcmpEq (t.sectors 1) 0 gptSignature = false := by
    rw [htd]
    decide
  obtain ⟨ys, u, hys, hrun', hp'⟩ := determineDiskType_mbr (s := t) hl (hr.done (by omega))
    (hr.done (by omega)) hgpt (by rw [htd]; decide) (by rw [htd]; decide)
  have hulen := hp'.length
  have ht := told_of hlen hrun hp hrun' hp'
  have htypes : ∀ j < 4, u.sectors 0 (446 + 16 * j + 4) = 0x83 := by
    rw [ht.sectors, hdisk]
    decide
  obtain ⟨zs, v, hrun'', htr, hserved⟩ := diskMbr_failed (s := u) hl (hr.done (by omega))
    (fun k hk => hr.failed (by omega)) htypes
  obtain ⟨hxs, hzs⟩ := ht.fits h (ht.run.trans hrun'') htr
  obtain ⟨-, -, -, hpmm⟩ := ht.served hs hxs
  obtain ⟨hok, hoks, hfree⟩ := hserved (hpmm ▸ hs) hzs
  rw [ht.other _ (by decide) (by decide)] at hok hoks
  rw [hpmm] at hfree
  exact ⟨hok, hoks, hfree⟩

end

/-- On every disk, and whichever reads fail, the transfers fit if the pages are
there, and only then. -/
theorem transfers_fit_iff {s : Kern} (hs : s.pmm.Sound) (hl : 512 ≤ l)
    (page : PageSite → Nat → Bool) :
    (∀ E sectors ops, E.lbaSize = l → E.pageOk = page →
      Fitting l (s.withSectors sectors)
        (diskSession E s.partitionCount ops (s.withSectors sectors)).2) ↔
      l ≤ 4096 ∧ ProbesServed page s.pageCalls ∧ ∃ i j, i ≠ j ∧ s.pmm.Free i ∧ s.pmm.Free j := by
  constructor
  · intro h
    obtain ⟨hle, hself, htype, htry⟩ :=
      session_raw (E := failingFrom l page (s.transfers.length + 1)) hs (fun _ => rfl)
        (h _ s.sectors [] rfl rfl)
    have hgpt := session_gpt (E := failingFrom l page (s.transfers.length + 2))
      (s := s.withSectors gptImage) hs hl rfl (fun _ => rfl) (h _ gptImage [] rfl rfl)
    obtain ⟨hmbr, hlinux, htwo⟩ := session_mbr (E := failingFrom l page (s.transfers.length + 4))
      (s := s.withSectors mbrImage) hs hl rfl (fun _ => rfl) (h _ mbrImage [] rfl rfl)
    exact ⟨hle, ⟨hself, htype, htry, hgpt, hmbr, hlinux⟩, htwo⟩
  · rintro ⟨hle, hserved, htwo⟩ E sectors ops rfl rfl
    exact diskSession_fitting (s := s.withSectors sectors) hs (by omega) hle htwo hserved ops

/-- Pages are always handed out, and there are two. -/
theorem transfers_fit_iff_fresh :
    ProbesServed allOk.pageOk (freshKern fun _ => 0).pageCalls ∧
      ∀ E sectors ops, E.lbaSize = 512 → E.pageOk = allOk.pageOk →
        Fitting 512 ((freshKern fun _ => 0).withSectors sectors)
          (diskSession E (freshKern fun _ => 0).partitionCount ops
            ((freshKern fun _ => 0).withSectors sectors)).2 := by
  have hserved : ProbesServed allOk.pageOk (freshKern fun _ => 0).pageCalls :=
    ⟨rfl, rfl, rfl, rfl, rfl, fun _ _ => rfl⟩
  refine ⟨hserved, (transfers_fit_iff ⟨by decide, by decide⟩ (by decide) _).mpr ⟨by decide, hserved, ?_⟩⟩
  exact ⟨0, 1, by decide, ⟨by decide, by decide⟩, ⟨by decide, by decide⟩⟩

/-- The page for the first test of the disk is not handed out, and the sector is
read to physical address 0. -/
theorem selftest_without_page :
    ∃ t, diskSession { allOk with
        pageOk := fun site _ => decide (site ≠ .selftest)
        readOk := fun _ => false } 0 [] (freshKern fun _ => 0) = (some (), t) ∧
      t.transfers = [⟨0, 0, 1, []⟩] ∧ ¬Transfer.Fits 512 ⟨0, 0, 1, []⟩ :=
  ⟨_, rfl, by decide, fun h => h.page rfl⟩

end TomatoOs.Drivers
