import TomatoOs.Kmem.Releases

/-!
# `krealloc` refines the arena

In place, `krealloc` works on the block's own list, which may be one that
`base` no longer reaches. Otherwise it is `kmalloc`, a copy into the new
block's data and `kfree`. The copy is no header store, so a call's outcome is
stated by its log: the headers it wrote spare the data of every block in use
but the one reallocated.
-/

namespace TomatoOs.Kmem

open Lib

/-- A call that returned with memory that represents `A'`; the headers written
keep off the blocks in use, that at `p` apart. -/
structure Served (heap p : Nat) (h : Heap) (A : Arena) (h' : Heap) (A' : Arena) : Prop where
  refines : Refines heap h' A'
  logged : ∃ as, Logged as h h' ∧ Spares as p A.blocks

section
variable {heap : Nat} {h : Heap} {A : Arena}

theorem Returns.served (hr : Returns heap h A h' A') (hR : Refines heap h A)
    (hk : Keeps p A.blocks A'.blocks) : Served heap p h A h' A' :=
  ⟨hr.refines, _, hr.stores.logged, spares_step hR.ok.ordered hr.refines.ok.ordered hk⟩

theorem Returns.served_drops (hr : Returns heap h A h' A') (hR : Refines heap h A)
    (hd : A.Drops A') (p : Nat) : Served heap p h A h' A' := by
  refine ⟨hr.refines, _, hr.stores.logged.mono fun a ha => ?_, hR.ok.ordered.spares p⟩
  rw [List.map_append] at ha
  exact (List.mem_append.mp ha).elim id fun ha => hd ha

theorem Served.trans (hs : Served heap p h A h' A') (hs' : Served heap p h' A' h'' A'')
    (hk : Keeps p A.blocks A'.blocks) : Served heap p h A h'' A'' := by
  obtain ⟨as, hl, hsp⟩ := hs.logged
  obtain ⟨as', hl', hsp'⟩ := hs'.logged
  refine ⟨hs'.refines, as ++ as', ?_, hsp.append (hsp'.keeps hk)⟩
  exact (hl.mono fun a ha => List.mem_append_left _ ha).trans
    (hl'.mono fun a ha => List.mem_append_right _ ha)

-- ---------------------------------------------------------------------------
-- Stores to data
-- ---------------------------------------------------------------------------

theorem Refines.scribble (hR : Refines heap h A) (hb : b ∈ A.blocks)
    (hm : ∀ x, ¬Within b.data b.size x → m x = h.mem x) :
    Refines heap { h with mem := m } A := by
  refine ⟨hR.sited, hR.ok, ⟨hR.rep.brk, hR.rep.base, fun l hl => ?_⟩, hR.endp⟩
  refine (hR.rep.lists l hl).congr fun c hc f => Mem.load_congr fun x hx => hm x fun hin => ?_
  have hmem : c ∈ A.blocks := by
    rw [A.blocks_eq]
    exact List.mem_flatten.mpr ⟨l, hl, hc⟩
  refine (hR.ok.ordered.apart_data hb hmem).not_within hin ⟨?_, ?_⟩
  · exact Nat.le_trans (Nat.le_add_right _ _) hx.1
  · have := f.inside
    have := hx.2
    omega

theorem Refines.copy (hR : Refines heap h A) (hb : b ∈ A.blocks) (hn : n ≤ b.size) (src : Nat) :
    Refines heap { h with mem := h.mem.copy b.data src n } A := by
  refine hR.scribble hb fun x hx => Mem.copy_outside fun hin => hx ⟨hin.1, ?_⟩
  have := hin.2
  omega

-- ---------------------------------------------------------------------------
-- In place
-- ---------------------------------------------------------------------------

theorem Refines.stretch (hR : Refines heap h A) (hL : A.lists = L₁ ++ (pre ++ l) :: L₂) :
    ∃ lo hi, hi < 2 ^ 64 ∧ Ordered lo l hi ∧ Seg h l 0 := by
  have ho := hR.ok.ordered
  rw [A.blocks_eq, hL] at ho
  simp only [List.flatten_append, List.flatten_cons, List.append_assoc] at ho
  obtain ⟨m₁, -, ho⟩ := ordered_append.mp ho
  obtain ⟨m₂, -, ho⟩ := ordered_append.mp ho
  obtain ⟨m₃, hol, hrest⟩ := ordered_append.mp ho
  have hseg := hR.rep.lists (pre ++ l) (by rw [hL]; simp)
  exact ⟨m₂, m₃, Nat.lt_of_le_of_lt hrest.le hR.lt, hol, (seg_append.mp hseg).2⟩

theorem headAddr_cut (b : Blk) (s : Nat) (rest : List Blk) :
    headAddr (cut b s rest) 0 = b.addr := by
  unfold cut
  split <;> rfl

theorem shrink_refines (hR : Refines heap h A) (hL : A.lists = L₁ ++ (pre ++ b :: post) :: L₂)
    (hs : s ≤ b.size) :
    Returns heap h A (h.splitIfRoom b.addr s) (A.update b.data fun b post => cut b s post) := by
  obtain ⟨lo, hi, hhi, ho, hseg⟩ := hR.stretch hL
  obtain ⟨hseg', hw⟩ := seg_splitIfRoom hseg ho hhi hs
  have hr := refits_cut b s post
  refine hR.replace hL (A.lists_update_eq hR.ok hL rfl) rfl hr (headAddr_cut b s post) ?_ hseg'
    (hw.mono fun a ha => ?_)
  · exact A.update_ok hR.ok hL rfl hr fun q b post hq => hq.cut
  · rw [List.map_append]
    exact List.mem_append_right _ ha

theorem grow_refines (hR : Refines heap h A)
    (hL : A.lists = L₁ ++ (pre ++ b :: c :: rest) :: L₂) (hs : s ≤ (b.join c).size) :
    Returns heap h A ((h.absorbNext b.addr).splitIfRoom b.addr s) (A.update b.data (grow s)) := by
  obtain ⟨lo, hi, hhi, ho, hseg⟩ := hR.stretch hL
  obtain ⟨hseg₁, hw₁⟩ := seg_absorbNext hseg ho hhi
  have hj : Refits (b :: c :: rest) (b.join c :: setPrev b.addr rest) :=
    (refits_join b c rest).trans (.cons _ (refits_setPrev b.addr rest))
  obtain ⟨hseg₂, hw₂⟩ := seg_splitIfRoom hseg₁ (hj _ _ ho) hhi hs
  have hr := refits_grow s b (c :: rest)
  refine hR.replace hL (A.lists_update_eq hR.ok hL rfl) rfl hr (headAddr_cut _ s _) ?_ hseg₂
    ((hw₁.mono fun a ha => ?_).trans (hw₂.mono fun a ha => ?_))
  · exact A.update_ok hR.ok hL rfl hr fun q b post hq => hq.grow
  · rw [List.map_append]
    refine List.mem_append_left _ ?_
    simp only [List.map_cons, List.mem_cons] at ha ⊢
    exact ha.imp id .inr
  · rw [List.map_append]
    exact List.mem_append_right _ ha

-- ---------------------------------------------------------------------------
-- Moving
-- ---------------------------------------------------------------------------

theorem kmalloc_served (hR : Refines heap h A) (ha : Answered heap h A n) (p : Nat) :
    ∃ h', h.kmalloc n = some (h', (A.kmalloc (heap + heapSize) n).2) ∧
      Served heap p h A h' (A.kmalloc (heap + heapSize) n).1 := by
  obtain ⟨h', heq, hret⟩ := kmalloc_refines hR ha
  exact ⟨h', heq, hret.served hR (A.kmalloc_keeps p _ n)⟩

theorem kfree_served (hR : Refines heap h A) (hb : b ∈ A.blocks) (p : Nat) :
    ∃ h', h.kfree b.data = some h' ∧ Served heap p h A h' (A.kfree b.data) := by
  obtain ⟨h', heq, hret, hd⟩ := kfree_refines hR hb rfl
  exact ⟨h', heq, hret.served_drops hR hd p⟩

def Heap.copied (h : Heap) (b c : Blk) : Heap :=
  { h with mem := h.mem.copy c.data b.data (min b.size c.size) }

/-- A move of the block `b`: `kmalloc` served `c` in the arena `A₁`, the data was
copied, and `kfree` released the block. -/
structure Moved (heap : Nat) (h : Heap) (A : Arena) (b c : Blk) (h₁ : Heap) (A₁ : Arena)
    (h₂ : Heap) : Prop where
  grown : Returns heap h A h₁ A₁
  keeps : ∀ p, Keeps p A.blocks A₁.blocks
  fresh : A.Unused c.data
  block : c ∈ A₁.blocks
  used : c.free = false
  freed : Returns heap (h₁.copied b c) A₁ h₂ (A₁.kfree b.data)
  drops : A₁.Drops (A₁.kfree b.data)

theorem Moved.copied (hm : Moved heap h A b c h₁ A₁ h₂) : Refines heap (h₁.copied b c) A₁ :=
  hm.grown.refines.copy hm.block (Nat.min_le_right ..) b.data

theorem Moved.served (hm : Moved heap h A b c h₁ A₁ h₂) (hR : Refines heap h A) :
    Served heap b.data h A h₂ (A₁.kfree b.data) := by
  have hs := hm.freed.served_drops hm.copied hm.drops b.data
  obtain ⟨as, hl, hsp⟩ := hs.logged
  have hs : Served heap b.data h₁ A₁ h₂ (A₁.kfree b.data) := ⟨hs.refines, as, hl, hsp⟩
  exact (hm.grown.served hR (hm.keeps b.data)).trans hs (hm.keeps b.data)

theorem move_paths (hR : Refines heap h A) (hb : b ∈ A.blocks) (hf : b.free = false)
    (ha : Answered heap h A n) :
    (∃ h₁, h.move b.data n = some (h₁, 0) ∧ A.move (heap + heapSize) b.data n = (A, 0) ∧
      Returns heap h A h₁ A) ∨
    ∃ c h₁ A₁ h₂, h.move b.data n = some (h₂, c.data) ∧
      A.move (heap + heapSize) b.data n = (A₁.kfree b.data, c.data) ∧ align4 n ≤ c.size ∧
      Moved heap h A b c h₁ A₁ h₂ := by
  obtain ⟨h₁, heq₁, hret⟩ := kmalloc_refines hR ha
  unfold Heap.move Arena.move
  rw [heq₁]
  simp only [Option.bind_eq_bind, Option.bind_some]
  rcases A.kmalloc_serves hR.ok n with hnull | ⟨hq, hu, c, hc, hcq, hcf, hcn⟩
  · rw [hnull] at hret ⊢
    exact .inl ⟨h₁, rfl, rfl, hret⟩
  · have hR₁ := hret.refines
    obtain ⟨b', hb', ha, hsz, -⟩ := A.kmalloc_keeps 0 (heap + heapSize) n b hb hf b.data_ne
    have hd : b'.data = b.data := by simp [Blk.data, ha]
    obtain ⟨_, hbs⟩ := hR₁.holds hb'
    obtain ⟨_, hcs⟩ := hR₁.holds hc
    rw [if_neg hq, if_neg hq, ← hcq, ← hd, hR₁.block_addr hb', hR₁.block_addr hc, hbs.size, hcs.size]
    have hmin : (if b'.size < c.size then b'.size else c.size) = min b.size c.size := by
      rw [hsz]
      split <;> omega
    obtain ⟨h₂, heq₂, hfreed, hdrops⟩ :=
      kfree_refines (hR₁.copy hc (Nat.min_le_right b.size c.size) b.data) hb' hd
    rw [hmin, hd, heq₂]
    rw [← hcq] at hu
    exact .inr ⟨c, h₁, _, h₂, rfl, rfl, hcn, hret, fun p => A.kmalloc_keeps p _ n, hu, hc, hcf,
      hfreed, hdrops⟩

-- ---------------------------------------------------------------------------
-- krealloc
-- ---------------------------------------------------------------------------

theorem absorb_iff (hR : Refines heap h A) (hL : A.lists = L₁ ++ (pre ++ b :: post) :: L₂)
    (s : Nat) :
    (h.get b.addr .next ≠ 0 ∧ h.get (h.get b.addr .next) .free ≠ 0 ∧ s ≤ h.combined b.addr) ↔
      ∃ c ∈ post.head?, c.free = true ∧ s ≤ (b.join c).size := by
  obtain ⟨lo, hi, hhi, ho, hseg⟩ := hR.stretch hL
  rw [hseg.1.next]
  cases post with
  | nil => simp [headAddr]
  | cons c rest =>
    have hne : c.addr ≠ 0 := hR.addr_ne (by rw [A.blocks_eq, hL]; simp)
    simp only [headAddr, hseg.2.1.free, combined_eq hseg ho hhi, List.head?_cons,
      Option.mem_some_iff, exists_eq_left', ne_eq, hne, not_false_eq_true, true_and]
    cases c.free <;> simp

def Heap.inPlace (h : Heap) (p n : Nat) : Prop :=
  align4 n ≤ h.get (getBlockAddr p) .size ∨
    h.get (getBlockAddr p) .next ≠ 0 ∧ h.get (h.get (getBlockAddr p) .next) .free ≠ 0 ∧
      align4 n ≤ h.combined (getBlockAddr p)

theorem inPlace_iff (hR : Refines heap h A) (hL : A.lists = L₁ ++ (pre ++ b :: post) :: L₂) :
    h.inPlace b.data n ↔ align4 n ≤ b.size ∨
      ∃ c ∈ post.head?, c.free = true ∧ align4 n ≤ (b.join c).size := by
  have hb : b ∈ A.blocks := by rw [A.blocks_eq, hL]; simp
  obtain ⟨_, hh⟩ := hR.holds hb
  rw [Heap.inPlace, getBlockAddr, hR.block_addr hb, hh.size, absorb_iff hR hL]

theorem krealloc_paths (hR : Refines heap h A) (hb : b ∈ A.blocks) (h0 : n ≠ 0) :
    (∃ h', h.krealloc b.data n = some (h', b.data) ∧
      (A.krealloc (heap + heapSize) b.data n).2 = b.data ∧
      Returns heap h A h' (A.krealloc (heap + heapSize) b.data n).1) ∨
    ¬h.inPlace b.data n ∧ h.krealloc b.data n = h.move b.data n ∧
      A.krealloc (heap + heapSize) b.data n = A.move (heap + heapSize) b.data n := by
  have hp := b.data_ne
  obtain ⟨L₁, pre, post, L₂, hL⟩ := A.lists_of_mem hb
  obtain ⟨_, hh⟩ := hR.holds hb
  have habs := absorb_iff hR hL (align4 n)
  unfold Heap.krealloc
  rw [if_neg hp, if_neg h0]
  simp only [hR.block_addr hb, hh.size]
  rcases A.krealloc_cases hR.ok hL rfl h0 with
    ⟨hs, heq⟩ | ⟨c, rest, rfl, hc, hlt, hs, heq⟩ | ⟨hlt, hno, heq⟩
  · rw [heq, if_pos hs]
    exact .inl ⟨_, rfl, rfl, shrink_refines hR hL hs⟩
  · rw [heq, if_neg (by omega), if_pos (habs.mpr ⟨c, rfl, hc, hs⟩)]
    exact .inl ⟨_, rfl, rfl, grow_refines hR hL hs⟩
  · have hstay : ¬∃ c ∈ post.head?, c.free = true ∧ align4 n ≤ (b.join c).size :=
      fun ⟨c, hc, hcs⟩ => hno c hc hcs
    rw [if_neg (by omega), if_neg (mt habs.mp hstay)]
    refine .inr ⟨fun hin => ?_, rfl, heq⟩
    exact ((inPlace_iff hR hL).mp hin).elim (by omega) hstay

theorem krealloc_served (hR : Refines heap h A) (hb : b ∈ A.blocks) (hf : b.free = false)
    (h0 : n ≠ 0) (ha : ¬h.inPlace b.data n → Answered heap h A n) :
    ∃ h', h.krealloc b.data n = some (h', (A.krealloc (heap + heapSize) b.data n).2) ∧
      Served heap b.data h A h' (A.krealloc (heap + heapSize) b.data n).1 := by
  rcases krealloc_paths hR hb h0 with ⟨h', heq, hq, hret⟩ | ⟨hno, heq, hA⟩
  · rw [hq]
    exact ⟨h', heq, hret.served hR (A.krealloc_keeps hR.ok hb h0)⟩
  · rw [heq, hA]
    rcases move_paths hR hb hf (ha hno) with
      ⟨h₁, hmove, hAmove, hret⟩ | ⟨c, h₁, A₁, h₂, hmove, hAmove, -, hm⟩
    · rw [hAmove]
      exact ⟨h₁, hmove, hret.served hR (.refl _ _)⟩
    · rw [hAmove]
      exact ⟨h₂, hmove, hm.served hR⟩

end

end TomatoOs.Kmem
