import TomatoOs.Kmem.Tiling

/-!
# The list stays in address order

Nothing in a walk along `next` bounds it. It ends because in every state of
every session the list from `base` runs upwards through the heap, and each of
its blocks ends at or below the next. `prev` only ever names the block before,
or none: `extend_heap` leaves it `NULL` in a block that does have one.
-/

namespace TomatoOs.Kmem

open Lib

structure InOrder (h : Heap) (l : List Nat) : Prop where
  chain : Chain h h.base l
  increasing : l.Pairwise (· < ·)
  next : ∀ b ∈ l, h.get b .next ≠ 0 → b + metaBlockSize + h.get b .size ≤ h.get b .next
  last : ∀ b ∈ l, h.get b .next = 0 → b + metaBlockSize + h.get b .size ≤ h.brk
  prev : ∀ pre b post, l = pre ++ b :: post →
    h.get b .prev = 0 ∨ pre.getLast? = some (h.get b .prev)

section
variable {heap : Nat} {h : Heap} {A : Arena} {s : Session} {b : Blk}

theorem Ordered.increasing (ho : Ordered lo l hi) : (l.map Blk.addr).Pairwise (· < ·) := by
  induction l generalizing lo with
  | nil => exact .nil
  | cons b rest ih =>
    refine List.pairwise_cons.mpr ⟨fun a ha => ?_, ih ho.2⟩
    obtain ⟨c, hc, rfl⟩ := List.mem_map.mp ha
    have hle := (Ordered.mem ho.2 hc).1
    have hm : metaBlockSize = 40 := rfl
    unfold Blk.fin at hle
    omega

theorem Ordered.next_le (ho : Ordered lo (b :: post) hi) :
    (headAddr post 0 ≠ 0 → b.fin ≤ headAddr post 0) ∧ (post = [] → b.fin ≤ hi) := by
  cases post with
  | nil => exact ⟨fun h0 => absurd rfl h0, fun _ => ho.2⟩
  | cons c rest => exact ⟨fun _ => ho.2.1, fun h0 => absurd h0 (List.cons_ne_nil c rest)⟩

theorem Linked.prev_cases (hl : Linked 0 (pre ++ b :: post)) :
    b.prev = 0 ∨ (pre.map Blk.addr).getLast? = some b.prev := by
  by_cases hb : b.prev = 0
  · exact .inl hb
  · obtain ⟨pre', x, rfl, hx⟩ := hl.prev_last hb
    exact .inr (by simp [hx])

theorem Refines.chain_iff (hR : Refines heap h A) : Chain h h.base l ↔ l = A.chain.map Blk.addr := by
  rw [hR.rep.base]
  exact Kmem.chain_seg hR.chain_seg fun b hb => hR.addr_ne (List.mem_append_right _ hb)

theorem Refines.inOrder (hR : Refines heap h A) : InOrder h (A.chain.map Blk.addr) := by
  obtain ⟨lo, hlo, ho⟩ := hR.chain_ordered
  have hne : ∀ b ∈ A.chain, b.addr ≠ 0 := fun b hb => hR.addr_ne (List.mem_append_right _ hb)
  -- what memory and the order say of a block and those behind it
  have hat : ∀ pre b post, A.chain = pre ++ b :: post →
      Holds h b (headAddr post 0) ∧ ∃ mid, Ordered mid (b :: post) A.brk := by
    intro pre b post hc
    have hs := hR.chain_seg
    rw [hc] at hs ho
    obtain ⟨mid, -, hmid⟩ := ordered_append.mp ho
    exact ⟨(seg_append.mp hs).2.1, mid, hmid⟩
  refine ⟨?_, ho.increasing, fun a ha h0 => ?_, fun a ha h0 => ?_, fun pre a post hl => ?_⟩
  · exact hR.chain_iff.mpr rfl
  · obtain ⟨b, hb, rfl⟩ := List.mem_map.mp ha
    obtain ⟨pre, post, hc⟩ := List.append_of_mem hb
    obtain ⟨hh, mid, hmid⟩ := hat pre b post hc
    rw [hh.next] at h0 ⊢
    rw [hh.size]
    exact hmid.next_le.1 h0
  · obtain ⟨b, hb, rfl⟩ := List.mem_map.mp ha
    obtain ⟨pre, post, hc⟩ := List.append_of_mem hb
    obtain ⟨hh, mid, hmid⟩ := hat pre b post hc
    have hpost : post = [] := by
      rw [hh.next] at h0
      cases post with
      | nil => rfl
      | cons c rest => exact absurd h0 (hne c (by simp [hc]))
    rw [hh.size, hR.rep.brk]
    exact hmid.next_le.2 hpost
  · obtain ⟨pre, rest, hc, rfl, hrest⟩ := List.map_eq_append_iff.mp hl
    obtain ⟨b, post, rfl, rfl, rfl⟩ := List.map_eq_cons_iff.mp hrest
    rw [(hat pre b post hc).1.prev]
    exact (hc ▸ hR.ok.linked).prev_cases

theorem Refines.findBlock_returns (hR : Refines heap h A) (last size : Nat) :
    ∃ r, h.findBlock last size = some r := by
  obtain ⟨lo, hlo, ho⟩ := hR.chain_ordered
  have hpos := hR.sited.pos
  rw [Heap.findBlock, hR.rep.base, findLoop_eq hR.chain_seg ho (by omega) hR.fuel]
  split <;> exact ⟨_, rfl⟩

theorem Refines.getLastBlock_returns (hR : Refines heap h A) :
    ∃ last, h.getLastBlock = some last := by
  obtain ⟨lo, hlo, ho⟩ := hR.chain_ordered
  have hpos := hR.sited.pos
  rw [Heap.getLastBlock, hR.rep.base, lastLoop_eq hR.chain_seg ho (by omega) hR.fuel]
  exact ⟨_, rfl⟩

/-- In every state of every session the list is in address order and both walks
along it end, and every call that is made in it returns. -/
theorem session_in_order (hp : Placed heap)
    (hr : run Session.step (.start mem heap) ops = some s) :
    (∃ l, InOrder s.heap l) ∧ (∀ last size, ∃ r, s.heap.findBlock last size = some r) ∧
      (∃ last, s.heap.getLastBlock = some last) ∧
      ∀ op, s.allows op = true → ∃ s', s.step op = some s' := by
  obtain ⟨A, hB⟩ := run_backed hp hr
  refine ⟨⟨_, hB.refines.inOrder⟩, hB.refines.findBlock_returns,
    hB.refines.getLastBlock_returns, fun op ha => ?_⟩
  obtain ⟨s', hs, -⟩ := step_backed hB ha
  exact ⟨s', hs⟩

/-- The free of a tail forgets the list, with a block in use on it that `krealloc`
still cuts. -/
theorem session_in_order_forgotten :
    ∃ s, run Session.step (.start (fun _ => 0) 4096)
        [.kmalloc 100, .kmalloc 8, .kfree 4276, .kmalloc 8, .krealloc 4136 4] = some s ∧
      s.heap.base = 4284 ∧ ∃ l, InOrder s.heap l := by
  have hrun : (run Session.step (.start (fun _ => 0) 4096)
      [.kmalloc 100, .kmalloc 8, .kfree 4276, .kmalloc 8, .krealloc 4136 4]).map
        (fun s => s.heap.base) = some 4284 := by decide +kernel
  obtain ⟨s, hr, hbase⟩ := Option.map_eq_some_iff.mp hrun
  exact ⟨s, hr, hbase, (session_in_order ⟨by decide, by decide⟩ hr).1⟩

-- ---------------------------------------------------------------------------
-- Where the next block lies
-- ---------------------------------------------------------------------------

def Heap.fitting (h : Heap) (s b : Nat) : Prop := h.get b .free ≠ 0 ∧ s ≤ h.get b .size

/-- There is room at `p`: in the first such block of the list, or else above the
break. -/
def Heap.offers (h : Heap) (s p : Nat) : Prop :=
  ∃ l, Chain h h.base l ∧
    ((∃ pre b post, l = pre ++ b :: post ∧ h.fitting s b ∧ (∀ c ∈ pre, ¬h.fitting s c) ∧
        p = b + metaBlockSize) ∨
      (∀ b ∈ l, ¬h.fitting s b) ∧ h.brk + metaBlockSize + s ≤ h.endp ∧
        p = h.brk + metaBlockSize)

theorem fitting_iff (hR : Refines heap h A) (hb : b ∈ A.chain) :
    h.fitting k b.addr ↔ fits k b = true := by
  obtain ⟨next, hh⟩ := hR.chain_seg.holds hb
  rw [Heap.fitting, hh.free, hh.size, fits_iff]
  cases b.free <;> simp

theorem offers_iff (hR : Refines heap h A) :
    h.offers (align4 n) p ↔ (A.kmalloc (heap + heapSize) n).2 = p ∧ p ≠ 0 := by
  simp only [Heap.offers, hR.chain_iff, exists_eq_left, hR.rep.brk, hR.endp]
  cases hf : findSplit (fits (align4 n)) A.chain with
  | some r =>
    obtain ⟨pre, b, post⟩ := r
    obtain ⟨hc, hb, hpre⟩ := findSplit_some hf
    have hmem : b ∈ A.chain := by simp [hc]
    rw [Arena.kmalloc_placed hf]
    constructor
    · rintro (⟨pre', a, post', hl, hfit, hno, rfl⟩ | ⟨hno, -⟩)
      · obtain ⟨pre₀, rest, hc₀, rfl, hrest⟩ := List.map_eq_append_iff.mp hl
        obtain ⟨b₀, post₀, rfl, rfl, rfl⟩ := List.map_eq_cons_iff.mp hrest
        -- the first block that fits is the only one
        have hfirst : findSplit (fits (align4 n)) A.chain = some (pre₀, b₀, post₀) := by
          rw [hc₀]
          refine findSplit_append (fun c hcm => ?_) ((fitting_iff hR (by simp [hc₀])).mp hfit)
          rw [← Bool.not_eq_true, ← fitting_iff hR (by simp [hc₀, hcm])]
          exact hno _ (List.mem_map_of_mem hcm)
        rw [hf] at hfirst
        cases hfirst
        exact ⟨rfl, b.data_ne⟩
      · exact absurd ((fitting_iff hR hmem).mpr hb) (hno _ (List.mem_map_of_mem hmem))
    · rintro ⟨rfl, -⟩
      refine .inl ⟨pre.map Blk.addr, b.addr, post.map Blk.addr, by simp [hc],
        (fitting_iff hR hmem).mpr hb, fun a ha => ?_, rfl⟩
      obtain ⟨c, hcm, rfl⟩ := List.mem_map.mp ha
      rw [fitting_iff hR (by simp [hc, hcm]), hpre c hcm]
      exact Bool.false_ne_true
  | none =>
    have hnone : ∀ a ∈ A.chain.map Blk.addr, ¬h.fitting (align4 n) a := by
      intro a ha
      obtain ⟨c, hcm, rfl⟩ := List.mem_map.mp ha
      rw [fitting_iff hR hcm, findSplit_none.mp hf c hcm]
      exact Bool.false_ne_true
    constructor
    · rintro (⟨pre', a, post', hl, hfit, -⟩ | ⟨-, hroom, rfl⟩)
      · exact absurd hfit (hnone a (by simp [hl]))
      · rw [Arena.kmalloc_extended hf hroom rfl]
        exact ⟨rfl, Blk.data_ne { addr := A.brk, size := 0, free := false, prev := 0 }⟩
    · rintro ⟨rfl, h0⟩
      by_cases hroom : A.brk + metaBlockSize + align4 n ≤ heap + heapSize
      · exact .inr ⟨hnone, hroom, by rw [Arena.kmalloc_extended hf hroom rfl]; rfl⟩
      · rw [Arena.kmalloc_full hf hroom] at h0
        exact absurd rfl h0

end

end TomatoOs.Kmem
