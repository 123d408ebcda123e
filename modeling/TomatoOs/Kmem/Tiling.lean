import TomatoOs.Kmem.Sessions
import TomatoOs.Kmem.Tight

/-!
# When the list tiles the heap

The list from `base` covers the used heap as long as every call takes a branch
that keeps the list tight. `session_tiled_iff` says which calls do, in terms of
the headers they find.
-/

namespace TomatoOs.Kmem

open Lib

def Chain (h : Heap) : Nat → List Nat → Prop
  | a, [] => a = 0
  | a, b :: rest => a = b ∧ b ≠ 0 ∧ Chain h (h.get b .next) rest

/-- A block borders on its successor, which points back, or else on the break. -/
structure Borders (h : Heap) (b : Nat) : Prop where
  next : h.get b .next ≠ 0 →
    h.get b .next = b + metaBlockSize + h.get b .size ∧ h.get (h.get b .next) .prev = b
  last : h.get b .next = 0 → b + metaBlockSize + h.get b .size = h.brk

structure Tiles (heap : Nat) (s : Session) (l : List Nat) : Prop where
  chain : Chain s.heap s.heap.base l
  first : l ≠ [] → s.heap.base = heap
  borders : ∀ b ∈ l, Borders s.heap b
  live : ∀ a ∈ s.live, ∃ b ∈ l, a.ptr = b + metaBlockSize ∧ s.heap.get b .free = 0

def Session.Tiled (heap : Nat) (s : Session) : Prop := ∃ l, Tiles heap s l

-- ---------------------------------------------------------------------------
-- The tiling read from the arena
-- ---------------------------------------------------------------------------

structure Arena.Tiled (heap : Nat) (A : Arena) (live : List Alloc) : Prop where
  gapless : A.Gapless heap
  live : ∀ a ∈ live, ∃ b ∈ A.chain, b.data = a.ptr ∧ b.free = false

section
variable {heap : Nat} {h : Heap} {A : Arena} {s : Session} {b c : Blk}

theorem chain_seg (hs : Seg h l 0) (hne : ∀ b ∈ l, b.addr ≠ 0) :
    Chain h (headAddr l 0) m ↔ m = l.map Blk.addr := by
  induction l generalizing m with
  | nil =>
    cases m with
    | nil => simp [Chain, headAddr]
    | cons a m =>
      simp only [Chain, headAddr, List.map_nil, reduceCtorEq, iff_false]
      rintro ⟨rfl, hne, -⟩
      exact hne rfl
  | cons b rest ih =>
    have hb := hne b List.mem_cons_self
    cases m with
    | nil => simp [Chain, headAddr, hb]
    | cons a m =>
      have hr := ih (m := m) hs.2 fun c hc => hne c (List.mem_cons_of_mem b hc)
      simp only [Chain, headAddr, List.map_cons, List.cons.injEq]
      constructor
      · rintro ⟨rfl, -, hm⟩
        rw [hs.1.next] at hm
        exact ⟨rfl, hr.mp hm⟩
      · rintro ⟨rfl, hm⟩
        rw [hs.1.next]
        exact ⟨rfl, hb, hr.mpr hm⟩

theorem borders_next (hs : Seg h (b :: c :: rest) 0) (hc : c.addr ≠ 0) :
    Borders h b.addr ↔ c.addr = b.fin ∧ c.prev = b.addr := by
  have hn : h.get b.addr .next = c.addr := hs.1.next
  constructor
  · intro hb
    have := hb.next (by rwa [hn])
    rwa [hn, hs.1.size, hs.2.1.prev] at this
  · intro hb
    refine ⟨fun _ => ?_, fun h0 => absurd (hn.symm.trans h0) hc⟩
    rwa [hn, hs.1.size, hs.2.1.prev]

theorem borders_last (hs : Seg h [b] 0) : Borders h b.addr ↔ b.fin = h.brk := by
  have hn : h.get b.addr .next = 0 := hs.1.next
  constructor
  · intro hb
    have := hb.last hn
    rwa [hs.1.size] at this
  · intro hb
    refine ⟨fun h0 => absurd hn h0, fun _ => ?_⟩
    rw [hs.1.size]
    exact hb

theorem tight_iff (hs : Seg h (b :: rest) 0) (hne : ∀ c ∈ b :: rest, c.addr ≠ 0) :
    Tight pred lo (b :: rest) h.brk ↔
      b.addr = lo ∧ b.prev = pred ∧ ∀ c ∈ b :: rest, Borders h c.addr := by
  induction rest generalizing b pred lo with
  | nil => simp [Tight, borders_last hs]
  | cons c rest ih =>
    have hr : Tight b.addr b.fin (c :: rest) h.brk ↔ _ :=
      ih hs.2 fun d hd => hne d (List.mem_cons_of_mem b hd)
    have hc := hne c (by simp)
    rw [Tight, hr, List.forall_mem_cons (a := b), borders_next hs hc]
    tauto

theorem tiled_iff (hB : s.Backed heap A) : s.Tiled heap ↔ A.Tiled heap s.live := by
  have hR := hB.refines
  have hne : ∀ b ∈ A.chain, b.addr ≠ 0 := fun b hb => hR.addr_ne (List.mem_append_right _ hb)
  have hchain : ∀ l, Chain s.heap s.heap.base l ↔ l = A.chain.map Blk.addr := fun l => by
    rw [hR.rep.base]
    exact chain_seg hR.chain_seg hne
  have hfree : ∀ b ∈ A.chain, s.heap.get b.addr .free = 0 ↔ b.free = false := fun b hb => by
    obtain ⟨_, hh⟩ := hR.chain_seg.holds hb
    rw [hh.free]
    cases b.free <;> simp
  have hgap : A.Gapless heap ↔ (A.chain.map Blk.addr ≠ [] → s.heap.base = heap) ∧
      ∀ a ∈ A.chain.map Blk.addr, Borders s.heap a := by
    unfold Arena.Gapless
    have hlink := hR.ok.linked
    have hseg := hR.chain_seg
    rw [hR.rep.base, ← hR.rep.brk]
    cases hc : A.chain with
    | nil => simp
    | cons b rest =>
      rw [hc] at hne hlink hseg
      have hp : b.prev = 0 := hlink.1.elim id id
      rw [tight_iff hseg hne]
      simp [headAddr, hp]
  constructor
  · rintro ⟨l, hT⟩
    obtain rfl := (hchain l).mp hT.chain
    refine ⟨hgap.mpr ⟨hT.first, hT.borders⟩, fun a ha => ?_⟩
    obtain ⟨x, hx, hp, hf⟩ := hT.live a ha
    obtain ⟨b, hb, rfl⟩ := List.mem_map.mp hx
    exact ⟨b, hb, hp.symm, (hfree b hb).mp hf⟩
  · intro hT
    obtain ⟨hfirst, hborders⟩ := hgap.mp hT.gapless
    refine ⟨_, (hchain _).mpr rfl, hfirst, hborders, fun a ha => ?_⟩
    obtain ⟨b, hb, hd, hf⟩ := hT.live a ha
    exact ⟨b.addr, List.mem_map_of_mem hb, hd.symm, (hfree b hb).mpr hf⟩

theorem Session.Backed.forget (hB : s.Backed heap A) (hT : A.Tiled heap s.live) :
    s.Backed heap { A with stale := [] } := by
  have hR := hB.refines
  obtain ⟨lo, hlo, ho⟩ := hR.chain_ordered
  refine ⟨hB.placed, ⟨hR.sited, ⟨ho.weaken hlo (Nat.le_refl _), hR.ok.linked, hR.ok.brk_le⟩,
    ⟨hR.rep.brk, hR.rep.base, fun l hl => hR.rep.lists l (List.mem_append_right _ hl)⟩, hR.endp⟩,
    ⟨fun a ha => ?_, hB.backs.distinct⟩⟩
  obtain ⟨b, hb, hd, hf, hs⟩ := hB.backs.serves a ha
  obtain ⟨c, hc, hcd, -⟩ := hT.live a ha
  have hcb : c = b := hR.ok.ordered.unique (List.mem_append_right _ hc) hb (by
    simpa [Blk.data] using hcd.trans hd.symm)
  exact ⟨b, hcb ▸ hc, hd, hf, hs⟩

theorem tiled_of_backs (hB : Backs A live) (hs : ∀ b ∈ A.stale.flatten, b.free = true) :
    A.Tiled heap live ↔ A.Gapless heap := by
  refine ⟨fun hT => hT.gapless, fun hg => ⟨hg, fun a ha => ?_⟩⟩
  obtain ⟨b, hb, hd, hf, -⟩ := hB.serves a ha
  rcases List.mem_append.mp hb with hb | hb
  · rw [hs b hb] at hf
    cases hf
  · exact ⟨b, hb, hd, hf⟩

-- ---------------------------------------------------------------------------
-- Which calls keep the tiling
-- ---------------------------------------------------------------------------

def Heap.finds (h : Heap) (s : Nat) : Prop :=
  ∃ last b, h.findBlock h.base s = some (last, b) ∧ b ≠ 0

def Heap.exhausted (h : Heap) (s : Nat) : Prop :=
  (h.sbrk (wadd 64 metaBlockSize s)).2 = sbrkFailed

/-- No block is added behind another one, nor above released space. -/
def Heap.mallocTiles (heap : Nat) (h : Heap) (n : Nat) : Prop :=
  h.finds (align4 n) ∨ h.exhausted (align4 n) ∨ h.base = 0 ∧ h.brk = heap

/-- The block is not the last one, or nothing but a free block is before it. -/
def Heap.freeTiles (h : Heap) (p : Nat) : Prop :=
  h.isAddrValid p = false ∨ h.get (getBlockAddr p) .next ≠ 0 ∨
    h.get (getBlockAddr p) .prev = 0 ∨
    h.get (h.get (getBlockAddr p) .prev) .free ≠ 0 ∧
      h.get (h.get (getBlockAddr p) .prev) .prev = 0

/-- Into a free block of the list, a move must not free the last one. Behind
the last block, it must free that one, or the one before a free last one. -/
def Heap.moveTiles (h : Heap) (p n : Nat) : Prop :=
  (h.finds (align4 n) → h.get (getBlockAddr p) .next ≠ 0 ∨ h.brk ≤ p) ∧
    (¬h.finds (align4 n) → h.exhausted (align4 n) ∨ h.get (getBlockAddr p) .next = 0 ∨
      h.get (h.get (getBlockAddr p) .next) .free ≠ 0 ∧
        h.get (h.get (getBlockAddr p) .next) .next = 0)

def Session.keepsTiling (heap : Nat) (s : Session) : Op → Prop
  | .kmalloc n => s.heap.mallocTiles heap n
  | .krealloc p n =>
    if p = 0 then s.heap.mallocTiles heap n
    else if n = 0 then s.heap.freeTiles p
    else s.heap.inPlace p n ∨ s.heap.moveTiles p n
  | .kfree p => s.heap.freeTiles p
  | .store _ _ => True

theorem finds_iff (hR : Refines heap h A) (s : Nat) :
    h.finds s ↔ (findSplit (fits s) A.chain).isSome = true := by
  have hfind := findBlock_eq hR s
  unfold Heap.finds
  rw [hfind]
  cases hf : findSplit (fits s) A.chain with
  | none => simp
  | some r =>
    obtain ⟨pre, b, post⟩ := r
    have hc := (findSplit_some hf).1
    have hb : b.addr ≠ 0 := hR.addr_ne (by simp [Arena.blocks, hc])
    simp [hb]

theorem exhausted_iff (hp : Placed heap) (hR : Refines heap h A) (hk : k ≤ heapSize) :
    h.exhausted k ↔ ¬A.brk + metaBlockSize + k ≤ heap + heapSize := by
  have hf : sbrkFailed = 18446744073709551615 := by decide
  have hs : heapSize = 16777216 := by decide
  have hle := hp.unwrapped hR hk
  have hm : metaBlockSize = 40 := rfl
  have hne : A.brk ≠ sbrkFailed := by omega
  unfold Heap.exhausted
  rw [sbrk_request hR hle]
  split <;> simp_all

theorem mallocTiles_iff (hp : Placed heap) (hR : Refines heap h A) (hg : A.Gapless heap)
    (hn : n ≤ heapSize) :
    (A.kmalloc (heap + heapSize) n).1.Gapless heap ↔ h.mallocTiles heap n := by
  rw [kmalloc_gapless hR.sited.pos hg, Heap.mallocTiles, finds_iff hR,
    exhausted_iff hp hR (align4_bounds hn).2, hR.rep.brk]
  have hbase : h.base = 0 ↔ A.chain = [] := by
    have := hR.base_ne
    tauto
  rw [hbase]

theorem isAddrValid_chain (hR : Refines heap h A) (hc : A.chain = pre ++ b :: post) :
    h.isAddrValid b.data = false ↔ A.brk ≤ b.data := by
  have hv := isAddrValid_iff hR (b := b) (by simp [Arena.blocks, hc])
  have hb : b ∈ A.chain := by simp [hc]
  rw [← Bool.not_eq_true, hv]
  simp [hb]

theorem before_iff (hR : Refines heap h A) (hc : A.chain = pre ++ b :: post)
    (ht : Tight 0 heap (pre ++ [b]) mid) :
    (h.get b.addr .prev = 0 ∨
      h.get (h.get b.addr .prev) .free ≠ 0 ∧ h.get (h.get b.addr .prev) .prev = 0) ↔
      pre = [] ∨ ∃ x, pre = [x] ∧ x.free = true := by
  obtain ⟨lo, -, -, hseg⟩ := hR.suffix hc
  rw [hseg.1.prev]
  rcases List.eq_nil_or_concat pre with rfl | ⟨pre, x, rfl⟩
  · exact iff_of_true (.inl ht.prev_last) (.inl rfl)
  · rw [List.concat_eq_append] at *
    have hne := ht.prev_ne hR.sited.pos (by simp)
    have hprev : b.prev = x.addr := by rw [ht.prev_last, lastAddr_concat]
    have hc' : A.chain = pre ++ x :: b :: post := by simp [hc]
    obtain ⟨_, -, -, hsegx⟩ := hR.suffix hc'
    obtain ⟨m, htx, -⟩ := tight_append.mp ht
    have hx : x.prev = 0 ↔ pre = [] := by
      constructor
      · intro h0
        by_contra hp
        exact htx.prev_ne hR.sited.pos hp h0
      · rintro rfl
        exact htx.prev_last
    rw [hprev] at hne ⊢
    rw [hsegx.1.free, hsegx.1.prev, hx]
    have hfree : x.free.toNat ≠ 0 ↔ x.free = true := by cases x.free <;> simp
    rw [hfree]
    constructor
    · rintro (h0 | ⟨hf, rfl⟩)
      · exact absurd h0 hne
      · exact .inr ⟨x, rfl, hf⟩
    · rintro (hnil | ⟨y, hy, hf⟩)
      · simp at hnil
      · obtain ⟨rfl, rfl⟩ : pre = [] ∧ x = y := by
          simpa [List.append_eq_singleton_iff] using hy
        exact .inr ⟨hf, rfl⟩

theorem freeTiles_iff (hR : Refines heap h A) (hg : A.Gapless heap)
    (hc : A.chain = pre ++ b :: post) :
    (A.kfree b.data).Gapless heap ↔ h.freeTiles b.data := by
  have ht := hg.tight (by simp [hc])
  rw [hc] at ht
  have hb : b ∈ A.blocks := by simp [Arena.blocks, hc]
  rw [kfree_gapless hR.sited.pos hR.ok hg hc, Heap.freeTiles, getBlockAddr, hR.block_addr hb,
    isAddrValid_chain hR hc, next_ne_zero hR hc, before_iff hR hc ht.upTo.1]

theorem after_iff (hR : Refines heap h A) (hc : A.chain = pre ++ b :: post) :
    (h.get b.addr .next = 0 ∨
      h.get (h.get b.addr .next) .free ≠ 0 ∧ h.get (h.get b.addr .next) .next = 0) ↔
      post = [] ∨ ∃ c, post = [c] ∧ c.free = true := by
  obtain ⟨lo, -, -, hseg⟩ := hR.suffix hc
  rw [hseg.1.next]
  cases post with
  | nil => exact iff_of_true (.inl rfl) (.inl rfl)
  | cons c rest =>
    have hcne : c.addr ≠ 0 := hR.addr_ne (by simp [Arena.blocks, hc])
    have hc' : A.chain = (pre ++ [b]) ++ c :: rest := by simp [hc]
    have hnext := next_ne_zero hR hc'
    have hfree : c.free.toNat ≠ 0 ↔ c.free = true := by cases c.free <;> simp
    rw [not_iff_not.symm, not_not, not_ne_iff] at hnext
    simp only [headAddr, hseg.2.1.free, hfree, hnext, hcne, false_or]
    constructor
    · rintro ⟨hf, rfl⟩
      exact .inr ⟨c, rfl, hf⟩
    · rintro (hnil | ⟨d, hd, hf⟩)
      · cases hnil
      · cases hd
        exact ⟨hf, rfl⟩

theorem moveTiles_iff (hp : Placed heap) (hR : Refines heap h A) (hg : A.Gapless heap)
    (hs : A.stale = []) (hc : A.chain = pre ++ b :: post) (hbf : b.free = false) (hn : n ≤ heapSize) :
    (A.move (heap + heapSize) b.data n).1.Gapless heap ↔ h.moveTiles b.data n := by
  have hpos := hR.sited.pos
  have hb : b ∈ A.blocks := by simp [Arena.blocks, hc]
  rw [Heap.moveTiles, getBlockAddr, hR.block_addr hb, finds_iff hR,
    exhausted_iff hp hR (align4_bounds hn).2, after_iff hR hc, next_ne_zero hR hc, hR.rep.brk]
  cases hf : findSplit (fits (align4 n)) A.chain with
  | some r =>
    have hsome : (findSplit (fits (align4 n)) A.chain).isSome = true := by rw [hf]; rfl
    have hq : (A.kmalloc (heap + heapSize) n).2 ≠ 0 := by
      rw [Arena.kmalloc_placed hf]
      exact Blk.data_ne _
    rw [Arena.move, if_neg hq]
    simp only [placed_kfree_gapless hpos hR.ok hg hs hc hbf hsome, Option.isSome_some,
      not_true_eq_false, false_implies, true_implies, and_true]
  | none =>
    simp only [Option.isSome_none, Bool.false_eq_true, not_false_eq_true, false_implies,
      true_implies, true_and]
    by_cases hfit : A.brk + metaBlockSize + align4 n ≤ heap + heapSize
    · have hq : (A.kmalloc (heap + heapSize) n).2 ≠ 0 := by
        rw [Arena.kmalloc_extended hf hfit rfl]
        exact Blk.data_ne _
      rw [Arena.move, if_neg hq]
      simp only [extended_kfree_gapless hpos hR.ok hg hc hf hfit, hfit, not_true_eq_false, false_or]
    · have hnull := Arena.kmalloc_full hf hfit
      rw [Arena.move, if_pos (by rw [hnull]), hnull]
      exact iff_of_true hg (.inl hfit)

theorem reallocTiles_iff (hp : Placed heap) (hR : Refines heap h A) (hg : A.Gapless heap)
    (hs : A.stale = []) (hc : A.chain = pre ++ b :: post) (hbf : b.free = false) (h0 : n ≠ 0)
    (hn : n ≤ heapSize) :
    (A.krealloc (heap + heapSize) b.data n).1.Gapless heap ↔
      h.inPlace b.data n ∨ h.moveTiles b.data n := by
  have hL : A.lists = A.stale ++ (pre ++ b :: post) :: [] := by rw [Arena.lists, hc]
  rw [inPlace_iff hR hL]
  rcases A.krealloc_cases hR.ok hL rfl h0 with
    ⟨hle, heq⟩ | ⟨c, rest, rfl, hcf, -, hle, heq⟩ | ⟨hlt, hno, heq⟩
  · rw [heq]
    exact iff_of_true (update_gapless hR.ok hg hc fun q lo ht => ht.cut) (.inl (.inl hle))
  · rw [heq]
    exact iff_of_true (update_gapless hR.ok hg hc fun q lo ht => ht.grow)
      (.inl (.inr ⟨c, rfl, hcf, hle⟩))
  · rw [heq, moveTiles_iff hp hR hg hs hc hbf hn]
    refine ⟨.inr, fun h => h.resolve_left ?_⟩
    rintro (hle | ⟨c, hc, hcs⟩)
    · omega
    · exact hno c hc hcs

-- ---------------------------------------------------------------------------
-- Steps and runs
-- ---------------------------------------------------------------------------

theorem tiled_split (hT : A.Tiled heap live) (hl : isLive live p = true) :
    ∃ pre b post, A.chain = pre ++ b :: post ∧ b.data = p ∧ b.free = false := by
  obtain ⟨a, ha, rfl⟩ := isLive_iff.mp hl
  obtain ⟨b, hb, hd, hf⟩ := hT.live a ha
  obtain ⟨pre, post, hc⟩ := List.append_of_mem hb
  exact ⟨pre, b, post, hc, hd, hf⟩

theorem kfree_tiling (hR : Refines heap h A) (hT : A.Tiled heap live) (hs : A.stale = [])
    (hp : p = 0 ∨ isLive live p = true) :
    ((A.kfree p).Gapless heap ↔ h.freeTiles p) ∧
      ∀ b ∈ (A.kfree p).stale.flatten, b.free = true := by
  rcases hp with rfl | hl
  · rw [A.kfree_null]
    refine ⟨iff_of_true hT.gapless (.inl ?_), by simp [hs]⟩
    simp [Heap.isAddrValid]
  · obtain ⟨pre, b, post, hc, rfl, -⟩ := tiled_split hT hl
    have ht := hT.gapless.tight (by simp [hc])
    rw [hc] at ht
    exact ⟨freeTiles_iff hR hT.gapless hc, kfree_stale hR.sited.pos hR.ok hc ht.upTo.1 hs⟩

theorem krealloc_tiling (hp : Placed heap) (hR : Refines heap h A) (hT : A.Tiled heap live)
    (hs : A.stale = []) (hl : isLive live p = true) (h0 : n ≠ 0) (hn : n ≤ heapSize) :
    ((A.krealloc (heap + heapSize) p n).1.Gapless heap ↔ h.inPlace p n ∨ h.moveTiles p n) ∧
      ∀ b ∈ (A.krealloc (heap + heapSize) p n).1.stale.flatten, b.free = true := by
  obtain ⟨pre, b, post, hc, rfl, hf⟩ := tiled_split hT hl
  refine ⟨reallocTiles_iff hp hR hT.gapless hs hc hf h0 hn, ?_⟩
  have hL : A.lists = A.stale ++ (pre ++ b :: post) :: [] := by rw [Arena.lists, hc]
  rcases A.krealloc_cases hR.ok hL rfl h0 with ⟨-, heq⟩ | ⟨c, rest, -, -, -, -, heq⟩ | ⟨-, -, heq⟩
  · rw [heq]
    simp [Arena.update, hs]
  · rw [heq]
    simp [Arena.update, hs]
  · rw [heq]
    exact move_stale hR.sited.pos hR.ok hT.gapless hs hc hf n

theorem call_tiling (hB : s.Backed heap A) (hT : A.Tiled heap s.live) (hs : A.stale = [])
    (ha : s.allows op = true) :
    ((A.call (heap + heapSize) op).1.Gapless heap ↔ s.keepsTiling heap op) ∧
      ∀ b ∈ (A.call (heap + heapSize) op).1.stale.flatten, b.free = true := by
  have hR := hB.refines
  have malloc : ∀ n, n ≤ heapSize →
      ((A.kmalloc (heap + heapSize) n).1.Gapless heap ↔ s.heap.mallocTiles heap n) ∧
        ∀ b ∈ (A.kmalloc (heap + heapSize) n).1.stale.flatten, b.free = true := fun n hn =>
    ⟨mallocTiles_iff hB.placed hR hT.gapless hn, by rw [A.kmalloc_stale, hs]; simp⟩
  cases op with
  | kmalloc n => exact malloc n (by simpa [Session.allows] using ha)
  | kfree p => exact kfree_tiling hR hT hs (by simpa [Session.allows] using ha)
  | store x v => exact ⟨iff_of_true hT.gapless trivial, by simp [Arena.call, hs]⟩
  | krealloc p n =>
    simp only [Session.allows, Bool.and_eq_true, decide_eq_true_eq, Bool.or_eq_true,
      beq_iff_eq] at ha
    obtain ⟨hn, hp⟩ := ha
    simp only [Arena.call, Session.keepsTiling]
    by_cases hp0 : p = 0
    · rw [if_pos hp0, Arena.krealloc, if_pos hp0]
      exact malloc n hn
    · rw [if_neg hp0]
      by_cases h0 : n = 0
      · rw [if_pos h0, Arena.krealloc, if_neg hp0, if_pos h0]
        exact kfree_tiling hR hT hs hp
      · rw [if_neg h0]
        exact krealloc_tiling hB.placed hR hT hs (hp.resolve_left hp0) h0 hn

theorem step_tiling (hB : ∃ A, s.Backed heap A) (hT : s.Tiled heap) (hstep : s.step op = some s') :
    s'.Tiled heap ↔ s.keepsTiling heap op := by
  obtain ⟨A, hB⟩ := hB
  have hTA := (tiled_iff hB).mp hT
  have hB₀ := hB.forget hTA
  have hT₀ := (tiled_iff hB₀).mp hT
  obtain ⟨s'', hs, hB', -, -⟩ := step_backed hB₀ (step_allows hstep)
  rw [hstep] at hs
  cases hs
  obtain ⟨hgap, hstale⟩ := call_tiling hB₀ hT₀ rfl (step_allows hstep)
  rw [tiled_iff hB', tiled_of_backs hB'.backs hstale, hgap]

theorem start_tiled (mem : Mem) (heap : Nat) : (Session.start mem heap).Tiled heap :=
  ⟨[], rfl, by simp, by simp, by simp [Session.start]⟩

/-- A session keeps the tiling exactly as long as its calls do. -/
theorem session_tiled_iff (hp : Placed heap)
    (hr : run Session.step (.start mem heap) ops = some s) :
    Always Session.step (Session.Tiled heap) (.start mem heap) ops ↔
      AllSteps Session.step (Session.keepsTiling heap) (.start mem heap) ops :=
  always_iff (fun s => ∃ A, s.Backed heap A) (fun _ _ _ => step_inv)
    (fun _ _ _ => step_tiling) ⟨_, start_backed hp mem⟩ (start_tiled mem heap) hr

/-- A block is cut in two, the second part is taken and the first freed. -/
theorem session_tiled_iff_cut :
    let ops := [Op.kmalloc 96, .krealloc 4136 8, .kmalloc 16, .kfree 4136]
    (∃ s, run Session.step (.start (fun _ => 0) 4096) ops = some s ∧
        s.heap.get 4096 .next = 4144 ∧ s.heap.get 4144 .prev = 4096) ∧
      Always Session.step (Session.Tiled 4096) (.start (fun _ => 0) 4096) ops := by
  intro ops
  have hrun : (run Session.step (.start (fun _ => 0) 4096) ops).map
      (fun s => (s.heap.get 4096 .next, s.heap.get 4144 .prev)) = some (4144, 4096) := by
    decide +kernel
  obtain ⟨s, hr, hlinks⟩ := Option.map_eq_some_iff.mp hrun
  refine ⟨⟨s, hr, Prod.mk.inj hlinks⟩, (session_tiled_iff ⟨by decide, by decide⟩ hr).mpr ?_⟩
  refine ⟨.inr (.inr ⟨rfl, rfl⟩), fun s₁ h₁ => ⟨.inl (.inl ?_), fun s₂ h₂ => ⟨.inl ⟨4096, 4144, ?_, ?_⟩,
    fun s₃ h₃ => ⟨.inr (.inl ?_), fun _ _ => trivial⟩⟩⟩⟩
  · obtain rfl := step_getD h₁
    decide +kernel
  · obtain rfl := step_getD h₁
    obtain rfl := step_getD h₂
    decide +kernel
  · decide
  · obtain rfl := step_getD h₁
    obtain rfl := step_getD h₂
    obtain rfl := step_getD h₃
    decide +kernel

/-- After two calls of `kmalloc` the second block's `prev` is still `NULL`. -/
theorem second_block_unlinked :
    ∃ s, run Session.step (.start (fun _ => 0) 4096) [.kmalloc 8, .kmalloc 8] = some s ∧
      ¬s.Tiled 4096 := by
  have hrun : (run Session.step (.start (fun _ => 0) 4096) [.kmalloc 8, .kmalloc 8]).map
      (fun s => (s.heap.base, s.heap.get 4096 .next, s.heap.get 4144 .prev)) =
        some (4096, 4144, 0) := by decide +kernel
  obtain ⟨s, hr, heq⟩ := Option.map_eq_some_iff.mp hrun
  simp only [Prod.mk.injEq] at heq
  obtain ⟨hbase, hnext, hprev⟩ := heq
  refine ⟨s, hr, ?_⟩
  rintro ⟨l, hT⟩
  have hchain := hT.chain
  rw [hbase] at hchain
  cases l with
  | nil => cases hchain
  | cons b rest =>
    obtain ⟨rfl, -, -⟩ := hchain
    have hb := (hT.borders 4096 List.mem_cons_self).next (by simp [hnext])
    rw [hnext, hprev] at hb
    cases hb.2

end

end TomatoOs.Kmem
