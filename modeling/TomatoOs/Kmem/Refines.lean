import TomatoOs.Kmem.Represents
import TomatoOs.Kmem.Grants

/-!
# The allocator refines the arena

From memory that represents an arena, each call of the allocator returns, and
leaves memory that represents the arena after the corresponding operation. No
walk runs out of fuel, and no sum of addresses in the heap wraps. That `sbrk`
judges a request rightly is a condition on it (`Answered`); a heap that is placed
low enough for one more request of its own size meets it.
-/

namespace TomatoOs.Kmem

open Lib

/-- Where the linker script may put the heap array. -/
structure Placed (heap : Nat) : Prop where
  pos : 0 < heap
  room : heap + heapSize + heapSize + metaBlockSize < 2 ^ 64

structure Sited (heap : Nat) : Prop where
  pos : 0 < heap
  room : heap + heapSize < 2 ^ 64

theorem Placed.sited (hp : Placed heap) : Sited heap :=
  ⟨hp.pos, by have := hp.room; omega⟩

/-- Memory and arena between two calls. -/
structure Refines (heap : Nat) (h : Heap) (A : Arena) : Prop where
  sited : Sited heap
  ok : A.Ok heap (heap + heapSize)
  rep : Rep h A
  endp : h.endp = heap + heapSize

/-- Headers at `as` do not meet the data of the blocks in use, that at `p`
apart. -/
def Spares (as : List Nat) (p : Nat) (l : List Blk) : Prop :=
  ∀ b ∈ l, b.free = false → b.data ≠ p → ∀ a ∈ as, Apart a metaBlockSize b.data b.size

-- ---------------------------------------------------------------------------
-- Spared data
-- ---------------------------------------------------------------------------

theorem Ordered.apart_data (ho : Ordered lo l hi) (hb : b ∈ l) (hc : c ∈ l) :
    Apart c.addr metaBlockSize b.data b.size := by
  rcases ho.apart hb hc with rfl | h | h
  · exact .inl (Nat.le_refl _)
  · exact .inr h
  · unfold Blk.fin at h
    exact .inl (by unfold Blk.data; omega)

theorem Ordered.data_apart (ho : Ordered lo l hi) (hb : b ∈ l) (hc : c ∈ l) (hne : b.data ≠ c.data) :
    Apart b.data b.size c.data c.size := by
  rcases ho.apart hb hc with rfl | h | h
  · exact absurd rfl hne
  all_goals
    unfold Blk.fin at h
    unfold Apart Blk.data
    omega

theorem Ordered.spares (ho : Ordered lo l hi) (p : Nat) : Spares (l.map Blk.addr) p l := by
  intro b hb _ _ a ha
  obtain ⟨c, hc, rfl⟩ := List.mem_map.mp ha
  exact ho.apart_data hb hc

theorem Spares.keeps (hs : Spares as p l') (hk : Keeps p l l') : Spares as p l := by
  intro b hb hf hp a ha
  obtain ⟨b', hb', haddr, hsize, hf'⟩ := hk b hb hf hp
  have hp' : b'.data ≠ p := by simpa [Blk.data, haddr] using hp
  have := hs b' hb' hf' hp' a ha
  simpa [Blk.data, haddr, hsize] using this

theorem Spares.append (h₁ : Spares as p l) (h₂ : Spares as' p l) : Spares (as ++ as') p l := by
  intro b hb hf hp a ha
  rcases List.mem_append.mp ha with ha | ha
  · exact h₁ b hb hf hp a ha
  · exact h₂ b hb hf hp a ha

/-- A step between two arenas in order that only writes headers of the one or
the other spares the blocks that it keeps. -/
theorem spares_step (ho : Ordered lo l hi) (ho' : Ordered lo' l' hi') (hk : Keeps p l l') :
    Spares ((l ++ l').map Blk.addr) p l := by
  rw [List.map_append]
  exact (ho.spares p).append ((ho'.spares p).keeps hk)

-- ---------------------------------------------------------------------------
-- Arithmetic of a request
-- ---------------------------------------------------------------------------

theorem align4_eq (hn : n + 4 ≤ 2 ^ 64) : align4 n = (n + 3) / 4 * 4 := by
  rcases Nat.eq_zero_or_pos n with rfl | hpos
  · decide
  · rw [align4, wsub_eq hpos (by omega), wadd_eq (by omega)]
    omega

theorem align4_bounds (hn : n ≤ heapSize) : n ≤ align4 n ∧ align4 n ≤ heapSize := by
  have hs : heapSize = 16777216 := by decide
  rw [align4_eq (by omega)]
  omega

-- ---------------------------------------------------------------------------
-- Replacing a stretch of one list
-- ---------------------------------------------------------------------------

theorem Arena.lists_getLast (A : Arena) : A.lists.getLast? = some A.chain := by
  simp [Arena.lists]

theorem Arena.headAddr_chain {A A' : Arena} (hL : A.lists = L₁ ++ l :: L₂)
    (hL' : A'.lists = L₁ ++ l' :: L₂) (hh : headAddr l' 0 = headAddr l 0) :
    headAddr A'.chain 0 = headAddr A.chain 0 := by
  have hc := A.lists_getLast
  have hc' := A'.lists_getLast
  rw [hL] at hc
  rw [hL'] at hc'
  rcases List.eq_nil_or_concat L₂ with rfl | ⟨L, z, rfl⟩
  · simp only [List.getLast?_append, List.getLast?_singleton, Option.some_or, Option.some.injEq]
      at hc hc'
    rw [← hc, ← hc', hh]
  · simp only [List.concat_eq_append, List.getLast?_append, List.getLast?_cons, Option.some_or,
      Option.getD_some, Option.some.injEq] at hc hc'
    rw [← hc, ← hc']

theorem Rep.replace {A A' : Arena} (hR : Rep h A) (hA : A.Ok heap endp)
    (hL : A.lists = L₁ ++ (pre ++ l) :: L₂) (hL' : A'.lists = L₁ ++ (pre ++ l') :: L₂)
    (hbrk : A'.brk = A.brk) (hr : Refits l l') (hh : headAddr l' 0 = headAddr l 0)
    (hseg : Seg h' l' 0) (hw : Writes ((l ++ l').map Blk.addr) h h') : Rep h' A' := by
  have ho := hA.ordered
  rw [A.blocks_eq, hL] at ho
  simp only [List.flatten_append, List.flatten_cons, List.append_assoc] at ho
  obtain ⟨m₁, ho₁, ho⟩ := ordered_append.mp ho
  obtain ⟨m₂, hopre, ho⟩ := ordered_append.mp ho
  obtain ⟨m₃, hol, ho₂⟩ := ordered_append.mp ho
  have hol' := hr _ _ hol
  -- every header written lies in the space of the replaced stretch
  have hin : ∀ a ∈ (l ++ l').map Blk.addr, m₂ ≤ a ∧ a + metaBlockSize ≤ m₃ := by
    intro a ha
    obtain ⟨c, hc, rfl⟩ := List.mem_map.mp ha
    have hc : m₂ ≤ c.addr ∧ c.fin ≤ m₃ := by
      rcases List.mem_append.mp hc with hc | hc
      · exact hol.mem hc
      · exact hol'.mem hc
    unfold Blk.fin at hc
    omega
  have before : ∀ c : Blk, c.fin ≤ m₂ → ∀ a ∈ (l ++ l').map Blk.addr, Clear a c.addr := by
    intro c hc a ha
    have := hin a ha
    unfold Blk.fin at hc
    exact .inr (by omega)
  have after : ∀ c : Blk, m₃ ≤ c.addr → ∀ a ∈ (l ++ l').map Blk.addr, Clear a c.addr := by
    intro c hc a ha
    have := hin a ha
    exact .inl (by omega)
  refine ⟨hw.brk.trans (hR.brk.trans hbrk.symm), ?_, ?_⟩
  · rw [hw.base, hR.base, A.headAddr_chain hL hL']
    rw [headAddr_append, headAddr_append, hh]
  · have hseg₀ := hR.lists
    rw [hL] at hseg₀
    rw [hL']
    intro m hm
    rcases List.mem_append.mp hm with hm | hm
    · refine (hseg₀ m (List.mem_append_left _ hm)).frame hw.toStores fun c hc => before c ?_
      have := (ho₁.mem (List.mem_flatten.mpr ⟨m, hm, hc⟩)).2
      exact Nat.le_trans this hopre.le
    · rcases List.mem_cons.mp hm with rfl | hm
      · have hs := seg_append.mp (hseg₀ (pre ++ l) (by simp))
        refine seg_append.mpr ⟨?_, hseg⟩
        rw [hh]
        exact hs.1.frame hw.toStores fun c hc => before c (hopre.mem hc).2
      · refine (hseg₀ m (by simp [hm])).frame hw.toStores fun c hc => after c ?_
        exact (ho₂.mem (List.mem_flatten.mpr ⟨m, hm, hc⟩)).1

-- ---------------------------------------------------------------------------
-- kmalloc
-- ---------------------------------------------------------------------------

section
variable {heap : Nat} {h : Heap} {A : Arena}

theorem Refines.lt (hR : Refines heap h A) : A.brk < 2 ^ 64 := by
  have := hR.sited.room
  have := hR.ok.brk_le
  omega

theorem Refines.chain_ordered (hR : Refines heap h A) : ∃ lo, heap ≤ lo ∧ Ordered lo A.chain A.brk := by
  obtain ⟨mid, ho, hoc⟩ := ordered_append.mp hR.ok.ordered
  exact ⟨mid, ho.le, hoc⟩

theorem Refines.chain_seg (hR : Refines heap h A) : Seg h A.chain 0 :=
  hR.rep.lists A.chain (by simp [Arena.lists])

theorem Refines.fuel (hR : Refines heap h A) : A.chain.length < walkFuel := by
  obtain ⟨lo, hlo, ho⟩ := hR.chain_ordered
  have hlen := ho.length_le
  rw [show metaBlockSize = 40 from rfl] at hlen
  have := hR.ok.brk_le
  have : walkFuel = heapSize := rfl
  have : heapSize = 16777216 := by decide
  omega

theorem Refines.base_ne (hR : Refines heap h A) : h.base ≠ 0 ↔ A.chain ≠ [] := by
  obtain ⟨lo, hlo, ho⟩ := hR.chain_ordered
  have hpos := hR.sited.pos
  rw [hR.rep.base]
  cases hc : A.chain with
  | nil => simp [headAddr]
  | cons b rest =>
    rw [hc] at ho
    have := ho.1
    simp only [headAddr, ne_eq, reduceCtorEq, not_false_eq_true, iff_true]
    omega

theorem sbrk_request (hR : Refines heap h A) (hs : A.brk + metaBlockSize + s < 2 ^ 64) :
    h.sbrk (wadd 64 metaBlockSize s) =
      if A.brk + metaBlockSize + s ≤ heap + heapSize then
        ({ h with brk := A.brk + metaBlockSize + s }, A.brk)
      else (h, sbrkFailed) := by
  have hm : metaBlockSize = 40 := rfl
  rw [wadd_eq (a := metaBlockSize) (by omega)]
  have hadd : wadd 64 A.brk (metaBlockSize + s) = A.brk + metaBlockSize + s := by
    rw [wadd_eq (by omega), Nat.add_assoc]
  have hne : metaBlockSize + s ≠ 0 := by omega
  simp only [Heap.sbrk, hne, ↓reduceIte, hR.rep.brk, hadd, hR.endp]
  split
  · rw [if_neg (by omega)]
  · rw [if_pos (by omega)]

/-- A listed free block serves the request, or `sbrk` judges it as exact
arithmetic does. -/
def Answered (heap : Nat) (h : Heap) (A : Arena) (n : Nat) : Prop :=
  (findSplit (fits (align4 n)) A.chain).isSome = true ∨
    A.brk + metaBlockSize + align4 n ≤ heap + heapSize ∨
    h.sbrk (wadd 64 metaBlockSize (align4 n)) = (h, sbrkFailed)

theorem Placed.unwrapped (hp : Placed heap) (hR : Refines heap h A) (hs : s ≤ heapSize) :
    A.brk + metaBlockSize + s < 2 ^ 64 := by
  have := hp.room
  have := hR.ok.brk_le
  omega

theorem Placed.answered (hp : Placed heap) (hR : Refines heap h A) (hn : n ≤ heapSize) :
    Answered heap h A n := by
  have hreq := sbrk_request hR (hp.unwrapped hR (align4_bounds hn).2)
  by_cases hfit : A.brk + metaBlockSize + align4 n ≤ heap + heapSize
  · exact .inr (.inl hfit)
  · rw [if_neg hfit] at hreq
    exact .inr (.inr hreq)

def Heap.header (h : Heap) (b : Blk) : Heap :=
  ((((h.set b.addr .size b.size).set b.addr .free b.free.toNat).set b.addr .next 0).set
    b.addr .prev b.prev).set b.addr .ptr b.data

theorem header_writes (hb : b.addr ∈ as) : Writes as h (h.header b) :=
  ((((writes_set hb).set hb).set hb).set hb).set hb

theorem extendHeap_eq (hR : Refines heap h A) (last : Nat)
    (hfit : A.brk + metaBlockSize + s ≤ heap + heapSize) :
    let b : Blk := { addr := A.brk, size := s, free := false, prev := 0 }
    let h₁ := Heap.header { h with brk := b.fin } b
    h.extendHeap last s = (if last ≠ 0 then h₁.set last .next b.addr else h₁, A.brk) := by
  have hroom := hR.sited.room
  have hf : sbrkFailed = 18446744073709551615 := by decide
  have hm : metaBlockSize = 40 := rfl
  have hne : A.brk ≠ sbrkFailed := by omega
  have hdata : wadd 64 A.brk metaBlockSize = A.brk + metaBlockSize := wadd_eq (by omega)
  have hold : h.sbrk 0 = (h, A.brk) := by simp [Heap.sbrk, hR.rep.brk]
  simp only [Heap.extendHeap, hold, sbrk_request hR (s := s) (by omega), hfit, ↓reduceIte, hne,
    hdata]
  split <;> rfl

theorem extendHeap_fail (hfail : h.sbrk (wadd 64 metaBlockSize s) = (h, sbrkFailed)) (last : Nat) :
    h.extendHeap last s = (h, 0) := by
  have hold : h.sbrk 0 = (h, h.brk) := by simp [Heap.sbrk]
  simp [Heap.extendHeap, hold, hfail]

/-- A call that returned: the arena's result, memory that represents the
arena's new state, and header stores to blocks of either state only. -/
structure Returns (heap : Nat) (h : Heap) (A : Arena) (h' : Heap) (A' : Arena) : Prop where
  refines : Refines heap h' A'
  stores : Stores ((A.blocks ++ A'.blocks).map Blk.addr) h h'

theorem stores_globals (as : List Nat) (hm : h'.mem = h.mem) (hl : h'.log = h.log)
    (he : h'.endp = h.endp) : Stores as h h' :=
  ⟨he, ⟨[], hl, by simp⟩, fun x _ => by rw [hm]⟩

theorem Refines.returns_self (hR : Refines heap h A) : Returns heap h A h A :=
  ⟨hR, stores_globals _ rfl rfl rfl⟩

theorem Refines.replace {A' : Arena} (hR : Refines heap h A)
    (hL : A.lists = L₁ ++ (pre ++ l) :: L₂) (hL' : A'.lists = L₁ ++ (pre ++ l') :: L₂)
    (hbrk : A'.brk = A.brk) (hr : Refits l l') (hh : headAddr l' 0 = headAddr l 0)
    (hok : A'.Ok heap (heap + heapSize))
    (hseg : Seg h' l' 0) (hw : Writes ((l ++ l').map Blk.addr) h h') : Returns heap h A h' A' := by
  refine ⟨⟨hR.sited, hok, hR.rep.replace hR.ok hL hL' hbrk hr hh hseg hw, ?_⟩, ?_⟩
  · exact hw.endp.trans hR.endp
  · refine hw.toStores.mono fun a ha => ?_
    rw [A.blocks_eq, A'.blocks_eq, hL, hL']
    simp only [List.map_append, List.mem_append, List.flatten_append, List.flatten_cons] at ha ⊢
    tauto

theorem seg_head_free (hs : Seg h (b :: rest) 0) (ho : Ordered lo (b :: rest) hi)
    (hv : v = x.toNat) : Seg (h.set b.addr .free v) ({ b with free := x } :: rest) 0 := by
  subst hv
  exact ⟨hs.1.set_free x, hs.2.frame_set fun _ hc => ho.clear hc⟩

theorem cut_head (b : Blk) (s : Nat) (rest : List Blk) :
    ∃ b₀ rest₀, b₀.addr = b.addr ∧ cut b s rest = b₀ :: rest₀ ∧
      ∀ x, cut { b with free := x } s rest = { b₀ with free := x } :: rest₀ := by
  by_cases hroom : metaBlockSize + 4 ≤ b.size - s
  · exact ⟨{ b with size := s }, b.remainder s :: setPrev (b.data + s) rest, rfl,
      by simp [cut, hroom], fun x => by simp [cut, hroom, Blk.remainder, Blk.data]⟩
  · exact ⟨b, rest, rfl, by simp [cut, hroom], fun x => by simp [cut, hroom]⟩

theorem place_refines (hR : Refines heap h A) (hc : A.chain = pre ++ b :: post) (hs : s ≤ b.size) :
    Returns heap h A ((h.splitIfRoom b.addr s).set b.addr .free 0)
      { A with chain := pre ++ cut { b with free := false } s post } := by
  obtain ⟨lo, hlo, ho⟩ := hR.chain_ordered
  rw [hc] at ho
  obtain ⟨mid, -, ho⟩ := ordered_append.mp ho
  have hseg := hR.chain_seg
  rw [hc] at hseg
  obtain ⟨hcut, hw⟩ := seg_splitIfRoom (seg_append.mp hseg).2 ho hR.lt hs
  obtain ⟨b₀, rest₀, haddr, hcons, hflag⟩ := cut_head b s post
  have hoc := refits_cut b s post _ _ ho
  rw [hcons] at hcut hoc
  rw [hflag false]
  have hL : A.lists = A.stale ++ (pre ++ b :: post) :: [] := by rw [Arena.lists, hc]
  have hr : Refits (b :: post) ({ b₀ with free := false } :: rest₀) := by
    rw [← hflag false]
    exact (refits_flags b false b.prev post).trans (refits_cut _ s post)
  refine hR.replace hL rfl rfl hr haddr ?_ ?_ ?_
  · refine hR.ok.replace hc hr fun q hq => ?_
    rw [← hflag false]
    exact Linked.cut (b := { b with free := false }) hq
  · have hfree := seg_head_free (v := 0) (x := false) hcut hoc rfl
    rw [haddr] at hfree ⊢
    exact hfree
  · rw [hcons] at hw
    refine (hw.mono fun a ha => ?_).set (by simp)
    rw [List.map_append]
    exact List.mem_append_right _ ha

theorem header_lists (hR : Refines heap h A)
    (hfit : A.brk + metaBlockSize + s ≤ heap + heapSize)
    (hb : b = { addr := A.brk, size := s, free := false, prev := 0 }) :
    Holds (Heap.header { h with brk := b.fin } b) b 0 ∧
      ∀ l ∈ A.lists, Seg (Heap.header { h with brk := b.fin } b) l 0 := by
  have hroom := hR.sited.room
  have hle := hR.ok.brk_le
  have hm : metaBlockSize = 40 := rfl
  constructor
  · subst hb
    refine holds_extended ?_ (by decide) (Nat.two_pow_pos 64) ?_ <;> simp only [Blk.data] <;> omega
  · intro l hl
    have hseg : Seg { h with brk := b.fin } l 0 := (hR.rep.lists l hl).congr fun _ _ _ => rfl
    have hw : Writes [b.addr] { h with brk := b.fin } (Heap.header { h with brk := b.fin } b) :=
      header_writes (by simp)
    refine hseg.frame hw.toStores fun c hc a ha => ?_
    obtain rfl := List.mem_singleton.mp ha
    have hmem : c ∈ A.blocks := by
      rw [A.blocks_eq]
      exact List.mem_flatten.mpr ⟨l, hl, hc⟩
    have := (hR.ok.ordered.mem hmem).2
    subst hb
    unfold Blk.fin at this
    exact .inr (by simp only; omega)

theorem extend_last_refines (hR : Refines heap h A)
    (hfit : A.brk + metaBlockSize + s ≤ heap + heapSize) (hc : A.chain = pre ++ [x])
    (hb : b = { addr := A.brk, size := s, free := false, prev := 0 }) :
    Returns heap h A ((Heap.header { h with brk := b.fin } b).set x.addr .next b.addr)
      { A with chain := A.chain ++ [b], brk := b.fin } := by
  obtain ⟨hnew, hlists⟩ := header_lists hR hfit hb
  have ho := hR.ok.ordered
  have hlt := hR.lt
  rw [Arena.blocks, hc, ← List.append_assoc] at ho
  have hx := (ho.mem (b := x) (by simp)).2
  have hclear : Clear x.addr b.addr := by
    subst hb
    unfold Blk.fin at hx
    exact .inl (by simp only; omega)
  have hbefore : ∀ c ∈ A.stale.flatten ++ pre, Clear x.addr c.addr := by
    intro c hc
    have := ho.before hc
    unfold Blk.fin at this
    exact .inr (by omega)
  refine ⟨⟨hR.sited, ?_, ⟨rfl, ?_, ?_⟩, hR.endp⟩, ?_⟩
  · subst hb
    exact hR.ok.extend hfit
  · show h.base = _
    rw [hR.rep.base, headAddr_append, hc, headAddr_append, headAddr_append]
    rfl
  · intro l hl
    rcases List.mem_append.mp hl with hl | hl
    · refine (hlists l (List.mem_append_left _ hl)).frame_set fun c hcl => hbefore c ?_
      exact List.mem_append_left _ (List.mem_flatten.mpr ⟨l, hl, hcl⟩)
    · obtain rfl := List.mem_singleton.mp hl
      have hseg := hlists A.chain (by simp [Arena.lists])
      simp only [hc] at hseg ⊢
      obtain ⟨hpre, hx₁, -⟩ := seg_append.mp hseg
      refine seg_append.mpr ⟨seg_append.mpr ⟨?_, ?_, trivial⟩, hnew.frame hclear, trivial⟩
      · exact hpre.frame_set fun c hcl => hbefore c (List.mem_append_right _ hcl)
      · refine hx₁.set_next ?_
        subst hb
        exact hlt
  · have hglob : Stores ((A.blocks ++ (A.stale.flatten ++ (A.chain ++ [b]))).map Blk.addr) h
        { h with brk := b.fin } := stores_globals _ rfl rfl rfl
    refine hglob.trans (((header_writes ?_).set ?_).toStores)
    · simp
    · simp [hc]

theorem extend_first_refines (hR : Refines heap h A)
    (hfit : A.brk + metaBlockSize + s ≤ heap + heapSize) (hc : A.chain = [])
    (hb : b = { addr := A.brk, size := s, free := false, prev := 0 }) :
    Returns heap h A { Heap.header { h with brk := b.fin } b with base := b.addr }
      { A with chain := A.chain ++ [b], brk := b.fin } := by
  obtain ⟨hnew, hlists⟩ := header_lists hR hfit hb
  refine ⟨⟨hR.sited, ?_, ⟨rfl, ?_, ?_⟩, hR.endp⟩, ?_⟩
  · subst hb
    exact hR.ok.extend hfit
  · simp [hc, headAddr]
  · intro l hl
    rcases List.mem_append.mp hl with hl | hl
    · exact (hlists l (List.mem_append_left _ hl)).congr fun _ _ _ => rfl
    · obtain rfl := List.mem_singleton.mp hl
      simp only [hc, List.nil_append]
      exact ⟨hnew.congr fun _ => rfl, trivial⟩
  · have hglob : Stores ((A.blocks ++ (A.stale.flatten ++ (A.chain ++ [b]))).map Blk.addr) h
        { h with brk := b.fin } := stores_globals _ rfl rfl rfl
    refine (hglob.trans (header_writes ?_).toStores).trans (stores_globals _ rfl rfl rfl)
    simp

theorem Refines.data_eq (hR : Refines heap h A) (hb : b ∈ A.blocks) :
    wadd 64 b.addr metaBlockSize = b.data := by
  have := hR.lt
  have := (hR.ok.ordered.mem hb).2
  unfold Blk.fin at this
  exact wadd_eq (by omega)

theorem findBlock_eq (hR : Refines heap h A) (s : Nat) :
    h.findBlock h.base s = match findSplit (fits s) A.chain with
      | some (pre, b, _) => some (lastAddr h.base pre, b.addr)
      | none => some (lastAddr h.base A.chain, 0) := by
  obtain ⟨lo, hlo, ho⟩ := hR.chain_ordered
  have hpos := hR.sited.pos
  have hfind := findLoop_eq (s := s) hR.chain_seg ho (by omega) hR.fuel h.base
  rw [← hR.rep.base] at hfind
  exact hfind

theorem Refines.addr_ne (hR : Refines heap h A) (hb : b ∈ A.blocks) : b.addr ≠ 0 := by
  have := (hR.ok.ordered.mem hb).1
  have := hR.sited.pos
  omega

theorem Refines.brk_ne (hR : Refines heap h A) : A.brk ≠ 0 := by
  have := hR.ok.ordered.le
  have := hR.sited.pos
  omega

theorem Refines.brk_data (hR : Refines heap h A)
    (hfit : A.brk + metaBlockSize + s ≤ heap + heapSize) :
    wadd 64 A.brk metaBlockSize = A.brk + metaBlockSize := by
  have := hR.sited.room
  exact wadd_eq (by omega)

theorem kmalloc_found (hR : Refines heap h A) (hbase : h.base ≠ 0)
    (hf : findSplit (fits (align4 n)) A.chain = some (pre, b, post)) :
    h.kmalloc n = some ((h.splitIfRoom b.addr (align4 n)).set b.addr .free 0, b.data) := by
  obtain ⟨hc, -, -⟩ := findSplit_some hf
  have hmem : b ∈ A.blocks := by simp [Arena.blocks, hc]
  have hfind := findBlock_eq hR (align4 n)
  simp only [hf] at hfind
  simp only [Heap.kmalloc, hbase, hfind, Option.map_some, hR.addr_ne hmem, ne_eq,
    not_false_eq_true, ↓reduceIte, hR.data_eq hmem]

theorem kmalloc_unfound (hR : Refines heap h A) (hc : A.chain = pre ++ [x])
    (hf : findSplit (fits (align4 n)) A.chain = none)
    (hext : h.extendHeap x.addr (align4 n) = (h', a)) :
    h.kmalloc n = some (h', if a = 0 then 0 else wadd 64 a metaBlockSize) := by
  have hbase : h.base ≠ 0 := hR.base_ne.mpr (by simp [hc])
  have hfind := findBlock_eq hR (align4 n)
  have hlast : lastAddr h.base A.chain = x.addr := by rw [hc, lastAddr_concat]
  simp only [hf, hlast] at hfind
  simp only [Heap.kmalloc, hbase, hfind, Option.map_some, ne_eq, not_false_eq_true,
    not_true_eq_false, ↓reduceIte, hext]
  split <;> rfl

theorem kmalloc_empty (hbase : h.base = 0) (hext : h.extendHeap 0 (align4 n) = (h', a)) :
    h.kmalloc n =
      some (if a = 0 then (h', 0) else ({ h' with base := a }, wadd 64 a metaBlockSize)) := by
  simp only [Heap.kmalloc, hbase, ne_eq, not_true_eq_false, ↓reduceIte, hext]
  split <;> rfl

theorem kmalloc_refines (hR : Refines heap h A) (ha : Answered heap h A n) :
    ∃ h', h.kmalloc n = some (h', (A.kmalloc (heap + heapSize) n).2) ∧
      Returns heap h A h' (A.kmalloc (heap + heapSize) n).1 := by
  cases hf : findSplit (fits (align4 n)) A.chain with
  | some r =>
    obtain ⟨pre, b, post⟩ := r
    obtain ⟨hc, hb, -⟩ := findSplit_some hf
    have hbase : h.base ≠ 0 := hR.base_ne.mpr (by simp [hc])
    have hsz : align4 n ≤ b.size := by simp [fits] at hb; exact hb.2
    rw [kmalloc_found hR hbase hf, Arena.kmalloc_placed hf]
    exact ⟨_, rfl, place_refines hR hc hsz⟩
  | none =>
    simp only [Answered, hf, Option.isSome_none, Bool.false_eq_true, false_or] at ha
    rcases List.eq_nil_or_concat A.chain with hc | ⟨pre, x, hc⟩
    · have hbase : h.base = 0 := by
        by_contra hne
        exact hR.base_ne.mp hne hc
      by_cases hfit : A.brk + metaBlockSize + align4 n ≤ heap + heapSize
      · have hext := extendHeap_eq hR 0 hfit
        simp only [ne_eq, not_true_eq_false, ↓reduceIte] at hext
        rw [kmalloc_empty hbase hext, Arena.kmalloc_extended hf hfit rfl, if_neg hR.brk_ne,
          hR.brk_data hfit]
        exact ⟨_, rfl, extend_first_refines hR hfit hc rfl⟩
      · rw [kmalloc_empty hbase (extendHeap_fail (ha.resolve_left hfit) 0), Arena.kmalloc_full hf hfit]
        exact ⟨h, rfl, hR.returns_self⟩
    · rw [List.concat_eq_append] at hc
      have hx : x.addr ≠ 0 := hR.addr_ne (by simp [Arena.blocks, hc])
      by_cases hfit : A.brk + metaBlockSize + align4 n ≤ heap + heapSize
      · have hext := extendHeap_eq hR x.addr hfit
        simp only [hx, ne_eq, not_false_eq_true, ↓reduceIte] at hext
        rw [kmalloc_unfound hR hc hf hext, Arena.kmalloc_extended hf hfit rfl, if_neg hR.brk_ne,
          hR.brk_data hfit]
        exact ⟨_, rfl, extend_last_refines hR hfit hc rfl⟩
      · rw [kmalloc_unfound hR hc hf (extendHeap_fail (ha.resolve_left hfit) x.addr),
          Arena.kmalloc_full hf hfit]
        exact ⟨h, rfl, hR.returns_self⟩

end

end TomatoOs.Kmem
