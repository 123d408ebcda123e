import TomatoOs.Kmem.Requests

/-!
# When free blocks are merged

`kfree` merges a block with its successor, and with its predecessor if `prev`
names it. Two free blocks come to lie side by side where `prev` was never set,
and where `krealloc` cuts off the rest of a block in front of a free one.
`session_coalesced_iff` says which calls do so, in terms of the headers they find.
-/

namespace TomatoOs.Kmem

open Lib

def Coalesced (l : List Blk) : Prop := l.IsChain fun b c => b.free = false ∨ c.free = false

def FreeEnd (l : List Blk) : Prop := ∃ x ∈ l.getLast?, x.free = true

def FreeHead (l : List Blk) : Prop := ∃ c ∈ l.head?, c.free = true

def Severed (pre : List Blk) (b : Blk) : Prop := b.prev = 0 ∧ FreeEnd pre

-- ---------------------------------------------------------------------------
-- Lists of blocks
-- ---------------------------------------------------------------------------

theorem coalesced_nil : Coalesced [] := List.isChain_nil

theorem coalesced_cons_used (hb : b.free = false) : Coalesced (b :: post) ↔ Coalesced post := by
  simp [Coalesced, List.isChain_cons, hb]

theorem coalesced_cons_free (hb : b.free = true) :
    Coalesced (b :: post) ↔ Coalesced post ∧ ¬FreeHead post := by
  simp only [Coalesced, FreeHead, List.isChain_cons, hb, Bool.true_eq_false, false_or, not_exists,
    not_and, Bool.not_eq_true]
  exact and_comm

theorem coalesced_used (hb : b.free = false) :
    Coalesced (pre ++ b :: post) ↔ Coalesced pre ∧ Coalesced post := by
  simp [Coalesced, List.isChain_append, List.isChain_cons, hb]

theorem coalesced_free (hb : b.free = true) :
    Coalesced (pre ++ b :: post) ↔
      (Coalesced pre ∧ ¬FreeEnd pre) ∧ Coalesced post ∧ ¬FreeHead post := by
  rw [← coalesced_cons_free hb]
  simp only [Coalesced, FreeEnd, List.isChain_append, hb, List.head?_cons, Option.mem_some_iff,
    forall_eq', Bool.true_eq_false, or_false, not_exists, not_and, Bool.not_eq_true]
  tauto

theorem coalesced_setPrev : Coalesced (setPrev p l) ↔ Coalesced l := by
  cases l with
  | nil => exact .rfl
  | cons c rest => simp [Coalesced, setPrev, List.isChain_cons]

theorem freeHead_setPrev : FreeHead (setPrev p l) ↔ FreeHead l := by
  cases l <;> simp [FreeHead, setPrev]

theorem freeEnd_concat : FreeEnd (l ++ [x]) ↔ x.free = true := by
  simp [FreeEnd]

theorem freeEnd_append (pre : List Blk) (hl : l ≠ []) : FreeEnd (pre ++ l) ↔ FreeEnd l := by
  rcases List.eq_nil_or_concat l with rfl | ⟨m, x, rfl⟩
  · exact absurd rfl hl
  · rw [List.concat_eq_append, ← List.append_assoc, freeEnd_concat, freeEnd_concat]

theorem coalesced_cut (hb : b.free = false) (hC : Coalesced (pre ++ b :: post)) (s : Nat) :
    Coalesced (pre ++ cut b s post) ↔ (metaBlockSize + 4 ≤ b.size - s → ¬FreeHead post) := by
  obtain ⟨hpre, hpost⟩ := (coalesced_used hb).mp hC
  unfold cut
  split
  · rename_i hroom
    rw [coalesced_used (b := { b with size := s }) hb, coalesced_cons_free rfl, coalesced_setPrev,
      freeHead_setPrev]
    simp [hpre, hpost, hroom]
  · rename_i hroom
    exact iff_of_true hC fun h => absurd h hroom

theorem coalesced_grow (hb : b.free = false) (hc : c.free = true)
    (hC : Coalesced (pre ++ b :: c :: rest)) (s : Nat) :
    Coalesced (pre ++ grow s b (c :: rest)) := by
  obtain ⟨hpre, hrest⟩ := (coalesced_used hb).mp hC
  obtain ⟨hrest, hhead⟩ := (coalesced_cons_free hc).mp hrest
  have hjoin : (b.join c).free = false := hb
  refine (coalesced_cut hjoin ?_ s).mpr fun _ => ?_
  · exact (coalesced_used hjoin).mpr ⟨hpre, coalesced_setPrev.mpr hrest⟩
  · rwa [freeHead_setPrev]

theorem coalesced_mergeNext (hb : b.free = true) (hpre : Coalesced pre) (hpost : Coalesced post) :
    Coalesced (pre ++ mergeNext b post) ↔ ¬FreeEnd pre := by
  cases post with
  | nil =>
    rw [mergeNext, coalesced_free hb]
    simp [hpre, coalesced_nil, FreeHead]
  | cons c rest =>
    simp only [mergeNext]
    split
    · rename_i hc
      obtain ⟨hrest, hhead⟩ := (coalesced_cons_free hc).mp hpost
      have hjoin : (b.join c).free = true := hb
      rw [coalesced_free hjoin, coalesced_setPrev, freeHead_setPrev]
      simp [hpre, hrest, hhead]
    · rename_i hc
      rw [Bool.not_eq_true] at hc
      rw [coalesced_free hb, coalesced_cons_used (b := { c with prev := b.addr }) hc]
      simp [hpre, (coalesced_cons_used hc).mp hpost, FreeHead, hc]

-- ---------------------------------------------------------------------------
-- Calls on the arena
-- ---------------------------------------------------------------------------

section
variable {heap endp n : Nat} {A : Arena} {pre post : List Blk} {b : Blk}

theorem kmalloc_coalesced (hC : Coalesced A.chain) (endp n : Nat) :
    Coalesced (A.kmalloc endp n).1.chain := by
  cases hf : findSplit (fits (align4 n)) A.chain with
  | some r =>
    obtain ⟨fpre, f, fpost⟩ := r
    obtain ⟨hc, hfit, -⟩ := findSplit_some hf
    rw [hc, coalesced_free (fits_iff.mp hfit).1] at hC
    obtain ⟨⟨hpre, -⟩, hpost, hhead⟩ := hC
    rw [Arena.kmalloc_placed hf]
    refine (coalesced_cut (b := { f with free := false }) rfl ?_ _).mpr fun _ => hhead
    exact (coalesced_used rfl).mpr ⟨hpre, hpost⟩
  | none =>
    by_cases hfit : A.brk + metaBlockSize + align4 n ≤ endp
    · rw [Arena.kmalloc_extended hf hfit rfl]
      exact (coalesced_used rfl).mpr ⟨hC, coalesced_nil⟩
    · rw [Arena.kmalloc_full hf hfit]
      exact hC

theorem release_coalesced (hb : b.free = true) (hpre : Coalesced pre) (hpost : Coalesced post)
    (A : Arena) : Coalesced (A.release pre b post).chain ↔ (post ≠ [] → ¬FreeEnd pre) := by
  unfold Arena.release
  split
  · rename_i hne
    rw [coalesced_mergeNext hb hpre hpost]
    simp [hne]
  · rename_i hnil
    refine iff_of_true ?_ fun hne => absurd hne hnil
    split
    · exact hpre
    · exact coalesced_nil

/-- `kfree` leaves two free neighbours if it does not see the first. -/
theorem freeAt_coalesced (hl : Linked 0 (pre ++ b :: post)) (hbf : b.free = false)
    (hC : Coalesced (pre ++ b :: post)) (A : Arena) :
    Coalesced (A.freeAt pre b post).chain ↔ ¬(Severed pre b ∧ post ≠ []) := by
  obtain ⟨hpre, hpost⟩ := (coalesced_used hbf).mp hC
  have plain : Coalesced (A.release pre { b with free := true } post).chain ↔ _ :=
    release_coalesced rfl hpre hpost A
  by_cases hb : b.prev = 0
  · rw [A.freeAt_plain post (by simp [hb]), plain, Severed]
    tauto
  · refine iff_of_true ?_ fun hs => hb hs.1.1
    obtain ⟨pre', x, rfl, -⟩ := hl.prev_last hb
    cases hx : x.free with
    | true =>
      obtain ⟨⟨hpre', hend⟩, -⟩ := (coalesced_free hx).mp hpre
      have hjoin : (x.join b).free = true := hx
      rw [A.freeAt_back pre' post hb hx]
      exact (release_coalesced hjoin hpre' (coalesced_setPrev.mpr hpost) A).mpr fun _ => hend
    | false =>
      rw [A.freeAt_plain post (by simp [hx]), plain, freeEnd_concat]
      simp [hx]

theorem kfree_coalesced (hA : A.Ok heap endp) (hc : A.chain = pre ++ b :: post)
    (hbf : b.free = false) (hC : Coalesced A.chain) :
    Coalesced (A.kfree b.data).chain ↔ ¬(Severed pre b ∧ post ≠ []) := by
  have hl := hA.linked
  rw [kfree_eq hA hc]
  split
  · rw [hc] at hl hC
    exact freeAt_coalesced hl hbf hC A
  · rename_i hlt
    refine iff_of_true hC fun ⟨_, hpost⟩ => hlt ?_
    -- a successor keeps the block's data below the break
    obtain ⟨c, rest, rfl⟩ := List.exists_cons_of_ne_nil hpost
    obtain ⟨mid, -, ho⟩ := ordered_append.mp hA.ordered
    rw [hc] at ho
    have := (ordered_append.mp ho).choose_spec.2.2.1
    have := ho.mem (b := c) (by simp)
    have hm : metaBlockSize = 40 := rfl
    unfold Blk.fin Blk.data at *
    omega

theorem stale_apart (hA : A.Ok heap endp) (hb : b ∈ A.stale.flatten) :
    ∀ c ∈ A.chain, c.addr ≠ b.addr := by
  obtain ⟨mid, hs, hch⟩ := ordered_append.mp hA.ordered
  intro c hc he
  have := (hs.mem hb).2
  have := (hch.mem hc).1
  have hm : metaBlockSize = 40 := rfl
  unfold Blk.fin at *
  omega

theorem kfree_stale_same (hA : A.Ok heap endp) (hb : b ∈ A.stale.flatten) : A.kfree b.data = A := by
  have hnone : findSplit (holds b.data) A.chain = none := findSplit_none.mpr fun c hc => by
    simpa [holds, Blk.data] using stale_apart hA hb c hc
  simp [Arena.kfree, hnone]

theorem cut_append (b : Blk) (s : Nat) (hm : m ≠ []) (l : List Blk) :
    cut b s (m ++ l) = cut b s m ++ l := by
  obtain ⟨c, m, rfl⟩ := List.exists_cons_of_ne_nil hm
  unfold cut
  split <;> rfl

theorem freeEnd_cut (b : Blk) (s : Nat) (hm : m ≠ []) : FreeEnd (cut b s m) ↔ FreeEnd m := by
  obtain ⟨c, m, rfl⟩ := List.exists_cons_of_ne_nil hm
  have hset : FreeEnd ({ c with prev := b.data + s } :: m) ↔ FreeEnd (c :: m) := by
    cases m with
    | nil => simp [FreeEnd]
    | cons d m => simp [FreeEnd, List.getLast?_cons]
  unfold cut
  split
  · rw [← hset]
    exact freeEnd_append [{ b with size := s }, b.remainder s] (by simp)
  · exact freeEnd_append [b] (by simp)

/-- The surroundings of a block in use when the free block `f` is taken as `g`:
cutting the block before it sets its `prev`. -/
theorem placed_around (hc : pre ++ b :: post = fpre ++ f :: fpost) (hbf : b.free = false)
    (hff : f.free = true) (hg : g.free = false) (s : Nat) :
    ∃ pre₁ b₁ post₁, fpre ++ cut g s fpost = pre₁ ++ b₁ :: post₁ ∧
      b₁.data = b.data ∧ b₁.free = false ∧ (post₁ = [] ↔ post = []) ∧
      (Severed pre₁ b₁ ↔ Severed pre b ∧ pre ≠ fpre ++ [f]) := by
  have hne : b ≠ f := fun he => by rw [he, hff] at hbf; cases hbf
  have hcut : ∀ m, cut g s m ≠ [] := fun m => by
    unfold cut
    split <;> simp
  rcases two_splits hc hne with ⟨m, rfl, rfl⟩ | ⟨m, rfl, rfl⟩
  · by_cases hm : m = []
    · subst hm
      unfold cut
      split
      · refine ⟨fpre ++ [{ g with size := s }, g.remainder s], { b with prev := g.data + s }, post,
          by simp [setPrev], rfl, hbf, .rfl, iff_of_false (fun hs => ?_) (by simp)⟩
        have hd := g.data_ne
        have hprev : g.data + s = 0 := hs.1
        omega
      · refine ⟨fpre ++ [g], b, post, by simp, rfl, hbf, .rfl, iff_of_false (fun hs => ?_) (by simp)⟩
        rw [freeEnd_concat.mp hs.2] at hg
        cases hg
    · refine ⟨fpre ++ cut g s m, b, post, ?_, rfl, hbf, .rfl, ?_⟩
      · rw [cut_append _ s hm, List.append_assoc]
      · have hend : FreeEnd (fpre ++ f :: m) ↔ FreeEnd m := by
          rw [freeEnd_append fpre (by simp)]
          exact freeEnd_append [f] hm
        rw [Severed, Severed, freeEnd_append fpre (hcut m), freeEnd_cut _ s hm, hend]
        simp [hm]
  · refine ⟨pre, b, m ++ cut g s fpost, by simp, rfl, hbf, ?_, ?_⟩
    · exact iff_of_false (fun hnil => hcut _ (List.append_eq_nil_iff.mp hnil).2) (by simp)
    · refine ⟨fun hs => ⟨hs, fun he => ?_⟩, fun hs => hs.1⟩
      have := congrArg List.length he
      simp only [List.length_append, List.length_cons, List.length_nil] at this
      omega

theorem move_coalesced (hA : A.Ok heap endp) (hc : A.chain = pre ++ b :: post)
    (hbf : b.free = false) (hC : Coalesced A.chain) :
    Coalesced (A.move endp b.data n).1.chain ↔ (Severed pre b →
      (∃ fpre f fpost, findSplit (fits (align4 n)) A.chain = some (fpre, f, fpost) ∧
        (pre = fpre ++ [f] ∨ post = [])) ∨
      findSplit (fits (align4 n)) A.chain = none ∧
        ¬A.brk + metaBlockSize + align4 n ≤ endp) := by
  have hC₁ := kmalloc_coalesced hC endp n
  have hA₁ := A.kmalloc_ok hA n
  cases hf : findSplit (fits (align4 n)) A.chain with
  | some r =>
    obtain ⟨fpre, f, fpost⟩ := r
    obtain ⟨hcf, hfit, -⟩ := findSplit_some hf
    have hq : (A.kmalloc endp n).2 ≠ 0 := by
      rw [Arena.kmalloc_placed hf]
      exact Blk.data_ne _
    obtain ⟨pre₁, b₁, post₁, hc₁, hd, hbf₁, hlast, hsev⟩ :=
      placed_around (g := { f with free := false }) (hc.symm.trans hcf) hbf (fits_iff.mp hfit).1 rfl
        (align4 n)
    rw [Arena.move, if_neg hq]
    rw [Arena.kmalloc_placed hf] at hC₁ hA₁ ⊢
    simp only at hC₁ hA₁ ⊢
    rw [← hd, kfree_coalesced hA₁ hc₁ hbf₁ hC₁, hsev, ne_eq post₁, hlast]
    constructor
    · intro hno hs
      refine .inl ⟨fpre, f, fpost, rfl, ?_⟩
      by_contra hor
      rw [not_or] at hor
      exact hno ⟨⟨hs, hor.1⟩, hor.2⟩
    · rintro himp ⟨⟨hs, hpre⟩, hpost⟩
      rcases himp hs with ⟨_, _, _, heq, hor⟩ | ⟨heq, -⟩
      · cases heq
        exact hor.elim hpre hpost
      · cases heq
  | none =>
    by_cases hfit : A.brk + metaBlockSize + align4 n ≤ endp
    · have hq : (A.kmalloc endp n).2 ≠ 0 := by
        rw [Arena.kmalloc_extended hf hfit rfl]
        exact Blk.data_ne _
      rw [Arena.move, if_neg hq]
      rw [Arena.kmalloc_extended hf hfit rfl] at hC₁ hA₁ ⊢
      simp only at hC₁ hA₁ ⊢
      have hc₁ : A.chain ++ [{ addr := A.brk, size := align4 n, free := false, prev := 0 }] =
          pre ++ b :: (post ++ [{ addr := A.brk, size := align4 n, free := false, prev := 0 }]) := by
        simp [hc]
      rw [kfree_coalesced hA₁ hc₁ hbf hC₁]
      simp [hfit]
    · have hnull := Arena.kmalloc_full hf hfit
      rw [Arena.move, if_pos (by rw [hnull]), hnull]
      exact iff_of_true hC fun _ => .inr ⟨rfl, hfit⟩

end

-- ---------------------------------------------------------------------------
-- Read from the headers
-- ---------------------------------------------------------------------------

/-- No two consecutive blocks of the list from `base` are both free. -/
def Heap.Coalesced (h : Heap) : Prop :=
  ∀ a, h.Listed a → h.get a .next ≠ 0 →
    ¬(h.get a .free ≠ 0 ∧ h.get (h.get a .next) .free ≠ 0)

/-- A free block is before `b` on the list, but `b` does not point to it. -/
def Heap.Severed (h : Heap) (b : Nat) : Prop :=
  h.get b .prev = 0 ∧ ∃ a, h.Listed a ∧ h.get a .next = b ∧ h.get a .free ≠ 0

/-- The first block of the list with room for `s` bytes: the lists are in order. -/
def Heap.FirstFit (h : Heap) (s a : Nat) : Prop := h.Fits s a ∧ ∀ c, h.Fits s c → a ≤ c

/-- A free predecessor is merged, unless the block is the last one. -/
def Heap.freeMerges (h : Heap) (p : Nat) : Prop :=
  ¬(h.Severed (getBlockAddr p) ∧ h.get (getBlockAddr p) .next ≠ 0)

/-- What a shrink cuts off a listed block does not meet a free block. -/
def Heap.shrinkMerges (h : Heap) (p n : Nat) : Prop :=
  h.Listed (getBlockAddr p) → metaBlockSize + 4 ≤ h.get (getBlockAddr p) .size - align4 n →
    h.get (getBlockAddr p) .next ≠ 0 → h.get (h.get (getBlockAddr p) .next) .free = 0

/-- A move takes the free predecessor that the block does not point to, or there
is none, or it frees the last block, or it fails. -/
def Heap.moveMerges (h : Heap) (p n : Nat) : Prop :=
  h.Severed (getBlockAddr p) →
    (∃ a, h.FirstFit (align4 n) a ∧
      (h.get a .next = getBlockAddr p ∨ h.get (getBlockAddr p) .next = 0)) ∨
    h.Full (align4 n)

def Session.keepsCoalesced (s : Session) : Op → Prop
  | .kmalloc _ | .store _ _ => True
  | .krealloc p n =>
    if p = 0 then True
    else if n = 0 then s.heap.freeMerges p
    else if align4 n ≤ s.heap.get (getBlockAddr p) .size then s.heap.shrinkMerges p n
    else s.heap.inPlace p n ∨ s.heap.moveMerges p n
  | .kfree p => p = 0 ∨ s.heap.freeMerges p

section
variable {heap : Nat} {h : Heap} {A : Arena} {b : Blk}

theorem Refines.flag (hR : Refines heap h A) (hb : b ∈ A.chain) :
    h.get b.addr .free ≠ 0 ↔ b.free = true := by
  obtain ⟨_, hh⟩ := hR.chain_seg.holds hb
  rw [hh.free]
  cases b.free <;> simp

theorem split_unique (hR : Refines heap h A) (hc : A.chain = pre ++ b :: post)
    (hc' : A.chain = pre' ++ c :: post') (ha : c.addr = b.addr) :
    c = b ∧ pre' = pre ∧ post' = post := by
  have hcb : c = b := hR.ok.ordered.unique (by simp [Arena.blocks, hc']) (by simp [Arena.blocks, hc]) ha
  subst hcb
  have hfind := (find_chain hR.ok hc').symm.trans (find_chain hR.ok hc)
  obtain ⟨rfl, -, rfl⟩ : pre' = pre ∧ c = c ∧ post' = post := by simpa using hfind
  exact ⟨rfl, rfl, rfl⟩

theorem next_eq_iff (hR : Refines heap h A) (hc : A.chain = pre ++ b :: post)
    (hx : A.chain = pre' ++ x :: post') : h.get x.addr .next = b.addr ↔ pre = pre' ++ [x] := by
  obtain ⟨_, -, -, hseg⟩ := hR.suffix hx
  rw [hseg.1.next]
  constructor
  · intro hn
    cases post' with
    | nil => exact absurd hn.symm (hR.addr_ne (by simp [Arena.blocks, hc]))
    | cons c rest =>
      have hc' : A.chain = (pre' ++ [x]) ++ c :: rest := by simpa using hx
      obtain ⟨-, hpre, -⟩ := split_unique hR hc hc' hn
      exact hpre.symm
  · rintro rfl
    have hpost : post' = b :: post := by simpa [hc] using hx.symm
    rw [hpost]
    rfl

theorem severed_iff (hR : Refines heap h A) (hc : A.chain = pre ++ b :: post) :
    h.Severed b.addr ↔ Severed pre b := by
  obtain ⟨_, -, -, hseg⟩ := hR.suffix hc
  rw [Heap.Severed, Severed, hseg.1.prev]
  refine and_congr_right fun _ => ?_
  constructor
  · rintro ⟨a, hl, hn, hf⟩
    obtain ⟨x, hx, rfl⟩ := (listed_iff hR).mp hl
    obtain ⟨pre', post', hcx⟩ := List.append_of_mem hx
    rw [(next_eq_iff hR hc hcx).mp hn, freeEnd_concat]
    exact (hR.flag hx).mp hf
  · intro hend
    rcases List.eq_nil_or_concat pre with rfl | ⟨pre', x, rfl⟩
    · simp [FreeEnd] at hend
    · rw [List.concat_eq_append] at hc hend
      have hcx : A.chain = pre' ++ x :: b :: post := by simpa using hc
      have hx : x ∈ A.chain := by simp [hcx]
      exact ⟨x.addr, (listed_iff hR).mpr ⟨x, hx, rfl⟩, (next_eq_iff hR hc hcx).mpr rfl,
        (hR.flag hx).mpr (freeEnd_concat.mp hend)⟩

theorem not_severed_stale (hR : Refines heap h A) (hb : b ∈ A.stale.flatten) :
    ¬h.Listed b.addr ∧ ¬h.Severed b.addr := by
  have hno : ¬h.Listed b.addr := fun hl => by
    obtain ⟨c, hc, ha⟩ := (listed_iff hR).mp hl
    exact stale_apart hR.ok hb c hc ha
  refine ⟨hno, fun ⟨_, a, hl, hn, _⟩ => hno ?_⟩
  rw [← hn]
  refine .next hl ?_
  rw [hn]
  exact hR.addr_ne (List.mem_append_left _ hb)

theorem coalesced_iff (hR : Refines heap h A) : h.Coalesced ↔ Coalesced A.chain := by
  rw [Coalesced, List.isChain_iff_forall_rel_of_append_cons_cons]
  constructor
  · intro hC b c pre rest hc
    have hb : b ∈ A.chain := by simp [hc]
    have hcc : c ∈ A.chain := by simp [hc]
    have hc' : A.chain = (pre ++ [b]) ++ c :: rest := by simpa using hc
    have hn : h.get b.addr .next = c.addr := (next_eq_iff hR hc' hc).mpr rfl
    have := hC b.addr ((listed_iff hR).mpr ⟨b, hb, rfl⟩) (by
      rw [hn]
      exact hR.addr_ne (List.mem_append_right _ hcc))
    rw [hn, hR.flag hb, hR.flag hcc] at this
    rwa [not_and_or, Bool.not_eq_true, Bool.not_eq_true] at this
  · rintro hC a hl hne ⟨hf, hf'⟩
    obtain ⟨b, hb, rfl⟩ := (listed_iff hR).mp hl
    obtain ⟨c, hcc, hn⟩ := (listed_iff hR).mp (.next hl hne)
    obtain ⟨pre, rest, hc⟩ := List.append_of_mem hb
    obtain ⟨pre', rest', hc'⟩ := List.append_of_mem hcc
    have hpre := (next_eq_iff hR hc' hc).mp hn.symm
    rw [← hn, hR.flag hcc] at hf'
    rw [hR.flag hb] at hf
    have hbc : A.chain = pre ++ b :: c :: rest' := by rw [hc', hpre]; simp
    have := hC hbc
    simp [hf, hf'] at this

-- ---------------------------------------------------------------------------
-- Which calls keep free blocks apart
-- ---------------------------------------------------------------------------

theorem Arena.blocks_cases (hb : b ∈ A.blocks) :
    (∃ pre post, A.chain = pre ++ b :: post) ∨ b ∈ A.stale.flatten :=
  (List.mem_append.mp hb).symm.imp List.append_of_mem id

theorem freeMerges_iff (hR : Refines heap h A) (hb : b ∈ A.blocks) (hbf : b.free = false)
    (hC : Coalesced A.chain) : Coalesced (A.kfree b.data).chain ↔ h.freeMerges b.data := by
  rw [Heap.freeMerges, getBlockAddr, hR.block_addr hb]
  rcases Arena.blocks_cases hb with ⟨pre, post, hc⟩ | hs
  · rw [kfree_coalesced hR.ok hc hbf hC, severed_iff hR hc, next_ne_zero hR hc]
  · rw [kfree_stale_same hR.ok hs]
    exact iff_of_true hC fun hsev => (not_severed_stale hR hs).2 hsev.1

theorem freeHead_iff (hR : Refines heap h A) (hc : A.chain = pre ++ b :: post) :
    ¬FreeHead post ↔
      (h.get b.addr .next ≠ 0 → h.get (h.get b.addr .next) .free = 0) := by
  obtain ⟨_, -, -, hseg⟩ := hR.suffix hc
  rw [hseg.1.next]
  cases post with
  | nil => simp [FreeHead, headAddr]
  | cons c rest =>
    have hcc : c ∈ A.chain := by simp [hc]
    have hne : c.addr ≠ 0 := hR.addr_ne (List.mem_append_right _ hcc)
    have hflag := hR.flag hcc
    simp only [FreeHead, headAddr, List.head?_cons, Option.mem_some_iff, exists_eq_left', ← hflag,
      ne_eq, hne, not_not, not_false_eq_true, true_imp_iff]

theorem shrinkMerges_iff (hR : Refines heap h A) (hb : b ∈ A.blocks) (hbf : b.free = false)
    (hC : Coalesced A.chain) :
    Coalesced (A.update b.data fun b post => cut b (align4 n) post).chain ↔
      h.shrinkMerges b.data n := by
  obtain ⟨_, hh⟩ := hR.holds hb
  rw [Heap.shrinkMerges, getBlockAddr, hR.block_addr hb, hh.size]
  rcases Arena.blocks_cases hb with ⟨pre, post, hc⟩ | hs
  · have hl : h.Listed b.addr := (listed_iff hR).mpr ⟨b, by simp [hc], rfl⟩
    have hchain : (A.update b.data fun b post => cut b (align4 n) post).chain =
        pre ++ cut b (align4 n) post := by
      simp [Arena.update, updateAt, find_chain hR.ok hc]
    rw [hchain, coalesced_cut hbf (hc ▸ hC), freeHead_iff hR hc]
    simp only [hl, true_imp_iff]
  · have hchain : (A.update b.data fun b post => cut b (align4 n) post).chain = A.chain :=
      updateAt_other fun c hc => by simpa [Blk.data] using stale_apart hR.ok hs c hc
    rw [hchain]
    exact iff_of_true hC fun hl => absurd hl (not_severed_stale hR hs).1

theorem grow_coalesced (hR : Refines heap h A) (hL : A.lists = L₁ ++ (pre ++ b :: c :: rest) :: L₂)
    (hbf : b.free = false) (hcf : c.free = true) (hC : Coalesced A.chain) (s : Nat) :
    Coalesced (A.update b.data (grow s)).chain := by
  have hb : b ∈ A.blocks := by rw [A.blocks_eq, hL]; simp
  rcases Arena.blocks_cases hb with ⟨pre', post', hc⟩ | hs
  · have hL' : A.lists = A.stale ++ (pre' ++ b :: post') :: [] := by rw [Arena.lists, hc]
    have hpost : post' = c :: rest := by
      have hfound := (A.lookup_eq hR.ok hL rfl).symm.trans (A.lookup_eq hR.ok hL' rfl)
      simpa using hfound.symm
    have hchain : (A.update b.data (grow s)).chain = pre' ++ grow s b post' := by
      simp [Arena.update, updateAt, find_chain hR.ok hc]
    rw [hchain, hpost]
    rw [hc, hpost] at hC
    exact coalesced_grow hbf hcf hC s
  · have hchain : (A.update b.data (grow s)).chain = A.chain :=
      updateAt_other fun c hc => by simpa [Blk.data] using stale_apart hR.ok hs c hc
    rw [hchain]
    exact hC

theorem firstFit_iff (hR : Refines heap h A)
    (hf : findSplit (fits s) A.chain = some (fpre, f, fpost)) : h.FirstFit s a ↔ a = f.addr := by
  obtain ⟨hc, hfit, hbefore⟩ := findSplit_some hf
  have hfits : h.Fits s f.addr := (fits_chain hR).mpr ⟨f, by simp [hc], rfl, hfit⟩
  have hmin : ∀ d, h.Fits s d → f.addr ≤ d := by
    intro d hd
    obtain ⟨x, hx, rfl, hxf⟩ := (fits_chain hR).mp hd
    obtain ⟨_, -, ho, -⟩ := hR.suffix hc
    rw [hc] at hx
    rcases List.mem_append.mp hx with hx | hx
    · rw [hbefore x hx] at hxf
      cases hxf
    · rcases List.mem_cons.mp hx with rfl | hx
      · exact Nat.le_refl _
      · have := (ho.2.mem hx).1
        unfold Blk.fin at this
        omega
  constructor
  · rintro ⟨ha, hle⟩
    exact Nat.le_antisymm (hle _ hfits) (hmin a ha)
  · rintro rfl
    exact ⟨hfits, hmin⟩

theorem take_iff (hR : Refines heap h A) (hc : A.chain = pre ++ b :: post)
    (hf : findSplit (fits s) A.chain = some (fpre, f, fpost)) :
    (∃ a, h.FirstFit s a ∧ (h.get a .next = b.addr ∨ h.get b.addr .next = 0)) ∨ h.Full s ↔
      pre = fpre ++ [f] ∨ post = [] := by
  obtain ⟨hcf, -, -⟩ := findSplit_some hf
  have hfirst := (firstFit_iff hR hf (a := f.addr)).mpr rfl
  have hlast : h.get b.addr .next = 0 ↔ post = [] := by
    rw [← not_iff_not]
    exact next_ne_zero hR hc
  rw [← next_eq_iff hR hc hcf, ← hlast]
  constructor
  · rintro (⟨a, ha, hor⟩ | hfull)
    · rwa [(firstFit_iff hR hf).mp ha] at hor
    · exact absurd hfirst.1 (hfull.1 _)
  · intro hor
    exact .inl ⟨f.addr, hfirst, hor⟩

theorem extend_iff (hR : Refines heap h A) (hf : findSplit (fits s) A.chain = none) :
    (∃ a, h.FirstFit s a ∧ (h.get a .next = b.addr ∨ h.get b.addr .next = 0)) ∨ h.Full s ↔
      ¬A.brk + metaBlockSize + s ≤ heap + heapSize := by
  have hno : ∀ a, ¬h.Fits s a := fun a ha => by
    have := (findSplit_fits hR).mpr ⟨a, ha⟩
    rw [hf] at this
    cases this
  rw [Heap.Full, hR.rep.brk, hR.endp, Nat.not_le]
  constructor
  · rintro (⟨a, ha, -⟩ | ⟨-, hlt⟩)
    · exact absurd ha.1 (hno a)
    · exact hlt
  · intro hlt
    exact .inr ⟨hno, hlt⟩

theorem moveMerges_iff (hR : Refines heap h A) (hb : b ∈ A.blocks) (hbf : b.free = false)
    (hC : Coalesced A.chain) :
    Coalesced (A.move (heap + heapSize) b.data n).1.chain ↔ h.moveMerges b.data n := by
  rw [Heap.moveMerges, getBlockAddr, hR.block_addr hb]
  rcases Arena.blocks_cases hb with ⟨pre, post, hc⟩ | hs
  · rw [move_coalesced hR.ok hc hbf hC, severed_iff hR hc]
    refine imp_congr_right fun _ => ?_
    cases hf : findSplit (fits (align4 n)) A.chain with
    | some r =>
      obtain ⟨fpre, f, fpost⟩ := r
      rw [take_iff hR hc hf]
      constructor
      · rintro (⟨_, _, _, heq, hor⟩ | ⟨heq, -⟩)
        · cases heq
          exact hor
        · cases heq
      · intro hor
        exact .inl ⟨fpre, f, fpost, rfl, hor⟩
    | none =>
      rw [extend_iff hR hf]
      constructor
      · rintro (⟨_, _, _, heq, -⟩ | ⟨-, hlt⟩)
        · cases heq
        · exact hlt
      · intro hlt
        exact .inr ⟨rfl, hlt⟩
  · refine iff_of_true ?_ fun hsev => absurd hsev (not_severed_stale hR hs).2
    rcases A.move_eq (n := n) hR.ok b.data with hm | ⟨-, hm⟩
    · rw [hm]
      exact hC
    · have hs₁ : b ∈ (A.kmalloc (heap + heapSize) n).1.stale.flatten := by rwa [A.kmalloc_stale]
      rw [hm, kfree_stale_same (A.kmalloc_ok hR.ok n) hs₁]
      exact kmalloc_coalesced hC _ n

theorem reallocMerges_iff (hR : Refines heap h A) (hb : b ∈ A.blocks) (hbf : b.free = false)
    (hC : Coalesced A.chain) (h0 : n ≠ 0) :
    Coalesced (A.krealloc (heap + heapSize) b.data n).1.chain ↔
      if align4 n ≤ h.get (getBlockAddr b.data) .size then h.shrinkMerges b.data n
      else h.inPlace b.data n ∨ h.moveMerges b.data n := by
  obtain ⟨L₁, pre, post, L₂, hL⟩ := A.lists_of_mem hb
  obtain ⟨_, hh⟩ := hR.holds hb
  rw [inPlace_iff hR hL, getBlockAddr, hR.block_addr hb, hh.size]
  rcases A.krealloc_cases hR.ok hL rfl h0 with
    ⟨hle, heq⟩ | ⟨c, rest, rfl, hcf, hlt, hle, heq⟩ | ⟨hlt, hno, heq⟩
  · rw [heq, if_pos hle]
    exact shrinkMerges_iff hR hb hbf hC
  · rw [heq, if_neg (by omega)]
    exact iff_of_true (grow_coalesced hR hL hbf hcf hC _) (.inl (.inr ⟨c, rfl, hcf, hle⟩))
  · rw [heq, if_neg (by omega), moveMerges_iff hR hb hbf hC]
    refine ⟨.inr, fun hor => hor.resolve_left ?_⟩
    rintro (hle | ⟨c, hc, hcs⟩)
    · omega
    · exact hno c hc hcs

-- ---------------------------------------------------------------------------
-- Steps and runs
-- ---------------------------------------------------------------------------

theorem call_coalesced {s : Session} (hB : s.Backed heap A) (hC : Coalesced A.chain)
    (ha : s.allows op = true) :
    Coalesced (A.call (heap + heapSize) op).1.chain ↔ s.keepsCoalesced op := by
  have hR := hB.refines
  have hfair := hB.backs.fair ha
  cases op with
  | kmalloc n => exact iff_of_true (kmalloc_coalesced hC _ n) trivial
  | store x v => exact iff_of_true hC trivial
  | kfree p =>
    rcases hfair with rfl | ⟨b, hb, rfl, hbf⟩
    · refine iff_of_true ?_ (.inl rfl)
      rwa [Arena.call, A.kfree_null]
    · rw [Session.keepsCoalesced, ← freeMerges_iff hR hb hbf hC]
      simp [b.data_ne, Arena.call]
  | krealloc p n =>
    simp only [Arena.call, Session.keepsCoalesced]
    by_cases hp0 : p = 0
    · rw [if_pos hp0, Arena.krealloc, if_pos hp0]
      exact iff_of_true (kmalloc_coalesced hC _ n) trivial
    · obtain ⟨b, hb, rfl, hbf⟩ := hfair.resolve_left hp0
      rw [if_neg hp0]
      by_cases h0 : n = 0
      · rw [if_pos h0, Arena.krealloc, if_neg hp0, if_pos h0]
        exact freeMerges_iff hR hb hbf hC
      · rw [if_neg h0]
        exact reallocMerges_iff hR hb hbf hC h0

theorem step_coalesced {s : Session} (hB : ∃ A, s.Backed heap A) (hC : s.heap.Coalesced)
    (hstep : s.step op = some s') : s'.heap.Coalesced ↔ s.keepsCoalesced op := by
  obtain ⟨A, hB⟩ := hB
  have ha := step_allows hstep
  obtain ⟨s'', hs, hB', -, -⟩ := step_backed hB ha
  rw [hstep] at hs
  cases hs
  rw [coalesced_iff hB.refines] at hC
  rw [coalesced_iff hB'.refines, call_coalesced hB hC ha]

theorem start_coalesced (mem : Mem) (heap : Nat) : (Session.start mem heap).heap.Coalesced :=
  fun a hl => absurd hl (not_listed rfl a)

/-- A session keeps free blocks apart exactly as long as its calls do. -/
theorem session_coalesced_iff (hp : Placed heap)
    (hr : run Session.step (.start mem heap) ops = some s) :
    Always Session.step (fun s => s.heap.Coalesced) (.start mem heap) ops ↔
      AllSteps Session.step Session.keepsCoalesced (.start mem heap) ops :=
  always_iff (fun s => ∃ A, s.Backed heap A) (fun _ _ _ => step_inv)
    (fun _ _ _ => step_coalesced) ⟨_, start_backed hp mem⟩ (start_coalesced mem heap) hr

theorem session_coalesced_iff_shrunk :
    (∃ s, run Session.step (.start (fun _ => 0) 4096) [.kmalloc 96, .krealloc 4136 8] = some s) ∧
      Always Session.step (fun s => s.heap.Coalesced) (.start (fun _ => 0) 4096)
        [.kmalloc 96, .krealloc 4136 8] := by
  have hrun : (run Session.step (.start (fun _ => 0) 4096)
      [.kmalloc 96, .krealloc 4136 8]).isSome = true := by decide +kernel
  have hlast : ((Session.start (fun _ => 0) 4096).step (.kmalloc 96)).map
      (fun s => (s.heap.get 4096 .size, s.heap.get 4096 .next)) = some (96, 0) := by decide +kernel
  obtain ⟨s, hr⟩ := Option.isSome_iff_exists.mp hrun
  refine ⟨⟨s, hr⟩, (session_coalesced_iff ⟨by decide, by decide⟩ hr).mpr ?_⟩
  refine ⟨trivial, fun s₁ hs => ⟨?_, fun _ _ => trivial⟩⟩
  rw [hs, Option.map_some, Option.some.injEq, Prod.mk.injEq] at hlast
  have hblock : getBlockAddr 4136 = 4096 := by decide
  have hle : align4 8 ≤ s₁.heap.get (getBlockAddr 4136) .size := by
    rw [hblock, hlast.1]
    decide
  rw [Session.keepsCoalesced, if_neg (by decide), if_neg (by decide), if_pos hle]
  intro _ _ hne
  rw [hblock] at hne
  exact absurd hlast.2 hne

/-- A shrink in front of a free block leaves its remainder beside it. -/
theorem remainder_beside_free :
    ∃ s, run Session.step (.start (fun _ => 0) 4096)
        [.kmalloc 96, .kmalloc 8, .kmalloc 8, .kfree 4272, .krealloc 4136 8] = some s ∧
      ¬s.heap.Coalesced := by
  have hrun : (run Session.step (.start (fun _ => 0) 4096)
      [.kmalloc 96, .kmalloc 8, .kmalloc 8, .kfree 4272, .krealloc 4136 8]).map
        (fun s => (s.heap.base, s.heap.get 4096 .next, s.heap.get 4144 .next,
          s.heap.get 4144 .free, s.heap.get 4232 .free)) = some (4096, 4144, 4232, 1, 1) := by
    decide +kernel
  obtain ⟨s, hr, heq⟩ := Option.map_eq_some_iff.mp hrun
  simp only [Prod.mk.injEq] at heq
  obtain ⟨hbase, hnext, hnext', hfree, hfree'⟩ := heq
  refine ⟨s, hr, fun hC => ?_⟩
  have hfirst : s.heap.Listed 4096 := by
    have hl : s.heap.Listed s.heap.base := .base (by rw [hbase]; decide)
    rwa [hbase] at hl
  have hsecond : s.heap.Listed 4144 := by
    have hl := Heap.Listed.next hfirst (by rw [hnext]; decide)
    rwa [hnext] at hl
  refine hC 4144 hsecond (by rw [hnext']; decide) ?_
  rw [hnext', hfree, hfree']
  decide

end

end TomatoOs.Kmem
