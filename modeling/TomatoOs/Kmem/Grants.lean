import TomatoOs.Kmem.BlockLaws

/-!
# What the operations hand out

A pointer that `kmalloc` or `krealloc` returns is the data of a block in use
that is as long as the request and was not in use before; `krealloc` also may
return the pointer it was given, with its block cut or grown.
-/

namespace TomatoOs.Kmem

open Lib

def Arena.Serves (A : Arena) (q n : Nat) : Prop :=
  ∃ b ∈ A.blocks, b.data = q ∧ b.free = false ∧ n ≤ b.size

def Arena.Unused (A : Arena) (q : Nat) : Prop :=
  ∀ b ∈ A.blocks, b.free = false → b.data ≠ q

theorem Arena.Serves.keeps {A A' : Arena} (hs : A.Serves q n) (hk : Keeps p A.blocks A'.blocks)
    (hq : q ≠ p) : A'.Serves q n := by
  obtain ⟨b, hb, rfl, hf, hn⟩ := hs
  obtain ⟨b', hb', ha, hsz, hf'⟩ := hk b hb hf hq
  exact ⟨b', hb', by simp [Blk.data, ha], hf', hsz ▸ hn⟩

theorem cut_serves (b : Blk) (hs : s ≤ b.size) (rest : List Blk) :
    ∃ b' ∈ cut b s rest, b'.addr = b.addr ∧ b'.free = b.free ∧ s ≤ b'.size := by
  unfold cut
  split
  · exact ⟨_, List.mem_cons_self, rfl, rfl, Nat.le_refl s⟩
  · exact ⟨b, List.mem_cons_self, rfl, rfl, hs⟩

-- ---------------------------------------------------------------------------
-- kmalloc
-- ---------------------------------------------------------------------------

section
variable {A : Arena} {heap endp n : Nat}

theorem Arena.kmalloc_placed (hf : findSplit (fits (align4 n)) A.chain = some (pre, b, post)) :
    A.kmalloc endp n =
      ({ A with chain := pre ++ cut { b with free := false } (align4 n) post }, b.data) := by
  simp only [Arena.kmalloc, hf]

theorem Arena.kmalloc_extended (hf : findSplit (fits (align4 n)) A.chain = none)
    (hfit : A.brk + metaBlockSize + align4 n ≤ endp)
    (hb : b = { addr := A.brk, size := align4 n, free := false, prev := 0 }) :
    A.kmalloc endp n = ({ A with chain := A.chain ++ [b], brk := b.fin }, b.data) := by
  subst hb
  simp only [Arena.kmalloc, hf, hfit, ↓reduceIte]

theorem Arena.kmalloc_full (hf : findSplit (fits (align4 n)) A.chain = none)
    (hfit : ¬A.brk + metaBlockSize + align4 n ≤ endp) : A.kmalloc endp n = (A, 0) := by
  simp only [Arena.kmalloc, hf, hfit, ↓reduceIte]

theorem fits_iff : fits s b = true ↔ b.free = true ∧ s ≤ b.size := by
  simp [fits]

/-- `kmalloc` gives `NULL` and changes nothing, or serves the request from a
block that was free or above the break. -/
theorem Arena.kmalloc_serves (hA : A.Ok heap endp) (n : Nat) :
    A.kmalloc endp n = (A, 0) ∨
      (A.kmalloc endp n).2 ≠ 0 ∧ A.Unused (A.kmalloc endp n).2 ∧
        (A.kmalloc endp n).1.Serves (A.kmalloc endp n).2 (align4 n) := by
  have hm : metaBlockSize = 40 := rfl
  cases hf : findSplit (fits (align4 n)) A.chain with
  | some r =>
    obtain ⟨pre, b, post⟩ := r
    obtain ⟨hc, hfit, -⟩ := findSplit_some hf
    obtain ⟨hfree, hsz⟩ := fits_iff.mp hfit
    have hb : b ∈ A.blocks := by simp [Arena.blocks, hc]
    rw [Arena.kmalloc_placed hf]
    refine .inr ⟨b.data_ne, ?_, ?_⟩
    · intro c hcm hcf hd
      have : c = b := hA.ordered.unique hcm hb (by simpa [Blk.data] using hd)
      rw [this, hfree] at hcf
      cases hcf
    · obtain ⟨b', hb', ha, hf', hs'⟩ := cut_serves { b with free := false } hsz post
      exact ⟨b', by simp [Arena.blocks, hb'], by simp [Blk.data, ha], hf', hs'⟩
  | none =>
    by_cases hfit : A.brk + metaBlockSize + align4 n ≤ endp
    · rw [Arena.kmalloc_extended hf hfit rfl]
      refine .inr ⟨Blk.data_ne _, ?_, ?_⟩
      · intro c hcm hcf hd
        have := (hA.ordered.mem hcm).2
        simp only [Blk.fin, Blk.data] at *
        omega
      · exact ⟨_, by simp [Arena.blocks], rfl, rfl, Nat.le_refl _⟩
    · exact .inl (Arena.kmalloc_full hf hfit)

theorem Arena.kmalloc_ne_null : (A.kmalloc endp n).2 ≠ 0 ↔
    (∃ b ∈ A.chain, fits (align4 n) b = true) ∨ A.brk + metaBlockSize + align4 n ≤ endp := by
  cases hf : findSplit (fits (align4 n)) A.chain with
  | some r =>
    obtain ⟨pre, b, post⟩ := r
    obtain ⟨hc, hb, -⟩ := findSplit_some hf
    rw [Arena.kmalloc_placed hf]
    exact iff_of_true (Blk.data_ne _) (.inl ⟨b, by simp [hc], hb⟩)
  | none =>
    have hnone : ¬∃ b ∈ A.chain, fits (align4 n) b = true := by
      rintro ⟨b, hb, hfit⟩
      rw [findSplit_none.mp hf b hb] at hfit
      cases hfit
    by_cases hfit : A.brk + metaBlockSize + align4 n ≤ endp
    · rw [Arena.kmalloc_extended hf hfit rfl]
      exact iff_of_true (Blk.data_ne _) (.inr hfit)
    · rw [Arena.kmalloc_full hf hfit]
      exact iff_of_false (by simp) (by simp [hnone, hfit])

theorem Arena.Ok.size_le (hA : A.Ok heap (heap + heapSize)) (hb : b ∈ A.blocks) :
    b.size ≤ heapSize - metaBlockSize := by
  have hm : metaBlockSize = 40 := rfl
  have hh : heapSize = 16777216 := by decide
  have hble := hA.brk_le
  have hbm := hA.ordered.mem hb
  unfold Blk.fin at hbm
  omega

theorem Arena.kmalloc_stale (A : Arena) (endp n : Nat) :
    (A.kmalloc endp n).1.stale = A.stale := by
  unfold Arena.kmalloc
  split
  · rfl
  · split <;> rfl

theorem Arena.kmalloc_brk_le (A : Arena) (endp n : Nat) : A.brk ≤ (A.kmalloc endp n).1.brk := by
  unfold Arena.kmalloc
  split
  · exact Nat.le_refl _
  · split
    · simp only [Blk.fin]
      omega
    · exact Nat.le_refl _

-- ---------------------------------------------------------------------------
-- kfree
-- ---------------------------------------------------------------------------

theorem Linked.prev_last (h : Linked 0 (pre ++ b :: post)) (hb : b.prev ≠ 0) :
    ∃ pre' x, pre = pre' ++ [x] ∧ b.prev = x.addr := by
  rcases List.eq_nil_or_concat pre with rfl | ⟨pre', x, rfl⟩
  · exact absurd (h.1.elim id id) hb
  · rw [List.concat_eq_append] at h ⊢
    exact ⟨pre', x, rfl, h.prev_eq hb⟩

theorem Arena.freeAt_plain (A : Arena) (post : List Blk)
    (hx : ∀ x ∈ pre.getLast?, ¬(b.prev ≠ 0 ∧ x.free = true)) :
    A.freeAt pre b post = A.release pre { b with free := true } post := by
  unfold Arena.freeAt
  split
  · rename_i x hl
    rw [if_neg (hx x hl)]
  · rfl

theorem Arena.freeAt_back (A : Arena) (pre post : List Blk) (hb : b.prev ≠ 0) (hx : x.free = true) :
    A.freeAt (pre ++ [x]) b post = A.release pre (x.join b) (setPrev x.addr post) := by
  simp [Arena.freeAt, hb, hx]

theorem find_chain (hA : A.Ok heap endp) (hc : A.chain = pre ++ b :: post) :
    findSplit (holds b.data) A.chain = some (pre, b, post) := by
  have hL : A.lists = A.stale ++ (pre ++ b :: post) :: [] := by rw [Arena.lists, hc]
  obtain ⟨hbefore, -⟩ := hA.data_unique hL rfl
  rw [hc]
  exact findSplit_append
    (fun c hc => by simpa [holds] using hbefore c (List.mem_append_right _ hc)) (by simp [holds])

theorem kfree_eq (hA : A.Ok heap endp) (hc : A.chain = pre ++ b :: post) :
    A.kfree b.data = if b.data < A.brk then A.freeAt pre b post else A := by
  simp [Arena.kfree, find_chain hA hc]

theorem release_nonempty (A : Arena) (hp : post ≠ []) :
    A.release pre b post = { A with chain := pre ++ mergeNext b post } := by
  simp [Arena.release, hp]

/-- `kfree` merges into the predecessor if `prev` names one and it is free. -/
theorem Arena.freeAt_cases (A : Arena) (hl : Linked 0 (pre ++ b :: post)) :
    (∃ pre' x, pre = pre' ++ [x] ∧ b.prev = x.addr ∧ b.prev ≠ 0 ∧ x.free = true ∧
      A.freeAt pre b post = A.release pre' (x.join b) (setPrev x.addr post)) ∨
    (b.prev = 0 ∨ ∃ x ∈ pre, b.prev = x.addr ∧ x.free = false) ∧
      A.freeAt pre b post = A.release pre { b with free := true } post := by
  by_cases hb : b.prev = 0
  · exact .inr ⟨.inl hb, A.freeAt_plain post (by simp [hb])⟩
  · obtain ⟨pre', x, rfl, hx⟩ := hl.prev_last hb
    cases hxf : x.free with
    | false => exact .inr ⟨.inr ⟨x, by simp, hx, hxf⟩, A.freeAt_plain post (by simp [hxf])⟩
    | true => exact .inl ⟨pre', x, rfl, hx, hb, hxf, A.freeAt_back pre' post hb hxf⟩

-- ---------------------------------------------------------------------------
-- krealloc
-- ---------------------------------------------------------------------------

theorem Arena.lists_of_mem (hb : b ∈ A.blocks) :
    ∃ L₁ pre post L₂, A.lists = L₁ ++ (pre ++ b :: post) :: L₂ := by
  rw [A.blocks_eq] at hb
  obtain ⟨l, hl, hb⟩ := List.mem_flatten.mp hb
  obtain ⟨L₁, L₂, hL⟩ := List.append_of_mem hl
  obtain ⟨pre, post, rfl⟩ := List.append_of_mem hb
  exact ⟨L₁, pre, post, L₂, hL⟩

theorem Arena.lookup_eq (hA : A.Ok heap endp) (hL : A.lists = L₁ ++ (pre ++ b :: post) :: L₂)
    (hb : b.data = p) : A.lookup p = some (b, post) := by
  obtain ⟨hbefore, -⟩ := hA.data_unique hL hb
  have hnone : ∀ l ∈ L₁, findSplit (holds p) l = none := fun l hl =>
    findSplit_none.mpr fun c hc => by
      have := hbefore c (List.mem_append_left _ (List.mem_flatten.mpr ⟨l, hl, hc⟩))
      simpa [holds] using this
  have hsome : findSplit (holds p) (pre ++ b :: post) = some (pre, b, post) :=
    findSplit_append (fun c hc => by simpa [holds] using hbefore c (List.mem_append_right _ hc))
      (by simpa [holds] using hb)
  unfold Arena.lookup
  rw [hL, List.findSome?_append,
    List.findSome?_eq_none_iff.mpr fun l hl => by rw [hnone l hl]; rfl, Option.none_or,
    List.findSome?_cons, hsome]
  rfl

theorem Arena.krealloc_cases (hA : A.Ok heap endp)
    (hL : A.lists = L₁ ++ (pre ++ b :: post) :: L₂) (hb : b.data = p) (hn : n ≠ 0) :
    align4 n ≤ b.size ∧
      A.krealloc endp p n = (A.update p fun b post => cut b (align4 n) post, p) ∨
    (∃ c rest, post = c :: rest ∧ c.free = true ∧ b.size < align4 n ∧
      align4 n ≤ (b.join c).size ∧ A.krealloc endp p n = (A.update p (grow (align4 n)), p)) ∨
    (b.size < align4 n ∧ (∀ c ∈ post.head?, ¬(c.free = true ∧ align4 n ≤ (b.join c).size)) ∧
      A.krealloc endp p n = A.move endp p n) := by
  have hp : p ≠ 0 := hb ▸ b.data_ne
  simp only [Arena.krealloc, hp, hn, ↓reduceIte, A.lookup_eq hA hL hb]
  by_cases hs : align4 n ≤ b.size
  · rw [if_pos hs]
    exact .inl ⟨hs, rfl⟩
  · rw [if_neg hs]
    by_cases hg : ∃ c ∈ post.head?, c.free ∧ align4 n ≤ (b.join c).size
    · rw [if_pos hg]
      obtain ⟨c, hc, hcf, hcs⟩ := hg
      cases post with
      | nil => simp at hc
      | cons d rest =>
        obtain rfl : d = c := by simpa using hc
        exact .inr (.inl ⟨d, rest, rfl, hcf, by omega, hcs, rfl⟩)
    · rw [if_neg hg]
      exact .inr (.inr ⟨by omega, fun c hc hh => hg ⟨c, hc, hh⟩, rfl⟩)

theorem Arena.move_eq (hA : A.Ok heap endp) (p : Nat) :
    A.move endp p n = (A, 0) ∨
      (A.kmalloc endp n).2 ≠ 0 ∧
        A.move endp p n = ((A.kmalloc endp n).1.kfree p, (A.kmalloc endp n).2) := by
  unfold Arena.move
  rcases A.kmalloc_serves hA n with h0 | ⟨hne, -, -⟩
  · rw [if_pos (by rw [h0]), h0]
    exact .inl rfl
  · rw [if_neg hne]
    exact .inr ⟨hne, rfl⟩

theorem Arena.move_keeps (hA : A.Ok heap endp) (p n : Nat) :
    Keeps p A.blocks (A.move endp p n).1.blocks := by
  rcases A.move_eq hA p with h | ⟨-, h⟩
  · rw [h]
    exact .refl p _
  · rw [h]
    exact (A.kmalloc_keeps p endp n).trans (Arena.kfree_keeps _ p)

theorem Arena.krealloc_keeps (hA : A.Ok heap endp) (hb : b ∈ A.blocks) (hn : n ≠ 0) :
    Keeps b.data A.blocks (A.krealloc endp b.data n).1.blocks := by
  obtain ⟨L₁, pre, post, L₂, hL⟩ := A.lists_of_mem hb
  rcases A.krealloc_cases hA hL rfl hn with ⟨-, h⟩ | ⟨c, rest, rfl, hc, -, -, h⟩ | ⟨-, -, h⟩
  · rw [h]
    exact A.update_keeps hA hL rfl (keeps_cut (.inr rfl) b _ post)
  · rw [h]
    exact A.update_keeps hA hL rfl (keeps_grow rfl hc _ rest)
  · rw [h]
    exact A.move_keeps hA b.data n

theorem Arena.update_serves (hA : A.Ok heap endp)
    (hL : A.lists = L₁ ++ (pre ++ b :: post) :: L₂)
    (hs : ∃ b' ∈ f b post, b'.addr = b.addr ∧ b'.free = false ∧ s ≤ b'.size) :
    (A.update b.data f).Serves b.data s := by
  obtain ⟨b', hb', ha, hf, hs⟩ := hs
  refine ⟨b', ?_, by simp [Blk.data, ha], hf, hs⟩
  rw [Arena.blocks_eq, A.lists_update_eq hA hL rfl]
  simp [hb']

/-- `krealloc` of a block in use gives `NULL` and changes nothing, keeps the
pointer, or moves to a block as `kmalloc` serves it. -/
theorem Arena.krealloc_serves (hA : A.Ok heap endp) (hb : b ∈ A.blocks) (hf : b.free = false)
    (hn : n ≠ 0) :
    A.krealloc endp b.data n = (A, 0) ∨
      (A.krealloc endp b.data n).2 ≠ 0 ∧
      ((A.krealloc endp b.data n).2 = b.data ∨ A.Unused (A.krealloc endp b.data n).2) ∧
        (A.krealloc endp b.data n).1.Serves (A.krealloc endp b.data n).2 (align4 n) := by
  have hne := b.data_ne
  obtain ⟨L₁, pre, post, L₂, hL⟩ := A.lists_of_mem hb
  rcases A.krealloc_cases hA hL rfl hn with ⟨hs, h⟩ | ⟨c, rest, rfl, hc, -, hs, h⟩ | ⟨-, -, h⟩
  · rw [h]
    refine .inr ⟨hne, .inl rfl, A.update_serves hA hL ?_⟩
    simpa only [hf] using cut_serves b hs post
  · rw [h]
    refine .inr ⟨hne, .inl rfl, A.update_serves hA hL ?_⟩
    simpa only [grow, Blk.join, hf] using cut_serves (b.join c) hs (setPrev b.addr rest)
  · rw [h]
    rcases A.move_eq hA b.data with h0 | ⟨hq, h0⟩
    · exact .inl h0
    · rw [h0]
      rcases A.kmalloc_serves hA n with hnull | ⟨-, hu, hserve⟩
      · exact absurd (by rw [hnull]) hq
      · exact .inr ⟨hq, .inr hu, hserve.keeps (Arena.kfree_keeps _ _) (hu b hb hf).symm⟩

end

end TomatoOs.Kmem
