import TomatoOs.Kmem.Grants

/-!
# Lists without gaps

`Tight` lists run from one address to another without gaps, with every `prev`
in place. Splits and merges keep them tight. Two branches do not:
`extend_heap` behind an existing block, which leaves the new block's `prev` at
`NULL`, and the release of a last block that has a predecessor, which cannot
lower the break.
-/

namespace TomatoOs.Kmem

open Lib

/-- From `lo` to `hi` without gaps, each `prev` the predecessor. -/
def Tight (pred lo : Nat) : List Blk → Nat → Prop
  | [], hi => lo = hi
  | b :: rest, hi => b.addr = lo ∧ b.prev = pred ∧ Tight b.addr b.fin rest hi

theorem tight_append : Tight pred lo (l₁ ++ l₂) hi ↔
    ∃ mid, Tight pred lo l₁ mid ∧ Tight (lastAddr pred l₁) mid l₂ hi := by
  induction l₁ generalizing pred lo with
  | nil => simp [Tight, lastAddr]
  | cons b rest ih => simp [Tight, lastAddr, ih, and_assoc]

theorem Tight.unique (h : Tight pred lo l hi) (h' : Tight pred lo l hi') : hi = hi' := by
  induction l generalizing pred lo with
  | nil => exact h.symm.trans h'
  | cons b rest ih => exact ih h.2.2 h'.2.2

theorem Tight.setPrev (h : Tight q lo l hi) : Tight p lo (setPrev p l) hi := by
  cases l with
  | nil => exact h
  | cons b rest => exact ⟨h.1, rfl, h.2.2⟩

theorem Tight.cut (h : Tight q lo (b :: rest) hi) : Tight q lo (cut b s rest) hi := by
  unfold Kmem.cut
  split
  · rename_i hroom
    have hfin : (b.remainder s).fin = b.fin := by
      simp only [Blk.fin, Blk.remainder, Blk.data]
      omega
    refine ⟨h.1, h.2.1, rfl, rfl, ?_⟩
    rw [hfin]
    exact h.2.2.setPrev
  · exact h

theorem join_fin {b c : Blk} (h : c.addr = b.fin) : (b.join c).fin = c.fin := by
  simp only [Blk.fin, Blk.join] at *
  omega

theorem Tight.join (h : Tight q lo (b :: c :: rest) hi) :
    Tight q lo (b.join c :: Kmem.setPrev b.addr rest) hi := by
  obtain ⟨hb, hp, hc, -, hr⟩ := h
  refine ⟨hb, hp, ?_⟩
  rw [join_fin hc]
  exact hr.setPrev

theorem Tight.mergeNext (h : Tight q lo (b :: l) hi) : Tight q lo (mergeNext b l) hi := by
  cases l with
  | nil => exact h
  | cons c rest =>
    simp only [Kmem.mergeNext]
    split
    · exact h.join
    · exact ⟨h.1, h.2.1, h.2.2.1, rfl, h.2.2.2.2⟩

theorem Tight.grow (h : Tight q lo (b :: l) hi) : Tight q lo (grow s b l) hi := by
  cases l with
  | nil => exact h
  | cons c rest => exact h.join.cut

theorem Tight.free (h : Tight q lo (b :: rest) hi) (x : Bool) :
    Tight q lo ({ b with free := x } :: rest) hi := h

theorem Tight.prev_last (h : Tight q lo (l ++ [t]) hi) : t.prev = lastAddr q l := by
  obtain ⟨_, -, -, hp, -⟩ := tight_append.mp h
  exact hp

theorem Tight.le (h : Tight q lo l hi) : lo ≤ hi := by
  induction l generalizing q lo with
  | nil => exact Nat.le_of_eq h
  | cons b rest ih =>
    have := ih h.2.2
    have := h.1
    unfold Blk.fin at *
    omega

theorem mergeNext_setPrev (b : Blk) (p : Nat) (l : List Blk) :
    mergeNext b (setPrev p l) = mergeNext b l := by
  cases l <;> rfl

def Arena.Gapless (heap : Nat) (A : Arena) : Prop :=
  A.chain = [] ∨ Tight 0 heap A.chain A.brk

section
variable {heap : Nat} {A : Arena} {b c : Blk}

-- ---------------------------------------------------------------------------
-- kmalloc
-- ---------------------------------------------------------------------------

theorem Arena.Gapless.tight (hg : A.Gapless heap) (hc : A.chain ≠ []) :
    Tight 0 heap A.chain A.brk := hg.resolve_left hc

theorem Tight.addr_ge (h : Tight q lo (l ++ [x]) hi) : lo ≤ x.addr := by
  obtain ⟨mid, hl, hx, -⟩ := tight_append.mp h
  have := hl.le
  omega

theorem Tight.prev_ne (h : Tight q lo (l ++ [t]) hi) (hlo : 0 < lo) (hl : l ≠ []) : t.prev ≠ 0 := by
  have hp := h.prev_last
  rcases List.eq_nil_or_concat l with rfl | ⟨l, x, rfl⟩
  · exact absurd rfl hl
  · rw [List.concat_eq_append] at *
    obtain ⟨mid, hx, -⟩ := tight_append.mp h
    have := hx.addr_ge
    rw [hp, lastAddr_concat]
    omega

theorem kmalloc_gapless (hpos : 0 < heap) (hg : A.Gapless heap) :
    (A.kmalloc endp n).1.Gapless heap ↔
      (findSplit (fits (align4 n)) A.chain).isSome = true ∨
      ¬A.brk + metaBlockSize + align4 n ≤ endp ∨ A.chain = [] ∧ A.brk = heap := by
  cases hf : findSplit (fits (align4 n)) A.chain with
  | some r =>
    obtain ⟨pre, b, post⟩ := r
    obtain ⟨hc, -, -⟩ := findSplit_some hf
    rw [Arena.kmalloc_placed hf]
    refine iff_of_true (.inr ?_) (.inl rfl)
    have ht := hg.tight (by simp [hc])
    rw [hc] at ht
    obtain ⟨mid, hpre, hb⟩ := tight_append.mp ht
    exact tight_append.mpr ⟨mid, hpre, (hb.free false).cut⟩
  | none =>
    by_cases hfit : A.brk + metaBlockSize + align4 n ≤ endp
    · rw [Arena.kmalloc_extended hf hfit rfl]
      by_cases hc : A.chain = []
      · simp [Arena.Gapless, hc, Tight, hfit]
      · refine iff_of_false ?_ (by simp [hfit, hc])
        rintro (hnil | ht)
        · simp at hnil
        · exact ht.prev_ne hpos hc rfl
    · rw [Arena.kmalloc_full hf hfit]
      exact iff_of_true hg (.inr (.inl hfit))

-- ---------------------------------------------------------------------------
-- kfree
-- ---------------------------------------------------------------------------

/-- In a tight list the merge with the predecessor leaves a tight list up to
the freed block, whatever follows. -/
theorem freeAt_tight (hpos : 0 < heap) (A : Arena) (ht : Tight 0 heap (pre ++ [b]) mid)
    (post : List Blk) :
    ∃ pre' b' post', A.freeAt pre b post = A.release pre' b' post' ∧
      (post' = post ∨ post' = setPrev b'.addr post) ∧ Tight 0 heap (pre' ++ [b']) mid ∧
      b'.free = true ∧ (pre' = [] ↔ pre = [] ∨ ∃ x, pre = [x] ∧ x.free = true) := by
  have hflag : Tight 0 heap (pre ++ [{ b with free := true }]) mid := by
    obtain ⟨m, hpre, hb⟩ := tight_append.mp ht
    exact tight_append.mpr ⟨m, hpre, hb⟩
  rcases List.eq_nil_or_concat pre with rfl | ⟨pre, x, rfl⟩
  · refine ⟨[], _, post, A.freeAt_plain post (by simp), .inl rfl, hflag, rfl, by simp⟩
  · rw [List.concat_eq_append] at *
    cases hx : x.free with
    | false =>
      refine ⟨pre ++ [x], _, post, A.freeAt_plain post (by simp [hx]), .inl rfl, hflag, rfl, ?_⟩
      refine iff_of_false (by simp) ?_
      rintro (hnil | ⟨y, hy, hyf⟩)
      · simp at hnil
      · obtain ⟨-, rfl⟩ : pre = [] ∧ x = y := by simpa [List.append_eq_singleton_iff] using hy
        rw [hx] at hyf
        cases hyf
    | true =>
      have hne := ht.prev_ne hpos (by simp)
      rw [List.append_assoc] at ht
      obtain ⟨m, hpre, hxb⟩ := tight_append.mp ht
      refine ⟨pre, x.join b, _, A.freeAt_back pre post hne hx, .inr rfl,
        tight_append.mpr ⟨m, hpre, hxb.join⟩, hx, ?_⟩
      constructor
      · rintro rfl
        exact .inr ⟨x, rfl, hx⟩
      · rintro (hnil | ⟨y, hy, -⟩)
        · simp at hnil
        · simpa using congrArg List.length hy

/-- The last part of `kfree` on a tight list: with nothing behind the block
the list is dropped if it has no other block, else it no longer reaches the
break. -/
theorem release_last (hpos : 0 < heap) (A : Arena) (ht : Tight 0 heap (pre ++ [b]) mid) :
    A.release pre b [] =
      if pre = [] then { A with stale := A.stale ++ [[b]], chain := [] }
      else { A with chain := pre } := by
  have hprev := ht.prev_last
  rcases List.eq_nil_or_concat pre with rfl | ⟨pre, x, rfl⟩
  · have h0 : b.prev = 0 := hprev
    simp [Arena.release, h0]
  · rw [List.concat_eq_append] at *
    simp [Arena.release, ht.prev_ne hpos (by simp)]

theorem not_tight_shortened (ht : Tight q lo (pre ++ [b]) hi) : ¬Tight q lo pre hi := by
  intro h
  obtain ⟨mid, hpre, hb, -, hfin⟩ := tight_append.mp ht
  have hm : metaBlockSize = 40 := rfl
  have hmid := hpre.unique h
  simp only [Tight, Blk.fin] at hfin
  omega

theorem Tight.merged (ht : Tight q lo (pre ++ [b]) mid) (hpost : Tight p mid post hi) :
    Tight q lo (pre ++ Kmem.mergeNext b post) hi := by
  obtain ⟨m, hpre, hb, hprev, hfin⟩ := tight_append.mp ht
  rw [← mergeNext_setPrev b b.addr]
  refine tight_append.mpr ⟨m, hpre, Tight.mergeNext ⟨hb, hprev, ?_⟩⟩
  rw [show b.fin = mid from hfin]
  exact hpost.setPrev

theorem freeAt_inside (hpos : 0 < heap) (A : Arena) (ht : Tight 0 heap (pre ++ [b]) mid)
    (hpost : post ≠ []) :
    ∃ pre' b', A.freeAt pre b post = { A with chain := pre' ++ mergeNext b' post } ∧
      Tight 0 heap (pre' ++ [b']) mid := by
  obtain ⟨pre', b', post', hfree, hpost', ht', -, -⟩ := freeAt_tight hpos A ht post
  refine ⟨pre', b', ?_, ht'⟩
  rcases hpost' with rfl | rfl
  · rw [hfree, release_nonempty A hpost]
  · rw [hfree, release_nonempty A (by cases post <;> simp_all [setPrev]), mergeNext_setPrev]

theorem freeAt_last (hpos : 0 < heap) (A : Arena) (ht : Tight 0 heap (pre ++ [b]) mid) :
    (∃ b', b'.free = true ∧ (pre = [] ∨ ∃ x, pre = [x] ∧ x.free = true) ∧
      A.freeAt pre b [] = { A with stale := A.stale ++ [[b']], chain := [] }) ∨
    (∃ pre', pre' ≠ [] ∧ ¬Tight 0 heap pre' mid ∧ ¬(pre = [] ∨ ∃ x, pre = [x] ∧ x.free = true) ∧
      A.freeAt pre b [] = { A with chain := pre' }) := by
  obtain ⟨pre', b', post', hfree, hpost', ht', hf, hpre'⟩ := freeAt_tight hpos A ht []
  obtain rfl : post' = [] := hpost'.elim id id
  rw [hfree, release_last hpos A ht', ← hpre']
  by_cases hp : pre' = []
  · exact .inl ⟨b', hf, hp, by rw [if_pos hp]⟩
  · exact .inr ⟨pre', hp, not_tight_shortened ht', hp, by rw [if_neg hp]⟩

theorem kfree_gapless (hpos : 0 < heap) (hA : A.Ok heap endp) (hg : A.Gapless heap)
    (hc : A.chain = pre ++ b :: post) :
    (A.kfree b.data).Gapless heap ↔
      A.brk ≤ b.data ∨ post ≠ [] ∨ pre = [] ∨ ∃ x, pre = [x] ∧ x.free = true := by
  have ht := hg.tight (by simp [hc])
  rw [hc] at ht
  obtain ⟨m, hpre, hb, hprev, hpost⟩ := tight_append.mp ht
  have htb : Tight 0 heap (pre ++ [b]) b.fin := tight_append.mpr ⟨m, hpre, hb, hprev, rfl⟩
  rw [kfree_eq hA hc]
  by_cases hlt : b.data < A.brk
  · rw [if_pos hlt]
    by_cases hnil : post = []
    · subst hnil
      rw [show b.fin = A.brk from hpost] at htb
      rcases freeAt_last hpos A htb with ⟨b', -, hp, h⟩ | ⟨pre', hne, hnt, hp, h⟩
      · rw [h]
        exact iff_of_true (.inl rfl) (.inr (.inr hp))
      · rw [h]
        refine iff_of_false (fun hg => hg.elim hne hnt) ?_
        rintro (hle | hne | hp')
        · omega
        · exact hne rfl
        · exact hp hp'
    · obtain ⟨pre', b', h, ht'⟩ := freeAt_inside hpos A htb hnil
      rw [h]
      exact iff_of_true (.inr (ht'.merged hpost)) (.inr (.inl hnil))
  · rw [if_neg hlt]
    exact iff_of_true hg (.inl (by omega))

/-- A list that `kfree` forgets has one block, and that is free. -/
theorem kfree_stale (hpos : 0 < heap) (hA : A.Ok heap endp) (hc : A.chain = pre ++ b :: post)
    (ht : Tight 0 heap (pre ++ [b]) mid) (hs : A.stale = []) :
    ∀ c ∈ (A.kfree b.data).stale.flatten, c.free = true := by
  rw [kfree_eq hA hc]
  split
  · by_cases hnil : post = []
    · subst hnil
      rcases freeAt_last hpos A ht with ⟨b', hf, -, h⟩ | ⟨pre', -, -, -, h⟩
      · rw [h]
        simp [hs, hf]
      · rw [h]
        simp [hs]
    · obtain ⟨pre', b', h, -⟩ := freeAt_inside hpos A ht hnil
      rw [h]
      simp [hs]
  · simp [hs]

-- ---------------------------------------------------------------------------
-- krealloc
-- ---------------------------------------------------------------------------

theorem tight_last_iff (h : Tight q lo (pre ++ b :: post) hi) : post = [] ↔ b.fin = hi := by
  obtain ⟨_, -, -, -, hp⟩ := tight_append.mp h
  cases post with
  | nil => exact iff_of_true rfl hp
  | cons c rest =>
    refine iff_of_false (by simp) ?_
    have := hp.2.2.le
    have := hp.1
    have hm : metaBlockSize = 40 := rfl
    unfold Blk.fin at *
    omega

/-- `kfree` behind which `extend_heap` has just put `t`: the merge repairs
`t`'s `prev` only if `t` comes next, or next but one behind a free block. -/
theorem tight_merge_extended (hlo : 0 < lo) (ht : Tight q lo (pre ++ [b]) mid)
    (hpost : Tight p mid post t.addr) (htp : t.prev = 0) :
    Tight q lo (pre ++ mergeNext b (post ++ [t])) t.fin ↔
      post = [] ∨ ∃ c, post = [c] ∧ c.free = true := by
  have stuck : ∀ l, l ≠ [] → ¬Tight q lo (l ++ [t]) t.fin := fun l hl h =>
    h.prev_ne hlo hl htp
  match post with
  | [] =>
    refine iff_of_true ?_ (.inl rfl)
    exact ht.merged (p := 0) ⟨hpost.symm, htp, rfl⟩
  | [c] =>
    cases hc : c.free with
    | true =>
      refine iff_of_true ?_ (.inr ⟨c, rfl, hc⟩)
      have hrepair : mergeNext b ([c] ++ [t]) = mergeNext b [c, { t with prev := c.addr }] := by
        simp [mergeNext, hc, setPrev]
      rw [hrepair]
      exact ht.merged (p := p) ⟨hpost.1, hpost.2.1, hpost.2.2.symm, rfl, rfl⟩
    | false =>
      refine iff_of_false ?_ (by simp [hc])
      have := stuck (pre ++ [b, { c with prev := b.addr }]) (by simp)
      simpa [mergeNext, hc] using this
  | c :: d :: rest =>
    refine iff_of_false ?_ (by simp)
    cases hc : c.free with
    | true =>
      have := stuck (pre ++ b.join c :: { d with prev := b.addr } :: rest) (by simp)
      simpa [mergeNext, hc, setPrev] using this
    | false =>
      have := stuck (pre ++ b :: { c with prev := b.addr } :: d :: rest) (by simp)
      simpa [mergeNext, hc] using this

theorem Tight.upTo (h : Tight q lo (pre ++ b :: post) hi) :
    Tight q lo (pre ++ [b]) b.fin ∧ Tight b.addr b.fin post hi := by
  obtain ⟨m, hpre, hb, hprev, hpost⟩ := tight_append.mp h
  exact ⟨tight_append.mpr ⟨m, hpre, hb, hprev, rfl⟩, hpost⟩

theorem update_gapless (hA : A.Ok heap endp) (hg : A.Gapless heap)
    (hc : A.chain = pre ++ b :: post)
    (hf : ∀ q lo, Tight q lo (b :: post) A.brk → Tight q lo (f b post) A.brk) :
    (A.update b.data f).Gapless heap := by
  have ht := hg.tight (by simp [hc])
  rw [hc] at ht
  obtain ⟨mid, hpre, hb⟩ := tight_append.mp ht
  refine .inr ?_
  have hchain : (A.update b.data f).chain = pre ++ f b post := by
    simp [Arena.update, updateAt, find_chain hA hc]
  rw [hchain]
  exact tight_append.mpr ⟨mid, hpre, hf _ _ hb⟩

theorem kmalloc_tight (hpos : 0 < heap) (hg : A.Gapless heap) (hs : A.stale = [])
    (hc : A.chain = pre ++ b :: post) (hbf : b.free = false) (endp n : Nat) :
    ∃ pre₁ b₁ post₁ mid, (A.kmalloc endp n).1.chain = pre₁ ++ b₁ :: post₁ ∧
      b₁.data = b.data ∧ b₁.fin = b.fin ∧ Tight 0 heap (pre₁ ++ [b₁]) mid := by
  have ht := hg.tight (by simp [hc])
  rw [hc] at ht
  cases hf : findSplit (fits (align4 n)) A.chain with
  | some r =>
    have hg₁ : (A.kmalloc endp n).1.Gapless heap :=
      (kmalloc_gapless hpos hg).mpr (.inl (by rw [hf]; rfl))
    obtain ⟨b₁, hb₁, haddr, hsize, -⟩ :=
      A.kmalloc_keeps 0 endp n b (by simp [Arena.blocks, hc]) hbf b.data_ne
    rw [Arena.blocks, A.kmalloc_stale, hs, List.flatten_nil, List.nil_append] at hb₁
    obtain ⟨pre₁, post₁, hc₁⟩ := List.append_of_mem hb₁
    have ht₁ := hg₁.tight (by simp [hc₁])
    rw [hc₁] at ht₁
    exact ⟨pre₁, b₁, post₁, _, hc₁, by simp [Blk.data, haddr], by simp [Blk.fin, haddr, hsize],
      ht₁.upTo.1⟩
  | none =>
    by_cases hfit : A.brk + metaBlockSize + align4 n ≤ endp
    · rw [Arena.kmalloc_extended hf hfit rfl]
      exact ⟨pre, b, _, _, by simp [hc]; rfl, rfl, rfl, ht.upTo.1⟩
    · rw [Arena.kmalloc_full hf hfit]
      exact ⟨pre, b, post, _, hc, rfl, rfl, ht.upTo.1⟩

theorem move_stale (hpos : 0 < heap) (hA : A.Ok heap endp) (hg : A.Gapless heap)
    (hs : A.stale = []) (hc : A.chain = pre ++ b :: post) (hbf : b.free = false) (n : Nat) :
    ∀ c ∈ (A.move endp b.data n).1.stale.flatten, c.free = true := by
  rcases A.move_eq hA b.data with h | ⟨-, h⟩
  · rw [h]
    simp [hs]
  · obtain ⟨pre₁, b₁, post₁, mid, hc₁, hd, -, ht₁⟩ := kmalloc_tight hpos hg hs hc hbf endp n
    rw [h, ← hd]
    exact kfree_stale hpos (A.kmalloc_ok hA n) hc₁ ht₁ (by rw [A.kmalloc_stale, hs])

theorem placed_kfree_gapless (hpos : 0 < heap) (hA : A.Ok heap endp) (hg : A.Gapless heap)
    (hs : A.stale = []) (hc : A.chain = pre ++ b :: post) (hbf : b.free = false)
    (hf : (findSplit (fits (align4 n)) A.chain).isSome = true) :
    ((A.kmalloc endp n).1.kfree b.data).Gapless heap ↔ post ≠ [] ∨ A.brk ≤ b.data := by
  have hg₁ : (A.kmalloc endp n).1.Gapless heap := (kmalloc_gapless hpos hg).mpr (.inl hf)
  have hA₁ := A.kmalloc_ok hA n
  obtain ⟨r, hr⟩ := Option.isSome_iff_exists.mp hf
  have hbrk : (A.kmalloc endp n).1.brk = A.brk := by rw [Arena.kmalloc_placed hr]
  have hserve : (A.kmalloc endp n).2 ≠ 0 ∧ A.Unused (A.kmalloc endp n).2 ∧
      (A.kmalloc endp n).1.Serves (A.kmalloc endp n).2 (align4 n) := by
    refine (A.kmalloc_serves hA n).resolve_left fun h0 => ?_
    rw [Arena.kmalloc_placed hr] at h0
    exact Blk.data_ne _ (congrArg Prod.snd h0)
  obtain ⟨-, hunused, d, hd, hdq, hdf, -⟩ := hserve
  obtain ⟨pre₁, b₁, post₁, -, hc₁, hdata, hfin, -⟩ := kmalloc_tight hpos hg hs hc hbf endp n
  have hdb : d.data ≠ b₁.data := by
    rw [hdq, hdata]
    exact (hunused b (by simp [Arena.blocks, hc]) hbf).symm
  rw [Arena.blocks, A.kmalloc_stale, hs, List.flatten_nil, List.nil_append, hc₁] at hd
  have ht := hg.tight (by simp [hc])
  have ht₁ := hg₁.tight (by simp [hc₁])
  rw [hc] at ht
  rw [hc₁, hbrk] at ht₁
  have hlast : post₁ = [] ↔ post = [] := by rw [tight_last_iff ht, tight_last_iff ht₁, hfin]
  -- at the end of the list, the new block is in front
  have hfront : post = [] → ¬(pre₁ = [] ∨ ∃ x, pre₁ = [x] ∧ x.free = true) := by
    rw [← hlast]
    rintro rfl (rfl | ⟨x, rfl, hx⟩)
    · obtain rfl : d = b₁ := by simpa using hd
      exact hdb rfl
    · rcases (by simpa using hd : d = x ∨ d = b₁) with rfl | rfl
      · rw [hx] at hdf
        cases hdf
      · exact hdb rfl
  rw [← hdata, kfree_gapless hpos hA₁ hg₁ hc₁, hbrk, ne_eq, hlast]
  constructor
  · rintro (h | h | h)
    · exact .inr h
    · exact .inl h
    · exact .inl fun hnil => hfront hnil h
  · rintro (h | h)
    · exact .inr (.inl h)
    · exact .inl h

theorem extended_kfree_gapless (hpos : 0 < heap) (hA : A.Ok heap endp) (hg : A.Gapless heap)
    (hc : A.chain = pre ++ b :: post) (hf : findSplit (fits (align4 n)) A.chain = none)
    (hfit : A.brk + metaBlockSize + align4 n ≤ endp) :
    ((A.kmalloc endp n).1.kfree b.data).Gapless heap ↔
      post = [] ∨ ∃ c, post = [c] ∧ c.free = true := by
  have hA₁ := A.kmalloc_ok hA n
  have ht := hg.tight (by simp [hc])
  rw [hc] at ht
  obtain ⟨htb, hpost⟩ := ht.upTo
  rw [Arena.kmalloc_extended hf hfit rfl] at hA₁ ⊢
  generalize htd : ({ addr := A.brk, size := align4 n, free := false, prev := 0 } : Blk) = t
    at hA₁ ⊢
  have hta : t.addr = A.brk := by rw [← htd]
  have htp : t.prev = 0 := by rw [← htd]
  have hc₁ : A.chain ++ [t] = pre ++ b :: (post ++ [t]) := by simp [hc]
  have hlt : b.data < t.fin := by
    have := hpost.le
    have hm : metaBlockSize = 40 := rfl
    unfold Blk.fin Blk.data at *
    omega
  rw [kfree_eq hA₁ hc₁, if_pos hlt]
  have hpt : post ++ [t] ≠ [] := by simp
  obtain ⟨pre', b', h, ht'⟩ := freeAt_inside hpos _ htb hpt
  rw [h, ← tight_merge_extended hpos ht' (hta ▸ hpost) htp]
  refine ⟨fun hg => hg.resolve_left ?_, .inr⟩
  intro hnil
  have hm : mergeNext b' (post ++ [t]) = [] := (List.append_eq_nil_iff.mp hnil).2
  cases post with
  | nil =>
    simp only [List.nil_append, mergeNext] at hm
    split at hm <;> cases hm
  | cons c rest =>
    simp only [List.cons_append, mergeNext] at hm
    split at hm <;> cases hm

end

end TomatoOs.Kmem
