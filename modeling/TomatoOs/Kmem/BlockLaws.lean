import TomatoOs.Kmem.Blocks

/-!
# Invariants of the block lists

`Arena.Ok` is kept by every operation of the arena: the blocks of all lists
lie in address order without overlap between the heap's start and the break,
and each `prev` in the list from `base` is `NULL` or the true predecessor.
The operations only replace a stretch of one list by blocks that fit in the
same space (`Refits`), and they keep every block in use but the one they are
about (`Keeps`).
-/

namespace TomatoOs.Kmem

open Lib

/-- In the order of the list, without overlap, inside `[lo, hi)`. -/
def Ordered (lo : Nat) : List Blk → Nat → Prop
  | [], hi => lo ≤ hi
  | b :: rest, hi => lo ≤ b.addr ∧ Ordered b.fin rest hi

def lastAddr (pred : Nat) : List Blk → Nat
  | [] => pred
  | b :: rest => lastAddr b.addr rest

def Linked (pred : Nat) : List Blk → Prop
  | [] => True
  | b :: rest => (b.prev = 0 ∨ b.prev = pred) ∧ Linked b.addr rest

def Refits (l l' : List Blk) : Prop := ∀ lo hi, Ordered lo l hi → Ordered lo l' hi

/-- The blocks in use, that at `p` apart, are still there with their size. -/
def Keeps (p : Nat) (l l' : List Blk) : Prop :=
  ∀ b ∈ l, b.free = false → b.data ≠ p →
    ∃ b' ∈ l', b'.addr = b.addr ∧ b'.size = b.size ∧ b'.free = false

structure Arena.Ok (heap endp : Nat) (A : Arena) : Prop where
  ordered : Ordered heap A.blocks A.brk
  linked : Linked 0 A.chain
  brk_le : A.brk ≤ endp

theorem Blk.data_ne (b : Blk) : b.data ≠ 0 := by
  have hm : metaBlockSize = 40 := rfl
  unfold Blk.data
  omega

-- ---------------------------------------------------------------------------
-- Order
-- ---------------------------------------------------------------------------

theorem Ordered.le (h : Ordered lo l hi) : lo ≤ hi := by
  induction l generalizing lo with
  | nil => exact h
  | cons b rest ih =>
    have hr := ih h.2
    have := h.1
    unfold Blk.fin at hr
    omega

theorem Ordered.weaken (h : Ordered lo l hi) (hlo : lo' ≤ lo) (hhi : hi ≤ hi') :
    Ordered lo' l hi' := by
  induction l generalizing lo lo' with
  | nil => exact Nat.le_trans (Nat.le_trans hlo h) hhi
  | cons b rest ih => exact ⟨Nat.le_trans hlo h.1, ih h.2 (Nat.le_refl _)⟩

theorem ordered_append : Ordered lo (l₁ ++ l₂) hi ↔
    ∃ mid, Ordered lo l₁ mid ∧ Ordered mid l₂ hi := by
  induction l₁ generalizing lo with
  | nil =>
    constructor
    · intro h; exact ⟨lo, Nat.le_refl lo, h⟩
    · rintro ⟨mid, hm, h⟩; exact h.weaken hm (Nat.le_refl hi)
  | cons b rest ih =>
    simp only [List.cons_append, Ordered, ih]
    constructor
    · rintro ⟨hb, mid, h₁, h₂⟩; exact ⟨mid, ⟨hb, h₁⟩, h₂⟩
    · rintro ⟨mid, ⟨hb, h₁⟩, h₂⟩; exact ⟨hb, mid, h₁, h₂⟩

theorem Ordered.mem (h : Ordered lo l hi) (hb : b ∈ l) : lo ≤ b.addr ∧ b.fin ≤ hi := by
  obtain ⟨pre, post, rfl⟩ := List.append_of_mem hb
  obtain ⟨mid, hpre, hmid, hpost⟩ := ordered_append.mp h
  exact ⟨Nat.le_trans hpre.le hmid, hpost.le⟩

theorem Ordered.before (h : Ordered lo (pre ++ b :: post) hi) (hc : c ∈ pre) :
    c.fin ≤ b.addr := by
  obtain ⟨mid, hpre, hmid, -⟩ := ordered_append.mp h
  exact Nat.le_trans (hpre.mem hc).2 hmid

theorem Ordered.after (h : Ordered lo (pre ++ b :: post) hi) (hc : c ∈ post) :
    b.fin ≤ c.addr := by
  obtain ⟨mid, -, -, hpost⟩ := ordered_append.mp h
  exact (hpost.mem hc).1

theorem Ordered.apart (h : Ordered lo l hi) (hb : b ∈ l) (hc : c ∈ l) :
    b = c ∨ b.fin ≤ c.addr ∨ c.fin ≤ b.addr := by
  obtain ⟨pre, post, rfl⟩ := List.append_of_mem hb
  rcases List.mem_append.mp hc with hc | hc
  · exact .inr (.inr (h.before hc))
  · rcases List.mem_cons.mp hc with rfl | hc
    · exact .inl rfl
    · exact .inr (.inl (h.after hc))

theorem Ordered.unique (h : Ordered lo l hi) (hb : b ∈ l) (hc : c ∈ l)
    (ha : b.addr = c.addr) : b = c := by
  have hm : metaBlockSize = 40 := rfl
  rcases h.apart hb hc with he | hl | hl
  · exact he
  all_goals
    unfold Blk.fin at hl
    omega

-- ---------------------------------------------------------------------------
-- Replacing a stretch
-- ---------------------------------------------------------------------------

theorem Refits.refl (l : List Blk) : Refits l l := fun _ _ h => h

theorem Refits.trans (h : Refits l₁ l₂) (h' : Refits l₂ l₃) : Refits l₁ l₃ :=
  fun lo hi ho => h' lo hi (h lo hi ho)

theorem Refits.append (h₁ : Refits l₁ l₁') (h₂ : Refits l₂ l₂') :
    Refits (l₁ ++ l₂) (l₁' ++ l₂') := by
  intro lo hi h
  obtain ⟨mid, h₁', h₂'⟩ := ordered_append.mp h
  exact ordered_append.mpr ⟨mid, h₁ lo mid h₁', h₂ mid hi h₂'⟩

theorem Refits.cons (b : Blk) (h : Refits l l') : Refits (b :: l) (b :: l') :=
  fun _ hi ho => ⟨ho.1, h _ hi ho.2⟩

theorem refits_drop (l : List Blk) : Refits l [] := fun _ _ h => h.le

theorem refits_setPrev (p : Nat) (l : List Blk) : Refits l (setPrev p l) := by
  intro lo hi h
  cases l with
  | nil => exact h
  | cons b rest => exact h

theorem refits_carve (hroom : metaBlockSize + 4 ≤ b.size - s) (rest : List Blk) :
    Refits (b :: rest) ({ b with size := s } :: b.remainder s :: rest) := by
  intro lo hi h
  have hfin : (b.remainder s).fin = b.fin := by
    simp only [Blk.fin, Blk.remainder, Blk.data]
    omega
  refine ⟨h.1, Nat.le_refl _, ?_⟩
  rw [hfin]
  exact h.2

theorem refits_cut (b : Blk) (s : Nat) (rest : List Blk) : Refits (b :: rest) (cut b s rest) := by
  unfold cut
  split
  · rename_i hroom
    exact (refits_carve hroom rest).trans (.cons _ (.cons _ (refits_setPrev _ rest)))
  · exact .refl _

theorem refits_join (b c : Blk) (rest : List Blk) : Refits (b :: c :: rest) (b.join c :: rest) := by
  rintro lo hi ⟨hb, hc, hr⟩
  refine ⟨hb, hr.weaken ?_ (Nat.le_refl hi)⟩
  -- with a gap between the two, the joined block stops short of `c`'s end
  simp only [Blk.fin, Blk.join] at hc ⊢
  omega

theorem refits_mergeNext (b : Blk) (l : List Blk) : Refits (b :: l) (mergeNext b l) := by
  cases l with
  | nil => exact .refl _
  | cons c rest =>
    simp only [mergeNext]
    split
    · exact (refits_join b c rest).trans (.cons _ (refits_setPrev _ rest))
    · exact .cons b (refits_setPrev _ (c :: rest))

theorem refits_grow (s : Nat) (b : Blk) (l : List Blk) : Refits (b :: l) (grow s b l) := by
  cases l with
  | nil => exact .refl _
  | cons c rest =>
    exact (refits_join b c rest).trans
      ((Refits.cons _ (refits_setPrev b.addr rest)).trans (refits_cut _ s _))

theorem refits_flags (b : Blk) (x : Bool) (p : Nat) (rest : List Blk) :
    Refits (b :: rest) ({ b with free := x, prev := p } :: rest) := fun _ _ h => h

-- ---------------------------------------------------------------------------
-- Links
-- ---------------------------------------------------------------------------

theorem linked_append : Linked pred (l₁ ++ l₂) ↔ Linked pred l₁ ∧ Linked (lastAddr pred l₁) l₂ := by
  induction l₁ generalizing pred with
  | nil => simp [Linked, lastAddr]
  | cons b rest ih => simp [Linked, lastAddr, ih, and_assoc]

theorem Linked.setPrev (h : Linked q l) : Linked p (setPrev p l) := by
  cases l with
  | nil => trivial
  | cons b rest => exact ⟨.inr rfl, h.2⟩

theorem Linked.cut (h : Linked q (b :: rest)) : Linked q (cut b s rest) := by
  unfold Kmem.cut
  split
  · exact ⟨h.1, .inr rfl, h.2.setPrev⟩
  · exact h

theorem Linked.join (h : Linked q (b :: c :: rest)) :
    Linked q (b.join c :: Kmem.setPrev b.addr rest) := ⟨h.1, h.2.2.setPrev⟩

theorem Linked.mergeNext (h : Linked q (b :: l)) : Linked q (mergeNext b l) := by
  cases l with
  | nil => exact h
  | cons c rest =>
    simp only [Kmem.mergeNext]
    split
    · exact h.join
    · exact ⟨h.1, .inr rfl, h.2.2⟩

theorem Linked.grow (h : Linked q (b :: l)) : Linked q (grow s b l) := by
  cases l with
  | nil => exact h
  | cons c rest => exact h.join.cut

theorem lastAddr_concat : lastAddr pred (l ++ [x]) = x.addr := by
  induction l generalizing pred with
  | nil => rfl
  | cons b rest ih => exact ih

theorem Linked.prev_eq (h : Linked pred (l ++ [x] ++ b :: post)) (hb : b.prev ≠ 0) :
    b.prev = x.addr := by
  have hl := (linked_append.mp h).2.1
  rw [lastAddr_concat] at hl
  exact hl.resolve_left hb

-- ---------------------------------------------------------------------------
-- Blocks in use
-- ---------------------------------------------------------------------------

theorem Keeps.refl (p : Nat) (l : List Blk) : Keeps p l l :=
  fun b hb hf _ => ⟨b, hb, rfl, rfl, hf⟩

theorem Keeps.trans (h : Keeps p l₁ l₂) (h' : Keeps p l₂ l₃) : Keeps p l₁ l₃ := by
  intro b hb hf hp
  obtain ⟨c, hc, ha, hs, hcf⟩ := h b hb hf hp
  have hcp : c.data ≠ p := by simpa [Blk.data, ha] using hp
  obtain ⟨d, hd, ha', hs', hdf⟩ := h' c hc hcf hcp
  exact ⟨d, hd, ha'.trans ha, hs'.trans hs, hdf⟩

theorem Keeps.append (h₁ : Keeps p l₁ l₁') (h₂ : Keeps p l₂ l₂') :
    Keeps p (l₁ ++ l₂) (l₁' ++ l₂') := by
  intro b hb hf hp
  rcases List.mem_append.mp hb with hb | hb
  · obtain ⟨c, hc, h⟩ := h₁ b hb hf hp
    exact ⟨c, List.mem_append_left _ hc, h⟩
  · obtain ⟨c, hc, h⟩ := h₂ b hb hf hp
    exact ⟨c, List.mem_append_right _ hc, h⟩

theorem Keeps.cons (b : Blk) (h : Keeps p l l') : Keeps p (b :: l) (b :: l') :=
  (Keeps.refl p [b]).append h

theorem Keeps.grown (b : Blk) (h : Keeps p l l') : Keeps p l (b :: l') := by
  intro c hc hf hp
  obtain ⟨d, hd, h⟩ := h c hc hf hp
  exact ⟨d, List.mem_cons_of_mem b hd, h⟩

theorem Keeps.more (h : Keeps p l l') (m : List Blk) : Keeps p l (l' ++ m) := by
  intro c hc hf hp
  obtain ⟨d, hd, h⟩ := h c hc hf hp
  exact ⟨d, List.mem_append_left m hd, h⟩

theorem Keeps.dropped (hb : b.free = true ∨ b.data = p) (h : Keeps p l l') :
    Keeps p (b :: l) l' := by
  intro c hc hf hp
  rcases List.mem_cons.mp hc with rfl | hc
  · rcases hb with hb | hb
    · simp [hb] at hf
    · exact absurd hb hp
  · exact h c hc hf hp

theorem keeps_setPrev (p q : Nat) (l : List Blk) : Keeps p l (setPrev q l) := by
  cases l with
  | nil => exact .refl p []
  | cons b rest =>
    intro c hc hf _
    rcases List.mem_cons.mp hc with rfl | hc
    · exact ⟨_, List.mem_cons_self, rfl, rfl, hf⟩
    · exact ⟨c, List.mem_cons_of_mem _ hc, rfl, rfl, hf⟩

theorem keeps_cut (hb : b.free = true ∨ b.data = p) (b' : Blk) (s : Nat) (rest : List Blk) :
    Keeps p (b :: rest) (cut b' s rest) := by
  unfold cut
  split
  · exact .dropped hb (.grown _ (.grown _ (keeps_setPrev p _ rest)))
  · exact .dropped hb (.grown _ (.refl p rest))

theorem keeps_mergeNext (hb : b.free = true ∨ b.data = p) (b' : Blk) (l : List Blk) :
    Keeps p (b :: l) (mergeNext b' l) := by
  cases l with
  | nil => exact .dropped hb (.grown _ (.refl p []))
  | cons c rest =>
    simp only [mergeNext]
    split
    · rename_i hc
      exact .dropped hb (.dropped (.inl hc) (.grown _ (keeps_setPrev p _ rest)))
    · exact .dropped hb (.grown _ (keeps_setPrev p _ (c :: rest)))

theorem keeps_grow (hb : b.data = p) (hc : c.free = true) (s : Nat) (rest : List Blk) :
    Keeps p (b :: c :: rest) (grow s b (c :: rest)) := by
  have hr : Keeps p (b :: rest) (cut (b.join c) s (setPrev b.addr rest)) :=
    (Keeps.cons b (keeps_setPrev p b.addr rest)).trans (keeps_cut (.inr hb) _ s _)
  intro d hd hf hp
  have hd' : d ∈ b :: rest := by
    rcases List.mem_cons.mp hd with rfl | hd
    · exact List.mem_cons_self
    · rcases List.mem_cons.mp hd with rfl | hd
      · simp [hc] at hf
      · exact List.mem_cons_of_mem b hd
  exact hr d hd' hf hp

-- ---------------------------------------------------------------------------
-- kmalloc
-- ---------------------------------------------------------------------------

section
variable {heap endp : Nat} {A : Arena}

theorem Arena.Ok.replace (hA : A.Ok heap endp) (hc : A.chain = pre ++ l)
    (hr : Refits l l') (hl : ∀ q, Linked q l → Linked q l') :
    ({ A with chain := pre ++ l' } : Arena).Ok heap endp := by
  obtain ⟨ho, hk, hb⟩ := hA
  refine ⟨?_, ?_, hb⟩
  · rw [Arena.blocks, hc] at ho
    exact Refits.append (.refl _) (.append (.refl _) hr) _ _ ho
  · rw [hc] at hk
    have hk := linked_append.mp hk
    exact linked_append.mpr ⟨hk.1, hl _ hk.2⟩

theorem Arena.Ok.extend (hA : A.Ok heap endp) (hfit : A.brk + metaBlockSize + s ≤ endp) :
    ({ A with chain := A.chain ++ [{ addr := A.brk, size := s, free := false, prev := 0 }],
              brk := A.brk + metaBlockSize + s } : Arena).Ok heap endp := by
  obtain ⟨ho, hk, hb⟩ := hA
  refine ⟨?_, ?_, hfit⟩
  · rw [Arena.blocks, ← List.append_assoc]
    exact ordered_append.mpr ⟨A.brk, ho, Nat.le_refl _, Nat.le_refl _⟩
  · exact linked_append.mpr ⟨hk, .inl rfl, trivial⟩

theorem Arena.kmalloc_ok (hA : A.Ok heap endp) (n : Nat) :
    (A.kmalloc endp n).1.Ok heap endp := by
  unfold Arena.kmalloc
  split
  · rename_i pre b post hf
    obtain ⟨hc, -, -⟩ := findSplit_some hf
    refine hA.replace hc ?_ fun q hq => ?_
    · exact (refits_flags b false b.prev post).trans (refits_cut _ _ post)
    · exact Linked.cut (b := { b with free := false }) hq
  · split
    · rename_i hfit
      exact hA.extend hfit
    · exact hA

theorem Arena.kmalloc_keeps (A : Arena) (p endp n : Nat) :
    Keeps p A.blocks (A.kmalloc endp n).1.blocks := by
  unfold Arena.kmalloc
  split
  · rename_i pre b post hf
    obtain ⟨hc, hb, -⟩ := findSplit_some hf
    have hfree : b.free = true := by simp [fits] at hb; exact hb.1
    rw [Arena.blocks, hc]
    exact .append (.refl p _) (.append (.refl p _) (keeps_cut (.inl hfree) _ _ post))
  · split
    · have := (Keeps.refl p A.blocks).more [⟨A.brk, align4 n, false, 0⟩]
      simpa [Arena.blocks] using this
    · exact .refl p _

-- ---------------------------------------------------------------------------
-- kfree
-- ---------------------------------------------------------------------------

theorem Arena.release_ok (hA : A.Ok heap endp) (hc : A.chain = pre ++ l)
    (hr : Refits l (b :: post)) (hl : ∀ q, Linked q l → Linked q (b :: post)) :
    (A.release pre b post).Ok heap endp := by
  have hA' := hA.replace hc hr hl
  unfold Arena.release
  split
  · exact hA'.replace rfl (refits_mergeNext b post) fun q hq => hq.mergeNext
  · rename_i hpost
    obtain rfl : post = [] := by simpa using hpost
    split
    · have := hA'.replace rfl (refits_drop [b]) fun q _ => trivial
      simpa using this
    · refine ⟨?_, trivial, hA'.brk_le⟩
      have := hA'.ordered
      simpa [Arena.blocks] using this

theorem Arena.release_keeps (A : Arena) (hb : b.free = true ∨ b.data = p) (b' : Blk)
    (post : List Blk) :
    Keeps p (A.stale.flatten ++ (pre ++ b :: post)) (A.release pre b' post).blocks := by
  unfold Arena.release
  split
  · exact .append (.refl p _) (.append (.refl p _) (keeps_mergeNext hb b' post))
  · rename_i hpost
    obtain rfl : post = [] := by simpa using hpost
    have hdrop : Keeps p (A.stale.flatten ++ (pre ++ [b])) (A.stale.flatten ++ (pre ++ [])) :=
      .append (.refl p _) (.append (.refl p _) (.dropped hb (.refl p [])))
    split
    · simpa [Arena.blocks] using hdrop
    · simpa [Arena.blocks] using hdrop.more [b']

theorem Arena.freeAt_ok (hA : A.Ok heap endp) (hc : A.chain = pre ++ b :: post) :
    (A.freeAt pre b post).Ok heap endp := by
  have plain : (A.release pre { b with free := true } post).Ok heap endp :=
    A.release_ok hA hc (refits_flags b true b.prev post) fun q hq => hq
  unfold Arena.freeAt
  split
  · rename_i x hx
    split
    · obtain ⟨pre', rfl⟩ := List.getLast?_eq_some_iff.mp hx
      simp only [List.dropLast_concat]
      refine A.release_ok (l := x :: b :: post) hA (by simpa using hc) ?_ fun q hq => hq.join
      exact (refits_join x b post).trans (.cons _ (refits_setPrev _ post))
    · exact plain
  · exact plain

theorem Arena.freeAt_keeps (hc : A.chain = pre ++ b :: post) :
    Keeps b.data A.blocks (A.freeAt pre b post).blocks := by
  have plain : Keeps b.data A.blocks (A.release pre { b with free := true } post).blocks := by
    rw [Arena.blocks, hc]
    exact A.release_keeps (.inr rfl) _ post
  unfold Arena.freeAt
  split
  · rename_i x hx
    split
    · rename_i hm
      obtain ⟨pre', rfl⟩ := List.getLast?_eq_some_iff.mp hx
      simp only [List.dropLast_concat]
      have hjoin : Keeps b.data (x :: b :: post) (x :: setPrev x.addr post) :=
        .cons x (.dropped (.inr rfl) (keeps_setPrev _ _ post))
      have hfirst : Keeps b.data A.blocks
          (A.stale.flatten ++ (pre' ++ x :: setPrev x.addr post)) := by
        rw [Arena.blocks, hc, List.append_assoc]
        exact .append (.refl _ _) (.append (.refl _ _) hjoin)
      exact hfirst.trans (A.release_keeps (.inl hm.2) _ _)
    · exact plain
  · exact plain

theorem Arena.kfree_ok (hA : A.Ok heap endp) (p : Nat) : (A.kfree p).Ok heap endp := by
  unfold Arena.kfree
  split
  · rename_i pre b post hf
    split
    · exact A.freeAt_ok hA (findSplit_some hf).1
    · exact hA
  · exact hA

theorem Arena.kfree_keeps (A : Arena) (p : Nat) : Keeps p A.blocks (A.kfree p).blocks := by
  unfold Arena.kfree
  split
  · rename_i pre b post hf
    obtain ⟨hc, hb, -⟩ := findSplit_some hf
    have hp : b.data = p := by simpa [holds] using hb
    split
    · exact hp ▸ A.freeAt_keeps hc
    · exact .refl p _
  · exact .refl p _

-- ---------------------------------------------------------------------------
-- Changes in place
-- ---------------------------------------------------------------------------

theorem Arena.blocks_eq (A : Arena) : A.blocks = A.lists.flatten := by
  simp [Arena.blocks, Arena.lists]

theorem Arena.lists_update (A : Arena) : (A.update p f).lists = A.lists.map (updateAt p f) := by
  simp [Arena.lists, Arena.update]

theorem updateAt_other (h : ∀ c ∈ l, c.data ≠ p) : updateAt p f l = l := by
  have hn : findSplit (holds p) l = none :=
    findSplit_none.mpr fun c hc => by simpa [holds] using h c hc
  simp [updateAt, hn]

theorem updateAt_append (h : ∀ c ∈ pre, c.data ≠ p) (hb : b.data = p) :
    updateAt p f (pre ++ b :: post) = pre ++ f b post := by
  have hs : findSplit (holds p) (pre ++ b :: post) = some (pre, b, post) :=
    findSplit_append (fun c hc => by simpa [holds] using h c hc) (by simpa [holds] using hb)
  simp [updateAt, hs]

theorem Arena.Ok.data_unique (hA : A.Ok heap endp)
    (hL : A.lists = L₁ ++ (pre ++ b :: post) :: L₂) (hb : b.data = p) :
    (∀ c ∈ L₁.flatten ++ pre, c.data ≠ p) ∧ ∀ c ∈ post ++ L₂.flatten, c.data ≠ p := by
  have hm : metaBlockSize = 40 := rfl
  have ho := hA.ordered
  rw [A.blocks_eq, hL] at ho
  have ho' : Ordered heap ((L₁.flatten ++ pre) ++ b :: (post ++ L₂.flatten)) A.brk := by
    simpa using ho
  constructor <;> intro c hc
  · have := ho'.before hc
    simp only [Blk.fin, Blk.data] at *
    omega
  · have := ho'.after hc
    simp only [Blk.fin, Blk.data] at *
    omega

theorem Arena.lists_update_eq (hA : A.Ok heap endp)
    (hL : A.lists = L₁ ++ (pre ++ b :: post) :: L₂) (hb : b.data = p) :
    (A.update p f).lists = L₁ ++ (pre ++ f b post) :: L₂ := by
  obtain ⟨hbefore, hafter⟩ := hA.data_unique hL hb
  rw [A.lists_update, hL, List.map_append, List.map_cons]
  congr 1
  · rw [List.map_congr_left (g := id), List.map_id]
    intro l hl
    refine updateAt_other fun c hc => hbefore c ?_
    exact List.mem_append_left _ (List.mem_flatten.mpr ⟨l, hl, hc⟩)
  · congr 1
    · exact updateAt_append (fun c hc => hbefore c (List.mem_append_right _ hc)) hb
    · rw [List.map_congr_left (g := id), List.map_id]
      intro l hl
      refine updateAt_other fun c hc => hafter c ?_
      exact List.mem_append_right _ (List.mem_flatten.mpr ⟨l, hl, hc⟩)

theorem linked_updateAt (h : Linked q l) (hf : ∀ q b post, Linked q (b :: post) → Linked q (f b post)) :
    Linked q (updateAt p f l) := by
  unfold updateAt
  split
  · rename_i pre b post hs
    obtain ⟨rfl, -, -⟩ := findSplit_some hs
    have h := linked_append.mp h
    exact linked_append.mpr ⟨h.1, hf _ b post h.2⟩
  · exact h

theorem Arena.update_ok (hA : A.Ok heap endp)
    (hL : A.lists = L₁ ++ (pre ++ b :: post) :: L₂) (hb : b.data = p)
    (hr : Refits (b :: post) (f b post))
    (hl : ∀ q b post, Linked q (b :: post) → Linked q (f b post)) :
    (A.update p f).Ok heap endp := by
  refine ⟨?_, linked_updateAt hA.linked hl, hA.brk_le⟩
  rw [Arena.blocks_eq, A.lists_update_eq hA hL hb]
  have ho := hA.ordered
  rw [A.blocks_eq, hL] at ho
  simp only [List.flatten_append, List.flatten_cons] at ho ⊢
  exact Refits.append (.refl _) (.append (.append (.refl _) hr) (.refl _)) _ _ ho

theorem Arena.update_keeps (hA : A.Ok heap endp)
    (hL : A.lists = L₁ ++ (pre ++ b :: post) :: L₂) (hb : b.data = p)
    (hk : Keeps p (b :: post) (f b post)) :
    Keeps p A.blocks (A.update p f).blocks := by
  rw [A.blocks_eq, Arena.blocks_eq, A.lists_update_eq hA hL hb, hL]
  simp only [List.flatten_append, List.flatten_cons]
  exact .append (.refl p _) (.append (.append (.refl p _) hk) (.refl p _))

end

end TomatoOs.Kmem
