import TomatoOs.Kmem.BlockLaws

/-!
# Memory that represents an arena

`Seg h l nxt` says that the headers of the blocks of `l` stand in memory, each
pointing to the next and the last to `nxt`; `Rep h A` says it of every list of
the arena, and that `brk` and `base` are the arena's. `Stores as h h'` says
that `h'` is `h` after header stores to blocks at the addresses `as`, which
the log records; `Writes` adds that the allocator's globals are as before. Each
function of the allocator that works on one list is shown to turn a `Seg` into
the `Seg` of the corresponding list operation.
-/

namespace TomatoOs.Kmem

open Lib

-- ---------------------------------------------------------------------------
-- Header fields
-- ---------------------------------------------------------------------------

abbrev Clear (a b : Nat) : Prop := Apart a metaBlockSize b metaBlockSize

theorem Field.inside (f : Field) : f.offset + f.width ≤ metaBlockSize := by
  cases f <;> decide

theorem Field.apart {f g : Field} (h : f ≠ g) (b : Nat) :
    Apart (b + f.offset) f.width (b + g.offset) g.width := by
  cases f <;> cases g <;> simp [Apart, Field.offset, Field.width] at h ⊢

section
variable {h : Heap} {b c v : Nat} {f g : Field}

theorem Heap.get_set_word (hv : v < 2 ^ 64) (hf : f ≠ .free) : (h.set b f v).get b f = v := by
  have hw : f.width = 8 := by cases f <;> simp_all [Field.width]
  refine Mem.load_store_eq _ ?_
  rw [hw]
  exact hv

theorem Heap.get_set_flag (hv : v ≤ 1) : (h.set b .free v).get b .free = v :=
  Mem.load_store_eq _ (Nat.lt_of_le_of_lt hv (by decide))

theorem Heap.get_set_field (hf : f ≠ g) : (h.set b f v).get b g = h.get b g :=
  Mem.load_store_of_apart _ (Field.apart hf b)

theorem Heap.get_set_clear (hc : Clear b c) : (h.set b f v).get c g = h.get c g := by
  have hf := f.inside
  have hg := g.inside
  apply Mem.load_store_of_apart
  unfold Clear Apart at *
  omega

end

-- ---------------------------------------------------------------------------
-- Header stores
-- ---------------------------------------------------------------------------

def InHeader (a : Nat) (w : Nat × Nat) : Prop := a ≤ w.1 ∧ w.1 + w.2 ≤ a + metaBlockSize

def Logged (as : List Nat) (h h' : Heap) : Prop :=
  ∃ ws, h'.log = ws ++ h.log ∧ ∀ w ∈ ws, ∃ a ∈ as, InHeader a w

/-- Only header stores at `as` have changed the memory, and the log has them. -/
structure Stores (as : List Nat) (h h' : Heap) : Prop where
  endp : h'.endp = h.endp
  logged : Logged as h h'
  mem : ∀ x, (∀ a ∈ as, ¬Within a metaBlockSize x) → h'.mem x = h.mem x

structure Writes (as : List Nat) (h h' : Heap) : Prop extends Stores as h h' where
  brk : h'.brk = h.brk
  base : h'.base = h.base

theorem Logged.trans (h₁ : Logged as h h') (h₂ : Logged as h' h'') : Logged as h h'' := by
  obtain ⟨ws₁, hl₁, hi₁⟩ := h₁
  obtain ⟨ws₂, hl₂, hi₂⟩ := h₂
  refine ⟨ws₂ ++ ws₁, by simp [hl₁, hl₂], fun w hw => ?_⟩
  rcases List.mem_append.mp hw with hw | hw
  · exact hi₂ w hw
  · exact hi₁ w hw

theorem Logged.mono (hl : Logged as h h') (hs : ∀ a ∈ as, a ∈ as') : Logged as' h h' := by
  obtain ⟨ws, hl, hi⟩ := hl
  refine ⟨ws, hl, fun w hw => ?_⟩
  obtain ⟨a, ha, h⟩ := hi w hw
  exact ⟨a, hs a ha, h⟩

theorem Stores.trans (h₁ : Stores as h h') (h₂ : Stores as h' h'') : Stores as h h'' :=
  ⟨h₂.endp.trans h₁.endp, h₁.logged.trans h₂.logged,
    fun x hx => (h₂.mem x hx).trans (h₁.mem x hx)⟩

theorem Stores.mono (hw : Stores as h h') (hs : ∀ a ∈ as, a ∈ as') : Stores as' h h' :=
  ⟨hw.endp, hw.logged.mono hs, fun x hx => hw.mem x fun a ha => hx a (hs a ha)⟩

theorem Stores.get (hw : Stores as h h') (hc : ∀ a ∈ as, Clear a c) : h'.get c f = h.get c f := by
  refine Mem.load_congr fun x hx => hw.mem x fun a ha => ?_
  refine (hc a ha).not_within ⟨?_, ?_⟩
  · exact Nat.le_trans (Nat.le_add_right _ _) hx.1
  · have := f.inside
    have := hx.2
    omega

theorem Writes.refl (as : List Nat) (h : Heap) : Writes as h h :=
  ⟨⟨rfl, ⟨[], rfl, by simp⟩, fun _ _ => rfl⟩, rfl, rfl⟩

theorem Writes.trans (h₁ : Writes as h h') (h₂ : Writes as h' h'') : Writes as h h'' :=
  ⟨h₁.toStores.trans h₂.toStores, h₂.brk.trans h₁.brk, h₂.base.trans h₁.base⟩

theorem Writes.mono (hw : Writes as h h') (hs : ∀ a ∈ as, a ∈ as') : Writes as' h h' :=
  ⟨hw.toStores.mono hs, hw.brk, hw.base⟩

theorem writes_set (hb : b ∈ as) : Writes as h (h.set b f v) := by
  have hi : InHeader b (b + f.offset, f.width) := by
    have := f.inside
    exact ⟨Nat.le_add_right _ _, by simp only; omega⟩
  refine ⟨⟨rfl, ⟨[(b + f.offset, f.width)], rfl, ?_⟩, ?_⟩, rfl, rfl⟩
  · intro w hw
    obtain rfl := List.mem_singleton.mp hw
    exact ⟨b, hb, hi⟩
  · intro x hx
    refine Mem.store_outside fun hin => hx b hb ?_
    exact ⟨Nat.le_trans hi.1 hin.1, Nat.lt_of_lt_of_le hin.2 hi.2⟩

theorem Writes.set (hw : Writes as h h') (hb : b ∈ as) : Writes as h (h'.set b f v) :=
  hw.trans (writes_set hb)

-- ---------------------------------------------------------------------------
-- Lists in memory
-- ---------------------------------------------------------------------------

def headAddr : List Blk → Nat → Nat
  | [], nxt => nxt
  | b :: _, _ => b.addr

structure Holds (h : Heap) (b : Blk) (next : Nat) : Prop where
  free : h.get b.addr .free = b.free.toNat
  size : h.get b.addr .size = b.size
  next : h.get b.addr .next = next
  prev : h.get b.addr .prev = b.prev
  ptr : h.get b.addr .ptr = b.data

def Seg (h : Heap) : List Blk → Nat → Prop
  | [], _ => True
  | b :: rest, nxt => Holds h b (headAddr rest nxt) ∧ Seg h rest nxt

structure Rep (h : Heap) (A : Arena) : Prop where
  brk : h.brk = A.brk
  base : h.base = headAddr A.chain 0
  lists : ∀ l ∈ A.lists, Seg h l 0

theorem headAddr_append : headAddr (l₁ ++ l₂) nxt = headAddr l₁ (headAddr l₂ nxt) := by
  cases l₁ <;> rfl

theorem seg_append : Seg h (l₁ ++ l₂) nxt ↔ Seg h l₁ (headAddr l₂ nxt) ∧ Seg h l₂ nxt := by
  induction l₁ with
  | nil => simp [Seg]
  | cons b rest ih => simp [Seg, ih, headAddr_append, and_assoc]

theorem Holds.congr (hb : Holds h b nxt) (hg : ∀ f, h'.get b.addr f = h.get b.addr f) :
    Holds h' b nxt :=
  ⟨(hg _).trans hb.free, (hg _).trans hb.size, (hg _).trans hb.next, (hg _).trans hb.prev,
    (hg _).trans hb.ptr⟩

theorem Seg.congr (hs : Seg h l nxt) (hg : ∀ b ∈ l, ∀ f, h'.get b.addr f = h.get b.addr f) :
    Seg h' l nxt := by
  induction l with
  | nil => trivial
  | cons b rest ih =>
    exact ⟨hs.1.congr (hg b List.mem_cons_self),
      ih hs.2 fun c hc => hg c (List.mem_cons_of_mem b hc)⟩

/-- A list keeps its headers when all stores are to blocks apart from its own. -/
theorem Seg.frame (hs : Seg h l nxt) (hw : Stores as h h')
    (hc : ∀ b ∈ l, ∀ a ∈ as, Clear a b.addr) : Seg h' l nxt :=
  hs.congr fun b hb _ => hw.get (hc b hb)

-- ---------------------------------------------------------------------------
-- One store
-- ---------------------------------------------------------------------------

section
variable {h : Heap} {b : Blk} {n v : Nat}

theorem Holds.frame (hb : Holds h b n) (hc : Clear a b.addr) : Holds (h.set a f v) b n :=
  hb.congr fun _ => Heap.get_set_clear hc

theorem Seg.frame_set (hs : Seg h l n) (hc : ∀ c ∈ l, Clear a c.addr) : Seg (h.set a f v) l n :=
  hs.congr fun c hm _ => Heap.get_set_clear (hc c hm)

theorem flag_le (x : Bool) : x.toNat ≤ 1 := by cases x <;> decide

theorem Holds.set_free (hb : Holds h b n) (x : Bool) :
    Holds (h.set b.addr .free x.toNat) { b with free := x } n where
  free := Heap.get_set_flag (flag_le x)
  size := (Heap.get_set_field (by decide)).trans hb.size
  next := (Heap.get_set_field (by decide)).trans hb.next
  prev := (Heap.get_set_field (by decide)).trans hb.prev
  ptr := (Heap.get_set_field (by decide)).trans hb.ptr

theorem Holds.set_size (hb : Holds h b n) (hv : v < 2 ^ 64) :
    Holds (h.set b.addr .size v) { b with size := v } n where
  free := (Heap.get_set_field (by decide)).trans hb.free
  size := Heap.get_set_word hv (by decide)
  next := (Heap.get_set_field (by decide)).trans hb.next
  prev := (Heap.get_set_field (by decide)).trans hb.prev
  ptr := (Heap.get_set_field (by decide)).trans hb.ptr

theorem Holds.set_next (hb : Holds h b n) (hv : v < 2 ^ 64) : Holds (h.set b.addr .next v) b v where
  free := (Heap.get_set_field (by decide)).trans hb.free
  size := (Heap.get_set_field (by decide)).trans hb.size
  next := Heap.get_set_word hv (by decide)
  prev := (Heap.get_set_field (by decide)).trans hb.prev
  ptr := (Heap.get_set_field (by decide)).trans hb.ptr

theorem Holds.set_prev (hb : Holds h b n) (hv : v < 2 ^ 64) :
    Holds (h.set b.addr .prev v) { b with prev := v } n where
  free := (Heap.get_set_field (by decide)).trans hb.free
  size := (Heap.get_set_field (by decide)).trans hb.size
  next := (Heap.get_set_field (by decide)).trans hb.next
  prev := Heap.get_set_word hv (by decide)
  ptr := (Heap.get_set_field (by decide)).trans hb.ptr

theorem holds_carved (hsize : b.size < 2 ^ 64) (hn : n < 2 ^ 64) (hp : b.prev < 2 ^ 64)
    (hd : b.data < 2 ^ 64) :
    Holds (((((h.set b.addr .size b.size).set b.addr .next n).set b.addr .free b.free.toNat).set
      b.addr .ptr b.data).set b.addr .prev b.prev) b n where
  free := (Heap.get_set_field (by decide)).trans <| (Heap.get_set_field (by decide)).trans <|
    Heap.get_set_flag (flag_le _)
  size := (Heap.get_set_field (by decide)).trans <| (Heap.get_set_field (by decide)).trans <|
    (Heap.get_set_field (by decide)).trans <| (Heap.get_set_field (by decide)).trans <|
    Heap.get_set_word hsize (by decide)
  next := (Heap.get_set_field (by decide)).trans <| (Heap.get_set_field (by decide)).trans <|
    (Heap.get_set_field (by decide)).trans <| Heap.get_set_word hn (by decide)
  prev := Heap.get_set_word hp (by decide)
  ptr := (Heap.get_set_field (by decide)).trans <| Heap.get_set_word hd (by decide)

theorem holds_extended (hsize : b.size < 2 ^ 64) (hn : n < 2 ^ 64) (hp : b.prev < 2 ^ 64)
    (hd : b.data < 2 ^ 64) :
    Holds (((((h.set b.addr .size b.size).set b.addr .free b.free.toNat).set b.addr .next n).set
      b.addr .prev b.prev).set b.addr .ptr b.data) b n where
  free := (Heap.get_set_field (by decide)).trans <| (Heap.get_set_field (by decide)).trans <|
    (Heap.get_set_field (by decide)).trans <| Heap.get_set_flag (flag_le _)
  size := (Heap.get_set_field (by decide)).trans <| (Heap.get_set_field (by decide)).trans <|
    (Heap.get_set_field (by decide)).trans <| (Heap.get_set_field (by decide)).trans <|
    Heap.get_set_word hsize (by decide)
  next := (Heap.get_set_field (by decide)).trans <| (Heap.get_set_field (by decide)).trans <|
    Heap.get_set_word hn (by decide)
  prev := (Heap.get_set_field (by decide)).trans <| Heap.get_set_word hp (by decide)
  ptr := Heap.get_set_word hd (by decide)

end

-- ---------------------------------------------------------------------------
-- Splitting and merging
-- ---------------------------------------------------------------------------

theorem Ordered.clear (ho : Ordered lo (b :: rest) hi) (hc : c ∈ rest) : Clear b.addr c.addr := by
  have := (ho.2.mem hc).1
  unfold Blk.fin at this
  exact .inl (by omega)

theorem Ordered.headAddr_lt (ho : Ordered lo l hi) (hhi : hi < 2 ^ 64) : headAddr l 0 < 2 ^ 64 := by
  cases l with
  | nil => decide
  | cons c rest =>
    have := (ho.mem List.mem_cons_self).2
    unfold Blk.fin at this
    simp only [headAddr]
    omega

theorem seg_linkBack (hs : Seg h (b :: rest) 0) (ho : Ordered lo (b :: rest) hi)
    (hhi : hi < 2 ^ 64) :
    Seg (h.linkBack b.addr) (b :: setPrev b.addr rest) 0 ∧
      Writes (rest.map Blk.addr) h (h.linkBack b.addr) := by
  have hm : metaBlockSize = 40 := rfl
  obtain ⟨hb, hr⟩ := hs
  unfold Heap.linkBack
  rw [hb.next]
  cases rest with
  | nil => exact ⟨⟨hb, trivial⟩, .refl _ _⟩
  | cons c rest =>
    have hc := ho.2.1
    have hlt := ho.2.2.le
    simp only [Blk.fin] at hc hlt
    have hne : headAddr (c :: rest) 0 ≠ 0 := by simp only [headAddr]; omega
    rw [if_pos hne]
    refine ⟨⟨hb.frame (ho.clear List.mem_cons_self).symm, ?_, ?_⟩, writes_set (by simp [headAddr])⟩
    · exact hr.1.set_prev (by omega)
    · exact hr.2.frame_set fun d hd => ho.2.clear hd

theorem remainder_room {b : Blk} (hroom : metaBlockSize + 4 ≤ b.size - s) :
    Clear b.addr (b.remainder s).addr ∧ (b.remainder s).addr + metaBlockSize ≤ b.fin := by
  simp only [Clear, Apart, Blk.remainder, Blk.data, Blk.fin]
  omega

/-- The wrapped arithmetic of `split` is exact on a block below `2 ^ 64`. -/
theorem split_exact {b : Blk} (hroom : metaBlockSize + 4 ≤ b.size - s) (hfin : b.fin < 2 ^ 64) :
    wadd 64 (wadd 64 b.addr metaBlockSize) s = (b.remainder s).addr ∧
      wadd 64 (b.remainder s).addr metaBlockSize = (b.remainder s).data ∧
      wsub 64 (wsub 64 b.size s) metaBlockSize = (b.remainder s).size := by
  obtain ⟨-, hend⟩ := remainder_room hroom
  unfold Blk.fin at hfin hend
  refine ⟨?_, ?_, ?_⟩
  · rw [wadd_eq (w := 64) (a := b.addr) (by omega), wadd_eq (by omega)]
    rfl
  · rw [wadd_eq (by omega)]
    rfl
  · rw [wsub_eq (w := 64) (a := b.size) (by omega) (by omega), wsub_eq (by omega) (by omega)]
    rfl

theorem seg_carve (hs : Seg h (b :: rest) 0) (ho : Ordered lo (b :: rest) hi) (hhi : hi < 2 ^ 64)
    (hroom : metaBlockSize + 4 ≤ b.size - s) :
    ∃ h', h.split b.addr s = h'.linkBack (b.remainder s).addr ∧
      Seg h' ({ b with size := s } :: b.remainder s :: rest) 0 ∧
      Writes [b.addr, (b.remainder s).addr] h h' := by
  obtain ⟨hb, hr⟩ := hs
  have hfin := ho.2.le
  have hnext : headAddr rest 0 < 2 ^ 64 := ho.2.headAddr_lt hhi
  obtain ⟨hclear, hend⟩ := remainder_room hroom
  obtain ⟨hN, hNd, hsz⟩ := split_exact hroom (by omega)
  have hrest : ∀ c ∈ rest, Clear (b.remainder s).addr c.addr := by
    intro c hc
    have := (ho.2.mem hc).1
    exact .inl (by omega)
  simp only [Heap.split, hN, hNd, hb.size, hsz, Heap.get_set_clear hclear.symm, hb.next]
  refine ⟨_, rfl, ?_, ?_⟩
  · generalize h₁_def : ((((h.set (b.remainder s).addr .size (b.remainder s).size).set
      (b.remainder s).addr .next (headAddr rest 0)).set (b.remainder s).addr .free 1).set
      (b.remainder s).addr .ptr (b.remainder s).data).set (b.remainder s).addr .prev b.addr = h₁
    -- the remainder's header is written where no list has a block yet
    have hN₁ : Holds h₁ (b.remainder s) (headAddr rest 0) := by
      subst h₁_def
      simp only [Blk.fin, Blk.remainder, Blk.data] at hfin hend
      refine holds_carved (b := b.remainder s) ?_ hnext ?_ ?_ <;>
        simp only [Blk.remainder, Blk.data] <;> omega
    have hb₁ : Holds h₁ b (headAddr rest 0) := by
      subst h₁_def
      exact ((((hb.frame hclear.symm).frame hclear.symm).frame hclear.symm).frame
        hclear.symm).frame hclear.symm
    have hr₁ : Seg h₁ rest 0 := by
      subst h₁_def
      exact ((((hr.frame_set hrest).frame_set hrest).frame_set hrest).frame_set hrest).frame_set
        hrest
    -- then the block's own `next` and `size`
    refine ⟨?_, ?_, ?_⟩
    · exact (hb₁.set_next (by omega)).set_size (by unfold Blk.fin at hfin; omega)
    · exact (hN₁.frame hclear).frame hclear
    · exact (hr₁.frame_set fun c hc => ho.clear hc).frame_set fun c hc => ho.clear hc
  · exact ((((((writes_set (by simp)).set (by simp)).set (by simp)).set (by simp)).set
      (by simp)).set (by simp)).set (by simp)

theorem seg_split (hs : Seg h (b :: rest) 0) (ho : Ordered lo (b :: rest) hi) (hhi : hi < 2 ^ 64)
    (hroom : metaBlockSize + 4 ≤ b.size - s) :
    Seg (h.split b.addr s)
        ({ b with size := s } :: b.remainder s :: setPrev (b.remainder s).addr rest) 0 ∧
      Writes (b.addr :: (b.remainder s).addr :: rest.map Blk.addr) h (h.split b.addr s) := by
  obtain ⟨h', heq, hseg, hw⟩ := seg_carve hs ho hhi hroom
  have hcarved := refits_carve hroom rest _ _ ho
  obtain ⟨hlink, hwl⟩ := seg_linkBack hseg.2 hcarved.2 hhi
  rw [heq]
  refine ⟨⟨?_, hlink⟩, ?_⟩
  · refine hseg.1.congr fun f => hwl.get fun a ha => ?_
    obtain ⟨c, hc, rfl⟩ := List.mem_map.mp ha
    exact (hcarved.clear (List.mem_cons_of_mem _ hc)).symm
  · exact (hw.mono (by simp)).trans (hwl.mono fun a ha => by simp [ha])

theorem seg_splitIfRoom (hs : Seg h (b :: rest) 0) (ho : Ordered lo (b :: rest) hi)
    (hhi : hi < 2 ^ 64) (hsz : s ≤ b.size) :
    Seg (h.splitIfRoom b.addr s) (cut b s rest) 0 ∧
      Writes ((cut b s rest).map Blk.addr) h (h.splitIfRoom b.addr s) := by
  have hfin := ho.2.le
  have hsub : wsub 64 (h.get b.addr .size) s = b.size - s := by
    unfold Blk.fin at hfin
    rw [hs.1.size, wsub_eq hsz (by omega)]
  unfold Heap.splitIfRoom cut
  rw [hsub]
  split
  · rename_i hroom
    obtain ⟨hseg, hw⟩ := seg_split hs ho hhi hroom
    refine ⟨hseg, hw.mono ?_⟩
    cases rest <;> simp [setPrev]
  · exact ⟨hs, .refl _ _⟩

def Heap.takeIn (h : Heap) (b size next : Nat) : Heap :=
  ((h.set b .size size).set b .next next).linkBack b

theorem seg_takeIn (hs : Seg h (b :: c :: rest) 0) (ho : Ordered lo (b :: c :: rest) hi)
    (hhi : hi < 2 ^ 64) :
    Seg (h.takeIn b.addr (b.join c).size (headAddr rest 0)) (b.join c :: setPrev b.addr rest) 0 ∧
      Writes ((b :: rest).map Blk.addr) h (h.takeIn b.addr (b.join c).size (headAddr rest 0)) := by
  obtain ⟨hb, hc, hr⟩ := hs
  have hnext : headAddr rest 0 < 2 ^ 64 := ho.2.2.headAddr_lt hhi
  have hbc := ho.2.1
  have hfin := ho.2.2.le
  have hsize : (b.join c).size < 2 ^ 64 := by
    simp only [Blk.fin, Blk.join] at *
    omega
  have hrest : ∀ d ∈ rest, Clear b.addr d.addr := fun d hd => ho.clear (List.mem_cons_of_mem c hd)
  have hjoin : Seg ((h.set b.addr .size (b.join c).size).set b.addr .next (headAddr rest 0))
      (b.join c :: rest) 0 :=
    ⟨(hb.set_size hsize).set_next hnext, (hr.frame_set hrest).frame_set hrest⟩
  obtain ⟨hseg, hw⟩ := seg_linkBack hjoin (refits_join b c rest _ _ ho) hhi
  have hsets : Writes ((b :: rest).map Blk.addr) h
      ((h.set b.addr .size (b.join c).size).set b.addr .next (headAddr rest 0)) :=
    (writes_set (by simp)).set (by simp)
  exact ⟨hseg, hsets.trans (hw.mono fun a ha => List.mem_cons_of_mem b.addr ha)⟩

theorem combined_eq (hs : Seg h (b :: c :: rest) 0) (ho : Ordered lo (b :: c :: rest) hi)
    (hhi : hi < 2 ^ 64) : h.combined b.addr = (b.join c).size := by
  have hbc := ho.2.1
  have hfin := ho.2.2.le
  simp only [Heap.combined, hs.1.size, hs.1.next, headAddr, hs.2.1.size, Blk.join]
  unfold Blk.fin at hbc hfin
  rw [wadd_eq (w := 64) (a := b.size) (by omega), wadd_eq (by omega)]

theorem seg_absorbNext (hs : Seg h (b :: c :: rest) 0) (ho : Ordered lo (b :: c :: rest) hi)
    (hhi : hi < 2 ^ 64) :
    Seg (h.absorbNext b.addr) (b.join c :: setPrev b.addr rest) 0 ∧
      Writes ((b :: rest).map Blk.addr) h (h.absorbNext b.addr) := by
  have hclear : Clear b.addr c.addr := ho.clear List.mem_cons_self
  have heq : h.absorbNext b.addr = h.takeIn b.addr (b.join c).size (headAddr rest 0) := by
    simp only [Heap.absorbNext, Heap.takeIn, combined_eq hs ho hhi, hs.1.next, headAddr,
      Heap.get_set_clear hclear, hs.2.1.next]
  rw [heq]
  exact seg_takeIn hs ho hhi

theorem seg_mergeBlocks (hs : Seg h (b :: l) 0) (ho : Ordered lo (b :: l) hi) (hhi : hi < 2 ^ 64) :
    Seg (h.mergeBlocks b.addr) (mergeNext b l) 0 ∧
      Writes ((b :: l).map Blk.addr) h (h.mergeBlocks b.addr) := by
  have hm : metaBlockSize = 40 := rfl
  cases l with
  | nil =>
    have heq : h.mergeBlocks b.addr = h := by
      simp [Heap.mergeBlocks, Heap.linkBack, hs.1.next, headAddr]
    rw [heq]
    exact ⟨hs, .refl _ _⟩
  | cons c rest =>
    have hbc := ho.2.1
    have hfin := ho.2.2.le
    have hclear : Clear b.addr c.addr := ho.clear List.mem_cons_self
    have hne : c.addr ≠ 0 := by unfold Blk.fin at hbc; omega
    cases hcf : c.free with
    | true =>
      have hsum : wadd 64 b.size (wadd 64 metaBlockSize c.size) = (b.join c).size := by
        unfold Blk.fin at hbc hfin
        rw [wadd_eq (w := 64) (a := metaBlockSize) (by omega), wadd_eq (by omega)]
        exact (Nat.add_assoc _ _ _).symm
      have heq : h.mergeBlocks b.addr = h.takeIn b.addr (b.join c).size (headAddr rest 0) := by
        simp [Heap.mergeBlocks, Heap.takeIn, hs.1.next, headAddr, hs.2.1.free, hcf, hne, hs.1.size,
          hs.2.1.size, hsum, Heap.get_set_clear hclear, hs.2.1.next]
      have hmerge : mergeNext b (c :: rest) = b.join c :: setPrev b.addr rest := by
        simp [mergeNext, hcf]
      obtain ⟨hseg, hw⟩ := seg_takeIn hs ho hhi
      rw [heq, hmerge]
      refine ⟨hseg, hw.mono fun a ha => ?_⟩
      rcases List.mem_cons.mp ha with rfl | ha
      · exact List.mem_cons_self
      · exact List.mem_cons_of_mem _ (List.mem_cons_of_mem _ ha)
    | false =>
      have heq : h.mergeBlocks b.addr = h.linkBack b.addr := by
        simp [Heap.mergeBlocks, hs.1.next, headAddr, hs.2.1.free, hcf]
      have hmerge : mergeNext b (c :: rest) = b :: setPrev b.addr (c :: rest) := by
        simp [mergeNext, hcf, setPrev]
      obtain ⟨hseg, hw⟩ := seg_linkBack hs ho hhi
      rw [heq, hmerge]
      exact ⟨hseg, hw.mono fun a ha => List.mem_cons_of_mem _ ha⟩

-- ---------------------------------------------------------------------------
-- Walks
-- ---------------------------------------------------------------------------

/-- A list inside the heap is too short to use up the fuel of a walk. -/
theorem Ordered.length_le (ho : Ordered lo l hi) : lo + l.length * metaBlockSize ≤ hi := by
  induction l generalizing lo with
  | nil => simpa [Ordered] using ho
  | cons b rest ih =>
    have := ih ho.2
    have := ho.1
    unfold Blk.fin at *
    simp only [List.length_cons, Nat.succ_mul]
    omega

theorem findLoop_eq (hs : Seg h l 0) (ho : Ordered lo l hi) (hlo : 0 < lo)
    (hfuel : l.length < fuel) (last : Nat) :
    h.findLoop s fuel last (headAddr l 0) =
      match findSplit (fits s) l with
      | some (pre, b, _) => some (lastAddr last pre, b.addr)
      | none => some (lastAddr last l, 0) := by
  induction l generalizing last fuel lo with
  | nil =>
    obtain ⟨fuel, rfl⟩ : ∃ k, fuel = k + 1 := ⟨fuel - 1, by simp at hfuel; omega⟩
    simp [Heap.findLoop, headAddr, findSplit, lastAddr]
  | cons b rest ih =>
    obtain ⟨fuel, rfl⟩ : ∃ k, fuel = k + 1 := ⟨fuel - 1, by simp at hfuel; omega⟩
    have hb := ho.1
    have hne : b.addr ≠ 0 := by omega
    have hstop : (h.get b.addr .free = 0 ∨ h.get b.addr .size < s) ↔ fits s b = false := by
      rw [hs.1.free, hs.1.size]
      cases hf : b.free <;> simp [fits, hf]
    simp only [Heap.findLoop, headAddr, hne, ne_eq, not_false_eq_true, true_and, hstop]
    have hlen : rest.length < fuel := by simpa using hfuel
    have hr := ih hs.2 ho.2 (by unfold Blk.fin; omega) hlen b.addr
    cases hfit : fits s b with
    | true => simp [findSplit, hfit, lastAddr]
    | false =>
      rw [if_pos rfl, hs.1.next, hr]
      cases hf : findSplit (fits s) rest with
      | none => simp [findSplit, hfit, hf, lastAddr]
      | some r => simp [findSplit, hfit, hf, lastAddr]

theorem lastLoop_eq (hs : Seg h l 0) (ho : Ordered lo l hi) (hlo : 0 < lo)
    (hfuel : l.length < fuel) : h.lastLoop fuel (headAddr l 0) = some (lastAddr 0 l) := by
  induction l generalizing fuel lo with
  | nil =>
    obtain ⟨fuel, rfl⟩ : ∃ k, fuel = k + 1 := ⟨fuel - 1, by simp at hfuel; omega⟩
    simp [Heap.lastLoop, headAddr, lastAddr]
  | cons b rest ih =>
    obtain ⟨fuel, rfl⟩ : ∃ k, fuel = k + 1 := ⟨fuel - 1, by simp at hfuel; omega⟩
    have hb := ho.1
    have hne : b.addr ≠ 0 := by omega
    have hpos : 0 < b.fin := by unfold Blk.fin; omega
    simp only [Heap.lastLoop, headAddr, hs.1.next]
    cases rest with
    | nil => simp [lastAddr]
    | cons c rest =>
      have hc : c.addr ≠ 0 := by have := ho.2.1; omega
      have hlen : (c :: rest).length < fuel := by simpa using hfuel
      have hr := ih hs.2 ho.2 hpos hlen
      simp only [headAddr] at hr ⊢
      rw [if_pos ⟨hne, hc⟩, hr]
      rfl

end TomatoOs.Kmem
