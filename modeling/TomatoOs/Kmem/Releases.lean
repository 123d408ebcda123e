import TomatoOs.Kmem.Refines

/-!
# `kfree` and `krealloc` refine the arena

`kfree` has two parts: the freed block is merged into a free predecessor, and
what results is merged with its successor or, at the end of the list, released.
-/

namespace TomatoOs.Kmem

open Lib

section
variable {heap : Nat} {h : Heap} {A : Arena}

theorem Refines.suffix (hR : Refines heap h A) (hc : A.chain = pre ++ l) :
    ∃ lo, 0 < lo ∧ Ordered lo l A.brk ∧ Seg h l 0 := by
  obtain ⟨lo, hlo, ho⟩ := hR.chain_ordered
  have hpos := hR.sited.pos
  have hseg := hR.chain_seg
  rw [hc] at ho hseg
  obtain ⟨mid, hpre, ho⟩ := ordered_append.mp ho
  have := hpre.le
  exact ⟨mid, by omega, ho, (seg_append.mp hseg).2⟩

theorem next_ne_zero (hR : Refines heap h A) (hc : A.chain = pre ++ b :: post) :
    h.get b.addr .next ≠ 0 ↔ post ≠ [] := by
  obtain ⟨lo, -, -, hseg⟩ := hR.suffix hc
  rw [hseg.1.next]
  cases post with
  | nil => simp [headAddr]
  | cons c rest =>
    have : c.addr ≠ 0 := hR.addr_ne (by simp [Arena.blocks, hc])
    simp [headAddr, this]

theorem getLastBlock_eq (hR : Refines heap h A) : h.getLastBlock = some (lastAddr 0 A.chain) := by
  obtain ⟨lo, hlo, ho⟩ := hR.chain_ordered
  have hpos := hR.sited.pos
  have hlast := lastLoop_eq hR.chain_seg ho (by omega) hR.fuel
  rw [← hR.rep.base] at hlast
  exact hlast

def Arena.Drops (A A' : Arena) : Prop := A'.blocks.map Blk.addr ⊆ A.blocks.map Blk.addr

theorem Arena.Drops.trans (h₁ : A.Drops A₁) (h₂ : A₁.Drops A₂) : A.Drops A₂ :=
  List.Subset.trans h₂ h₁

theorem Arena.drops_chain (A : Arena) (hc : A.chain = pre ++ l)
    (hs : l'.map Blk.addr ⊆ l.map Blk.addr) : A.Drops { A with chain := pre ++ l' } := by
  intro a ha
  simp only [Arena.blocks, hc, List.map_append, List.mem_append] at ha ⊢
  rcases ha with ha | ha | ha
  · exact .inl ha
  · exact .inr (.inl ha)
  · exact .inr (.inr (hs ha))

@[simp] theorem setPrev_addrs (p : Nat) (l : List Blk) :
    (setPrev p l).map Blk.addr = l.map Blk.addr := by
  cases l <;> rfl

theorem Returns.trans (hr : Returns heap h A h' A') (hr' : Returns heap h' A' h'' A'')
    (hd : A.Drops A') : Returns heap h A h'' A'' := by
  refine ⟨hr'.refines, (hr.stores.mono ?_).trans (hr'.stores.mono ?_)⟩ <;> intro a ha <;>
    rw [List.map_append] at ha ⊢ <;> rcases List.mem_append.mp ha with ha | ha
  · exact List.mem_append_left _ ha
  · exact List.mem_append_left _ (hd ha)
  · exact List.mem_append_left _ (hd ha)
  · exact List.mem_append_right _ ha

-- ---------------------------------------------------------------------------
-- Merging back
-- ---------------------------------------------------------------------------

theorem setFree_refines (hR : Refines heap h A) (hc : A.chain = pre ++ b :: post) :
    Returns heap h A (h.set b.addr .free 1)
      { A with chain := pre ++ { b with free := true } :: post } := by
  obtain ⟨lo, -, ho, hseg⟩ := hR.suffix hc
  have hr : Refits (b :: post) ({ b with free := true } :: post) := refits_flags b true b.prev post
  have hL : A.lists = A.stale ++ (pre ++ b :: post) :: [] := by rw [Arena.lists, hc]
  refine hR.replace hL rfl rfl hr rfl ?_ ?_ (writes_set (by simp))
  · exact hR.ok.replace hc hr fun q hq => hq
  · exact seg_head_free hseg ho rfl

theorem mergeFree_refines (hR : Refines heap h A) (hc : A.chain = pre ++ x :: b :: post)
    (hb : b.free = true) :
    Returns heap h A (h.mergeBlocks x.addr)
      { A with chain := pre ++ x.join b :: setPrev x.addr post } := by
  obtain ⟨lo, -, ho, hseg⟩ := hR.suffix hc
  have hr : Refits (x :: b :: post) (x.join b :: setPrev x.addr post) :=
    (refits_join x b post).trans (.cons _ (refits_setPrev x.addr post))
  have hL : A.lists = A.stale ++ (pre ++ x :: b :: post) :: [] := by rw [Arena.lists, hc]
  have hmerge : mergeNext x (b :: post) = x.join b :: setPrev x.addr post := by
    simp [mergeNext, hb]
  obtain ⟨hseg', hw⟩ := seg_mergeBlocks hseg ho hR.lt
  rw [hmerge] at hseg'
  refine hR.replace hL rfl rfl hr rfl ?_ hseg' (hw.mono fun a ha => ?_)
  · exact hR.ok.replace hc hr fun q hq => hq.join
  · rw [List.map_append]
    exact List.mem_append_left _ ha

/-- `merge_blocks(block->prev)` or nothing: a free block at `r.2`, with which
the arena goes on to its `release`. -/
structure Merged (heap : Nat) (h : Heap) (A F : Arena) (r : Heap × Nat) (pre : List Blk) (b : Blk)
    (post : List Blk) : Prop where
  freed : F = A.release pre b post
  block : r.2 = b.addr
  returns : Returns heap h A r.1 { A with chain := pre ++ b :: post }
  drops : A.Drops { A with chain := pre ++ b :: post }

theorem mergeBack_refines (hR : Refines heap h A) (hc : A.chain = pre ++ b :: post) :
    ∃ pre' b' post', Merged heap h A (A.freeAt pre b post)
      ((h.set b.addr .free 1).mergeBack b.addr) pre' b' post' := by
  have hset := setFree_refines hR hc
  obtain ⟨lo, -, -, hseg⟩ := hset.refines.suffix rfl
  have hprev : (h.set b.addr .free 1).get b.addr .prev = b.prev := hseg.1.prev
  have hdrops : A.Drops { A with chain := pre ++ { b with free := true } :: post } :=
    A.drops_chain hc (List.Subset.refl _)
  unfold Heap.mergeBack
  simp only [hprev]
  by_cases hb : b.prev = 0
  · rw [if_neg (by simp [hb])]
    exact ⟨pre, _, post, A.freeAt_plain post (by simp [hb]), rfl, hset, hdrops⟩
  · have hlink := hR.ok.linked
    rw [hc] at hlink
    obtain ⟨pre', x, rfl, hx⟩ := hlink.prev_last hb
    rw [List.append_assoc] at hset
    obtain ⟨-, -, -, hsegx⟩ := hset.refines.suffix rfl
    have hfree : (h.set b.addr .free 1).get x.addr .free = x.free.toNat := hsegx.1.free
    rw [hx, hfree]
    cases hxf : x.free with
    | false =>
      rw [if_neg (by simp)]
      refine ⟨_, _, post, A.freeAt_plain post (by simp [hxf]), rfl, ?_, hdrops⟩
      rw [List.append_assoc]
      exact hset
    | true =>
      have hback : x.addr ≠ 0 ∧ true.toNat ≠ 0 := ⟨fun h0 => hb (hx.trans h0), by decide⟩
      rw [if_pos hback]
      rw [List.append_assoc] at hdrops
      have hmerge := mergeFree_refines hset.refines rfl rfl
      refine ⟨pre', x.join b, setPrev x.addr post, A.freeAt_back pre' post hb hxf, rfl, ?_, ?_⟩
      · dsimp only
        exact hset.trans hmerge hdrops
      · refine A.drops_chain (l := x :: b :: post) (by simpa using hc) ?_
        simp [setPrev_addrs, Blk.join]

-- ---------------------------------------------------------------------------
-- Releasing
-- ---------------------------------------------------------------------------

theorem mergeBlocks_refines (hR : Refines heap h A) (hc : A.chain = pre ++ b :: post) :
    Returns heap h A (h.mergeBlocks b.addr) { A with chain := pre ++ mergeNext b post } := by
  obtain ⟨lo, -, ho, hseg⟩ := hR.suffix hc
  have hL : A.lists = A.stale ++ (pre ++ b :: post) :: [] := by rw [Arena.lists, hc]
  obtain ⟨hseg', hw⟩ := seg_mergeBlocks hseg ho hR.lt
  have hr := refits_mergeNext b post
  refine hR.replace hL rfl rfl hr ?_ ?_ hseg' (hw.mono fun a ha => ?_)
  · cases post with
    | nil => rfl
    | cons c rest =>
      simp only [mergeNext]
      split <;> rfl
  · exact hR.ok.replace hc hr fun q hq => hq.mergeNext
  · rw [List.map_append]
    exact List.mem_append_left _ ha

theorem dropTail_refines (hR : Refines heap h A) (hc : A.chain = pre ++ [x, b]) :
    Returns heap h A (h.set x.addr .next 0) { A with chain := pre ++ [x] } := by
  obtain ⟨lo, -, ho, hseg⟩ := hR.suffix hc
  have hL : A.lists = A.stale ++ (pre ++ [x, b]) :: [] := by rw [Arena.lists, hc]
  have hr : Refits [x, b] [x] := .cons x (refits_drop [b])
  refine hR.replace hL rfl rfl hr rfl ?_ ⟨hseg.1.set_next (by decide), trivial⟩
    (writes_set (by simp))
  exact hR.ok.replace hc hr fun q hq => ⟨hq.1, trivial⟩

theorem forget_refines (hR : Refines heap h A) :
    Returns heap h A { h with base := 0 }
      { A with stale := A.stale ++ [A.chain], chain := [] } := by
  have hb : (Arena.mk (A.stale ++ [A.chain]) [] A.brk).blocks = A.blocks := by simp [Arena.blocks]
  refine ⟨⟨hR.sited, ⟨?_, trivial, hR.ok.brk_le⟩, ⟨hR.rep.brk, rfl, ?_⟩, hR.endp⟩,
    stores_globals _ rfl rfl rfl⟩
  · rw [hb]
    exact hR.ok.ordered
  · intro l hl
    rcases List.mem_append.mp hl with hl | hl
    · exact (hR.rep.lists l hl).congr fun _ _ _ => rfl
    · obtain rfl := List.mem_singleton.mp hl
      trivial

theorem releaseTail_eq (hR : Refines heap h' A') (hne : block ≠ lastAddr 0 A'.chain)
    (heq : (if h.get block .prev ≠ 0 then h.set (h.get block .prev) .next 0
      else { h with base := 0 }) = h') : h.releaseTail block = some h' := by
  unfold Heap.releaseTail
  simp only [heq, getLastBlock_eq hR, Option.map_some, hne, ↓reduceIte]

theorem release_refines (hR : Refines heap h A) (hc : A.chain = pre ++ b :: post) :
    ∃ h', (if h.get b.addr .next ≠ 0 then some (h.mergeBlocks b.addr)
        else h.releaseTail b.addr) = some h' ∧
      Returns heap h A h' (A.release pre b post) := by
  obtain ⟨lo, hlo, ho, hseg⟩ := hR.suffix hc
  have hb : b.addr ≠ 0 := hR.addr_ne (by simp [Arena.blocks, hc])
  rw [hseg.1.next]
  cases post with
  | cons c rest =>
    have hne : headAddr (c :: rest) 0 ≠ 0 := hR.addr_ne (by simp [Arena.blocks, hc])
    rw [if_pos hne]
    refine ⟨_, rfl, ?_⟩
    simp only [Arena.release, ne_eq, reduceCtorEq, not_false_eq_true, ↓reduceIte]
    exact mergeBlocks_refines hR hc
  | nil =>
    rw [if_neg (by simp [headAddr])]
    by_cases hp : b.prev = 0
    · have hrel : A.release pre b [] = { A with stale := A.stale ++ [A.chain], chain := [] } := by
        simp [Arena.release, hp, hc]
      rw [hrel]
      have hret := forget_refines hR
      exact ⟨_, releaseTail_eq hret.refines hb (by rw [hseg.1.prev, if_neg (by simp [hp])]), hret⟩
    · have hlink := hR.ok.linked
      rw [hc] at hlink
      obtain ⟨pre', x, rfl, hx⟩ := hlink.prev_last hp
      have hrel : A.release (pre' ++ [x]) b [] = { A with chain := pre' ++ [x] } := by
        simp [Arena.release, hp]
      have hc' : A.chain = pre' ++ [x, b] := by simpa using hc
      have hret := dropTail_refines hR hc'
      have hne : b.addr ≠ lastAddr 0 (pre' ++ [x]) := by
        have hord := hR.ok.ordered
        rw [Arena.blocks, hc, ← List.append_assoc] at hord
        have := hord.before (b := b) (c := x) (by simp)
        rw [lastAddr_concat]
        unfold Blk.fin metaBlockSize at this
        omega
      rw [hrel]
      refine ⟨_, releaseTail_eq hret.refines hne ?_, hret⟩
      rw [hseg.1.prev, if_pos hp, hx]

theorem Arena.release_drops (hc : A.chain = pre ++ b :: post) : A.Drops (A.release pre b post) := by
  unfold Arena.release
  split
  · refine A.drops_chain hc ?_
    cases post with
    | nil => simp [mergeNext]
    | cons c rest =>
      simp only [mergeNext]
      split <;> simp [Blk.join]
  · rename_i hpost
    obtain rfl : post = [] := by simpa using hpost
    split
    · have hd : A.Drops { A with chain := pre ++ [] } := A.drops_chain hc (List.nil_subset _)
      simpa using hd
    · intro a ha
      simpa [Arena.blocks, hc] using ha

-- ---------------------------------------------------------------------------
-- kfree
-- ---------------------------------------------------------------------------

theorem Seg.holds (hs : Seg h l nxt) (hb : b ∈ l) : ∃ n, Holds h b n := by
  obtain ⟨pre, post, rfl⟩ := List.append_of_mem hb
  exact ⟨_, (seg_append.mp hs).2.1⟩

theorem Refines.holds (hR : Refines heap h A) (hb : b ∈ A.blocks) : ∃ n, Holds h b n := by
  rw [A.blocks_eq] at hb
  obtain ⟨l, hl, hb⟩ := List.mem_flatten.mp hb
  exact (hR.rep.lists l hl).holds hb

theorem Refines.block_addr (hR : Refines heap h A) (hb : b ∈ A.blocks) :
    wsub 64 b.data metaBlockSize = b.addr := by
  have hlt := hR.lt
  have hfin := (hR.ok.ordered.mem hb).2
  unfold Blk.data
  unfold Blk.fin at hfin
  rw [wsub_eq (by omega) (by omega)]
  omega

/-- A pointer into a forgotten list lies below the first block of the present
one, so `kfree` ignores it, as it does the data of an empty block at the break. -/
theorem isAddrValid_iff (hR : Refines heap h A) (hb : b ∈ A.blocks) :
    h.isAddrValid b.data = true ↔ b ∈ A.chain ∧ b.data < A.brk := by
  obtain ⟨n, hh⟩ := hR.holds hb
  have hptr : h.get (getBlockAddr b.data) .ptr = b.data := by
    rw [getBlockAddr, hR.block_addr hb, hh.ptr]
  simp only [Heap.isAddrValid, hptr, beq_self_eq_true, Bool.and_true, Bool.and_eq_true,
    decide_eq_true_eq, hR.base_ne, hR.rep.brk]
  refine and_congr_left fun _ => ?_
  obtain ⟨mid, hstale, hchain⟩ := ordered_append.mp hR.ok.ordered
  rw [hR.rep.base]
  cases hc : A.chain with
  | nil => simp
  | cons c rest =>
    rw [hc] at hchain
    have hmid := hchain.1
    constructor
    · rintro ⟨-, hgt⟩
      rcases List.mem_append.mp hb with hs | hs
      · have := (hstale.mem hs).2
        simp only [headAddr] at hgt
        unfold Blk.data at hgt
        unfold Blk.fin at this
        omega
      · rwa [hc] at hs
    · intro hmem
      refine ⟨by simp, ?_⟩
      have hm : metaBlockSize = 40 := rfl
      simp only [headAddr, Blk.data]
      rcases List.mem_cons.mp hmem with rfl | hmem
      · omega
      · have := (hchain.2.mem hmem).1
        unfold Blk.fin at this
        omega

theorem Arena.mem_of_findSplit (hf : findSplit (holds p) A.chain = some (pre, b, post)) :
    A.chain = pre ++ b :: post ∧ b.data = p := by
  obtain ⟨hc, hb, -⟩ := findSplit_some hf
  exact ⟨hc, by simpa [holds] using hb⟩

theorem kfree_refines (hR : Refines heap h A) (hb : b ∈ A.blocks) (hp : b.data = p) :
    ∃ h', h.kfree p = some h' ∧ Returns heap h A h' (A.kfree p) ∧ A.Drops (A.kfree p) := by
  have self : A.kfree p = A → h.isAddrValid p ≠ true →
      ∃ h', h.kfree p = some h' ∧ Returns heap h A h' (A.kfree p) ∧ A.Drops (A.kfree p) := by
    intro hk hv
    rw [hk]
    exact ⟨h, by simp [Heap.kfree, hv], hR.returns_self, List.Subset.refl _⟩
  have hvalid := isAddrValid_iff hR hb
  rw [hp] at hvalid
  cases hf : findSplit (holds p) A.chain with
  | none =>
    refine self (by simp [Arena.kfree, hf]) fun hv => ?_
    have := findSplit_none.mp hf b (hvalid.mp hv).1
    simp [Kmem.holds, hp] at this
  | some r =>
    obtain ⟨pre, c, post⟩ := r
    obtain ⟨hc, rfl⟩ := Arena.mem_of_findSplit hf
    by_cases hlt : c.data < A.brk
    · have hmem : c ∈ A.blocks := by simp [Arena.blocks, hc]
      have hk : A.kfree c.data = A.freeAt pre c post := by simp [Arena.kfree, hf, hlt]
      have hv := (isAddrValid_iff hR hmem).mpr ⟨by simp [hc], hlt⟩
      obtain ⟨pre', b', post', hm⟩ := mergeBack_refines hR hc
      obtain ⟨h', heq, hret⟩ := release_refines hm.returns.refines rfl
      rw [hk, hm.freed]
      refine ⟨h', ?_, hm.returns.trans hret hm.drops, hm.drops.trans (Arena.release_drops rfl)⟩
      rw [Heap.kfree, if_pos hv]
      simp only [getBlockAddr, hR.block_addr hmem, hm.block]
      exact heq
    · exact self (by simp [Arena.kfree, hf, hlt]) fun hv => hlt (hvalid.mp hv).2

end

end TomatoOs.Kmem
