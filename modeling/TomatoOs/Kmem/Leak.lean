import TomatoOs.Kmem.Sessions

/-!
# When freed memory comes back

With nothing live, a fresh heap serves every request that fits. A used one
does so only if its last `kfree` left one free block of the heap's whole size,
for the break never moves down: `session_reusable_iff`. That takes a freed
block that is valid, has a successor and, with its free neighbours, covers the
heap.
-/

namespace TomatoOs.Kmem

open Lib

/-- With nothing live, every request that fits the empty heap is served. -/
def Session.Reusable (s : Session) : Prop :=
  s.live = [] → ∀ n < 2 ^ 64, metaBlockSize + align4 n ≤ heapSize →
    ∃ r, s.heap.kmalloc n = some r ∧ r.2 ≠ 0

def Heap.mergedSize (h : Heap) (p : Nat) : Nat :=
  let block := getBlockAddr p
  let prev := h.get block .prev
  let next := h.get block .next
  (if prev ≠ 0 ∧ h.get prev .free ≠ 0 then h.get prev .size + metaBlockSize else 0) +
    h.get block .size + (if h.get next .free ≠ 0 then metaBlockSize + h.get next .size else 0)

def Heap.reunites (h : Heap) (p : Nat) : Prop :=
  h.isAddrValid p = true ∧ h.get (getBlockAddr p) .next ≠ 0 ∧
    h.mergedSize p = heapSize - metaBlockSize

def Session.onlyLive (s : Session) (p : Nat) : Prop := s.live ≠ [] ∧ ∀ a ∈ s.live, a.ptr = p

def Session.keepsReusable (s : Session) : Op → Prop
  | .kfree p => s.onlyLive p → s.heap.reunites p
  | .krealloc p n => n = 0 → s.onlyLive p → s.heap.reunites p
  | .kmalloc _ | .store _ _ => True

-- ---------------------------------------------------------------------------
-- Whole arenas
-- ---------------------------------------------------------------------------

def Arena.HasWhole (A : Arena) : Prop :=
  ∃ b ∈ A.chain, b.free = true ∧ heapSize - metaBlockSize ≤ b.size

section
variable {heap : Nat} {h : Heap} {A : Arena} {s : Session} {b c : Blk}

theorem Arena.Ok.whole_alone (hA : A.Ok heap (heap + heapSize)) (hb : b ∈ A.blocks)
    (hs : heapSize - metaBlockSize ≤ b.size) (hc : c ∈ A.blocks) : b = c := by
  have hm : metaBlockSize = 40 := rfl
  have hh : heapSize = 16777216 := by decide
  have hble := hA.brk_le
  have hbm := hA.ordered.mem hb
  have hcm := hA.ordered.mem hc
  rcases hA.ordered.apart hb hc with he | h | h
  · exact he
  all_goals
    unfold Blk.fin at *
    omega

theorem align4_idem (hn : n < 2 ^ 64) (hle : metaBlockSize + align4 n ≤ heapSize) :
    align4 n ≤ heapSize ∧ align4 (align4 n) = align4 n := by
  have hh : heapSize = 16777216 := by decide
  refine ⟨by omega, ?_⟩
  rcases Nat.lt_or_ge (2 ^ 64) (n + 4) with hbig | hsmall
  · -- the three greatest sizes wrap to an empty request
    obtain rfl | rfl | rfl : n = 2 ^ 64 - 3 ∨ n = 2 ^ 64 - 2 ∨ n = 2 ^ 64 - 1 := by omega
    all_goals decide
  · rw [align4_eq (n := align4 n) (by omega), align4_eq hsmall]
    omega

theorem kmalloc_congr (h : Heap) (he : align4 m = align4 n) : h.kmalloc m = h.kmalloc n := by
  simp only [Heap.kmalloc, he]

theorem serves_all_iff (hp : Placed heap) (hR : Refines heap h A) :
    (∀ n < 2 ^ 64, metaBlockSize + align4 n ≤ heapSize → ∃ r, h.kmalloc n = some r ∧ r.2 ≠ 0) ↔
      A.brk = heap ∨ A.HasWhole := by
  have hm : metaBlockSize = 40 := rfl
  have hh : heapSize = 16777216 := by decide
  have hle := hR.ok.ordered.le
  constructor
  · intro hall
    have ha : align4 (heapSize - metaBlockSize) = heapSize - metaBlockSize := by decide
    obtain ⟨r, hr, hne⟩ := hall (heapSize - metaBlockSize) (by omega) (by omega)
    obtain ⟨h', heq, -⟩ := kmalloc_refines hR (hp.answered hR (n := heapSize - metaBlockSize) (by omega))
    rw [hr] at heq
    cases heq
    rcases Arena.kmalloc_ne_null.mp hne with ⟨b, hb, hfit⟩ | hfit
    · rw [ha] at hfit
      exact .inr ⟨b, hb, fits_iff.mp hfit⟩
    · exact .inl (by omega)
  · intro hw n hn hfits
    obtain ⟨hsz, hidem⟩ := align4_idem hn hfits
    obtain ⟨h', heq, -⟩ := kmalloc_refines hR (hp.answered hR hsz)
    rw [← kmalloc_congr h hidem]
    refine ⟨_, heq, Arena.kmalloc_ne_null.mpr ?_⟩
    rw [hidem]
    rcases hw with hbrk | ⟨b, hb, hf, hs⟩
    · exact .inr (by omega)
    · exact .inl ⟨b, hb, fits_iff.mpr ⟨hf, by omega⟩⟩

-- ---------------------------------------------------------------------------
-- kfree of the last live block
-- ---------------------------------------------------------------------------

def headSize : List Blk → Nat
  | [] => 0
  | b :: _ => b.size

theorem mergeNext_head (b : Blk) (post : List Blk) :
    ∃ rest, mergeNext b post =
      { b with size := b.size + if ∃ c ∈ post.head?, c.free = true then
          metaBlockSize + headSize post else 0 } :: rest := by
  cases post with
  | nil => exact ⟨[], by simp [mergeNext]⟩
  | cons c rest =>
    cases hc : c.free with
    | true => exact ⟨setPrev b.addr rest, by simp [mergeNext, hc, Blk.join, headSize, Nat.add_assoc]⟩
    | false => exact ⟨{ c with prev := b.addr } :: rest, by simp [mergeNext, hc]⟩

theorem release_whole (hA : (A.release pre b post).Ok heap (heap + heapSize)) (hp : post ≠ [])
    (hf : b.free = true) :
    (A.release pre b post).HasWhole ↔ heapSize - metaBlockSize =
      b.size + if ∃ c ∈ post.head?, c.free = true then metaBlockSize + headSize post else 0 := by
  obtain ⟨rest, hm⟩ := mergeNext_head b post
  rw [release_nonempty A hp, hm] at hA ⊢
  generalize hd : b.size + (if ∃ c ∈ post.head?, c.free = true then
    metaBlockSize + headSize post else 0) = k at hA ⊢
  have hmem : ({ b with size := k } : Blk) ∈
      (Arena.mk A.stale (pre ++ { b with size := k } :: rest) A.brk).blocks := by
    simp [Arena.blocks]
  have hle := hA.size_le hmem
  constructor
  · rintro ⟨c, hc, -, hs⟩
    have := hA.whole_alone (List.mem_append_right _ hc) hs hmem
    rw [this] at hs
    exact Nat.le_antisymm hs hle
  · intro he
    exact ⟨{ b with size := k }, by simp, hf, Nat.le_of_eq he⟩

theorem not_hasWhole {l : List Blk} (hA : A.Ok heap (heap + heapSize)) (hb : b ∈ A.blocks)
    (hf : b.free = false) (hs : ∀ c ∈ l, c ∈ A.blocks) :
    ¬∃ c ∈ l, c.free = true ∧ heapSize - metaBlockSize ≤ c.size := by
  rintro ⟨c, hc, hcf, hsz⟩
  rw [hA.whole_alone (hs c hc) hsz hb, hf] at hcf
  cases hcf

theorem release_last_whole (hA : A.Ok heap (heap + heapSize)) (hb : b ∈ A.blocks)
    (hf : b.free = false) (hs : ∀ c ∈ pre, c ∈ A.blocks) (b' : Blk) :
    ¬(A.release pre b' []).HasWhole := by
  unfold Arena.HasWhole Arena.release
  simp only [ne_eq, not_true_eq_false, ↓reduceIte]
  split
  · exact not_hasWhole hA hb hf hs
  · simp

theorem toNat_ne_zero (x : Bool) : x.toNat ≠ 0 ↔ x = true := by
  cases x <;> simp

theorem next_share (hR : Refines heap h A) (hc : A.chain = pre ++ b :: c :: rest) :
    (if h.get (h.get b.addr .next) .free ≠ 0 then
        metaBlockSize + h.get (h.get b.addr .next) .size else 0) =
      if c.free = true then metaBlockSize + c.size else 0 := by
  obtain ⟨_, -, -, hseg⟩ := hR.suffix hc
  have hn : h.get b.addr .next = c.addr := hseg.1.next
  simp only [hn, hseg.2.1.free, hseg.2.1.size, toNat_ne_zero]

theorem mergedSize_back (hR : Refines heap h A) (hc : A.chain = pre ++ x :: b :: c :: rest)
    (hp : b.prev = x.addr) (hx : x.free = true) :
    h.mergedSize b.data = (x.join b).size + if c.free = true then metaBlockSize + c.size else 0 := by
  have hb : b ∈ A.blocks := by simp [Arena.blocks, hc]
  have hxa : x.addr ≠ 0 := hR.addr_ne (by simp [Arena.blocks, hc])
  obtain ⟨_, -, -, hseg⟩ := hR.suffix hc
  have hc' : A.chain = (pre ++ [x]) ++ b :: c :: rest := by simp [hc]
  rw [Heap.mergedSize, getBlockAddr, hR.block_addr hb]
  simp only [next_share hR hc', hseg.2.1.prev, hp, hxa, hseg.1.free, hx, hseg.1.size,
    hseg.2.1.size, ne_eq, not_false_eq_true, true_and, Bool.toNat_true, Nat.one_ne_zero, ↓reduceIte,
    Blk.join]

theorem mergedSize_plain (hR : Refines heap h A) (hc : A.chain = pre ++ b :: c :: rest)
    (hp : b.prev = 0 ∨ ∃ x ∈ pre, b.prev = x.addr ∧ x.free = false) :
    h.mergedSize b.data = b.size + if c.free = true then metaBlockSize + c.size else 0 := by
  have hb : b ∈ A.blocks := by simp [Arena.blocks, hc]
  obtain ⟨_, -, -, hseg⟩ := hR.suffix hc
  have hno : ¬(b.prev ≠ 0 ∧ h.get b.prev .free ≠ 0) := by
    rintro ⟨hne, hfree⟩
    obtain ⟨x, hx, hpx, hxf⟩ := hp.resolve_left hne
    obtain ⟨_, hh⟩ := hR.chain_seg.holds (b := x) (by simp [hc, hx])
    rw [hpx, hh.free, hxf] at hfree
    exact hfree rfl
  rw [Heap.mergedSize, getBlockAddr, hR.block_addr hb]
  simp only [next_share hR hc, hseg.1.prev, hseg.1.size]
  rw [if_neg hno, Nat.zero_add]

theorem kfree_whole (hR : Refines heap h A) (hb : b ∈ A.blocks) (hf : b.free = false) :
    (A.kfree b.data).HasWhole ↔ h.reunites b.data := by
  have hvalid := isAddrValid_iff hR hb
  by_cases hv : b ∈ A.chain ∧ b.data < A.brk
  · obtain ⟨hbc, hlt⟩ := hv
    obtain ⟨pre, post, hc⟩ := List.append_of_mem hbc
    have hpre : ∀ c ∈ pre, c ∈ A.blocks := fun c hcp => by simp [Arena.blocks, hc, hcp]
    have hlink := hR.ok.linked
    have hok := A.kfree_ok hR.ok b.data
    rw [hc] at hlink
    rw [kfree_eq hR.ok hc, if_pos hlt] at hok ⊢
    rw [Heap.reunites, hvalid, getBlockAddr, hR.block_addr hb, next_ne_zero hR hc]
    cases post with
    | nil =>
      refine iff_of_false ?_ (by simp)
      rcases A.freeAt_cases hlink with ⟨pre', x, rfl, -, -, -, heq⟩ | ⟨-, heq⟩
      · rw [heq]
        exact release_last_whole hR.ok hb hf (fun c hcp => hpre c (by simp [hcp])) _
      · rw [heq]
        exact release_last_whole hR.ok hb hf hpre _
    | cons c rest =>
      simp only [hbc, hlt, and_self, ne_eq, reduceCtorEq, not_false_eq_true, true_and]
      rcases A.freeAt_cases hlink with ⟨pre', x, rfl, hpx, -, hxf, heq⟩ | ⟨hp, heq⟩
      · rw [heq] at hok ⊢
        rw [release_whole hok (by simp [setPrev]) hxf,
          mergedSize_back hR (by simpa using hc) hpx hxf, eq_comm]
        simp [setPrev, headSize]
      · rw [heq] at hok ⊢
        rw [release_whole hok (by simp) rfl, mergedSize_plain hR hc hp, eq_comm]
        simp [headSize]
  · have hsame : A.kfree b.data = A := by
      cases hs : findSplit (holds b.data) A.chain with
      | none => simp [Arena.kfree, hs]
      | some r =>
        obtain ⟨pre, c, post⟩ := r
        obtain ⟨hc, hd⟩ := Arena.mem_of_findSplit hs
        have hcb : c = b := hR.ok.ordered.unique (by simp [Arena.blocks, hc]) hb (by
          simpa [Blk.data] using hd)
        have hlt : ¬b.data < A.brk := fun hlt => hv ⟨by rw [hc, hcb]; simp, hlt⟩
        simp [Arena.kfree, hs, hlt]
    rw [hsame]
    refine iff_of_false (not_hasWhole hR.ok hb hf fun c hc => List.mem_append_right _ hc) ?_
    exact fun hu => hv (hvalid.mp hu.1)

-- ---------------------------------------------------------------------------
-- Steps and runs
-- ---------------------------------------------------------------------------

def Arena.Roomy (heap : Nat) (A : Arena) (live : List Alloc) : Prop :=
  live = [] → A.brk = heap ∨ A.HasWhole

theorem reusable_iff (hB : s.Backed heap A) : s.Reusable ↔ A.Roomy heap s.live := by
  rw [Session.Reusable, serves_all_iff hB.placed hB.refines, Arena.Roomy]

theorem Arena.kfree_brk (A : Arena) (p : Nat) : (A.kfree p).brk = A.brk := by
  have release : ∀ pre b post, (A.release pre b post).brk = A.brk := fun pre b post => by
    unfold Arena.release
    split
    · rfl
    · split <;> rfl
  unfold Arena.kfree
  split
  · split
    · unfold Arena.freeAt
      split
      · split <;> exact release _ _ _
      · exact release _ _ _
    · rfl
  · rfl

theorem roomy_granted (hq : q ≠ 0) : A.Roomy heap (granted q n live) := by
  simp [Arena.Roomy, granted, hq]

theorem kmalloc_roomy (hA : A.Ok heap endp) (hP : A.Roomy heap live) :
    (A.kmalloc endp n).1.Roomy heap (granted (A.kmalloc endp n).2 n live) := by
  rcases A.kmalloc_serves hA n with h0 | ⟨hq, -, -⟩
  · rw [h0]
    exact hP
  · exact roomy_granted hq

theorem onlyLive_iff (hl : isLive s.live p = true) : s.onlyLive p ↔ dropped p s.live = [] := by
  obtain ⟨a, ha, -⟩ := isLive_iff.mp hl
  have hne : s.live ≠ [] := List.ne_nil_of_mem ha
  simp [Session.onlyLive, dropped, hne]

theorem Session.Backed.onlyLive_ne (hB : s.Backed heap A) (ho : s.onlyLive p) : p ≠ 0 := by
  obtain ⟨a, ha⟩ := List.exists_mem_of_ne_nil _ ho.1
  rw [← ho.2 a ha]
  exact (hB.backs.serves a ha).ne_zero

theorem kfree_roomy (hB : s.Backed heap A) (hP : A.Roomy heap s.live)
    (hp : p = 0 ∨ isLive s.live p = true) :
    (A.kfree p).Roomy heap (dropped p s.live) ↔ (s.onlyLive p → s.heap.reunites p) := by
  rcases hp with rfl | hl
  · have hne : ∀ a ∈ s.live, a.ptr ≠ 0 := fun a ha => (hB.backs.serves a ha).ne_zero
    have hdrop : dropped 0 s.live = s.live := by
      simpa [dropped, List.filter_eq_self] using hne
    rw [A.kfree_null, hdrop]
    exact iff_of_true hP fun ho => absurd rfl (hB.onlyLive_ne ho)
  · obtain ⟨b, hb, rfl, hf⟩ := hB.backs.block hl
    have hbrk : (A.kfree b.data).brk ≠ heap := by
      have := hB.refines.ok.ordered.mem hb
      have hm : metaBlockSize = 40 := rfl
      unfold Blk.fin at this
      rw [A.kfree_brk]
      omega
    rw [onlyLive_iff hl, Arena.Roomy, ← kfree_whole hB.refines hb hf]
    simp only [hbrk, false_or]

theorem krealloc_roomy (hl : isLive live p = true) (A : Arena) (q n : Nat) :
    A.Roomy heap (if q = 0 then live else granted q n (dropped p live)) := by
  split
  · obtain ⟨a, ha, -⟩ := isLive_iff.mp hl
    intro hnil
    rw [hnil] at ha
    cases ha
  · exact roomy_granted ‹_›

theorem step_reusable (hB : ∃ A, s.Backed heap A) (hP : s.Reusable) (hstep : s.step op = some s') :
    s'.Reusable ↔ s.keepsReusable op := by
  obtain ⟨A, hB⟩ := hB
  have ha := step_allows hstep
  obtain ⟨s'', hs, hB', hlive, -⟩ := step_backed hB ha
  rw [hstep] at hs
  cases hs
  rw [reusable_iff hB] at hP
  rw [reusable_iff hB', hlive]
  cases op with
  | kmalloc n => exact iff_of_true (kmalloc_roomy hB.refines.ok hP) trivial
  | store x v => exact iff_of_true hP trivial
  | kfree p => exact kfree_roomy hB hP (by simpa [Session.allows] using ha)
  | krealloc p n =>
    simp only [Session.allows, Bool.and_eq_true, decide_eq_true_eq, Bool.or_eq_true,
      beq_iff_eq] at ha
    obtain ⟨-, hp⟩ := ha
    simp only [Arena.call, Op.liveAfter, Session.keepsReusable]
    by_cases hp0 : p = 0
    · subst hp0
      rw [if_pos rfl, Arena.krealloc, if_pos rfl]
      exact iff_of_true (kmalloc_roomy hB.refines.ok hP) fun _ ho => absurd rfl (hB.onlyLive_ne ho)
    · rw [if_neg hp0]
      by_cases h0 : n = 0
      · rw [if_pos h0, Arena.krealloc, if_neg hp0, if_pos h0, kfree_roomy hB hP hp]
        simp [h0]
      · rw [if_neg h0]
        exact iff_of_true (krealloc_roomy (hp.resolve_left hp0) _ _ _) fun hz => absurd hz h0

theorem start_reusable (hp : Placed heap) (mem : Mem) : (Session.start mem heap).Reusable :=
  (reusable_iff (start_backed hp mem)).mpr fun _ => .inl rfl

/-- A session leaves an empty heap usable exactly as long as every `kfree` of
its only live block brings the whole heap together. -/
theorem session_reusable_iff (hp : Placed heap)
    (hr : run Session.step (.start mem heap) ops = some s) :
    Always Session.step Session.Reusable (.start mem heap) ops ↔
      AllSteps Session.step Session.keepsReusable (.start mem heap) ops :=
  always_iff (fun s => ∃ A, s.Backed heap A) (fun _ _ _ => step_inv)
    (fun _ _ _ => step_reusable) ⟨_, start_backed hp mem⟩ (start_reusable hp mem) hr

/-- The whole heap is taken, cut to a small block, and freed as one again. -/
theorem session_reusable_iff_whole :
    let ops := [Op.kmalloc (heapSize - metaBlockSize), .krealloc 4136 8, .kfree 4136]
    (∃ s, run Session.step (.start (fun _ => 0) 4096) ops = some s ∧ s.live = []) ∧
      Always Session.step Session.Reusable (.start (fun _ => 0) 4096) ops := by
  intro ops
  have hrun : (run Session.step (.start (fun _ => 0) 4096) ops).map Session.live = some [] := by
    decide +kernel
  obtain ⟨s, hr, hlive⟩ := Option.map_eq_some_iff.mp hrun
  refine ⟨⟨s, hr, hlive⟩, (session_reusable_iff ⟨by decide, by decide⟩ hr).mpr ?_⟩
  refine ⟨trivial, fun s₁ h₁ => ⟨fun h0 => absurd h0 (by decide), fun s₂ h₂ => ⟨fun _ => ?_,
    fun _ _ => trivial⟩⟩⟩
  obtain rfl := step_getD h₁
  obtain rfl := step_getD h₂
  exact ⟨by decide +kernel, by decide +kernel, by decide +kernel⟩

/-- One `kmalloc` of the whole heap and its `kfree` use the heap up. -/
theorem whole_heap_leaks :
    ∃ s, run Session.step (.start (fun _ => 0) 4096)
        [.kmalloc (heapSize - metaBlockSize), .kfree 4136] = some s ∧
      s.live = [] ∧ (s.heap.kmalloc 8).map Prod.snd = some 0 ∧ ¬s.Reusable := by
  have hrun : (run Session.step (.start (fun _ => 0) 4096)
      [.kmalloc (heapSize - metaBlockSize), .kfree 4136]).map
        (fun s => (s.live, (s.heap.kmalloc 8).map Prod.snd)) = some ([], some 0) := by
    decide +kernel
  obtain ⟨s, hr, heq⟩ := Option.map_eq_some_iff.mp hrun
  obtain ⟨hlive, hnull⟩ := Prod.mk.inj heq
  refine ⟨s, hr, hlive, hnull, fun hre => ?_⟩
  obtain ⟨r, hk, hne⟩ := hre hlive 8 (by decide) (by decide)
  rw [hk] at hnull
  exact hne (Option.some.inj hnull)

end

end TomatoOs.Kmem
