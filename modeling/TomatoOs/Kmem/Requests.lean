import TomatoOs.Kmem.Sessions

/-!
# Which requests are answered rightly

`kmalloc` rounds a size up and compares the break it would need with the end of
the heap, in 64-bit words. `Heap.Exact` is what unbounded arithmetic asks of one
call, `Heap.Answers` the requests that get it. Sessions here pass sizes of any
64 bits. As long as every request is one of the latter the heap keeps its shape,
so `requests_exact_iff` is about all their states.
-/

namespace TomatoOs.Kmem

open Lib

inductive Heap.Listed (h : Heap) : Nat → Prop
  | base : h.base ≠ 0 → h.Listed h.base
  | next : h.Listed a → h.get a .next ≠ 0 → h.Listed (h.get a .next)

def Heap.Fits (h : Heap) (s a : Nat) : Prop :=
  h.Listed a ∧ h.get a .free ≠ 0 ∧ s ≤ h.get a .size

def roundUp4 (n : Nat) : Nat := (n + 3) / 4 * 4

/-- Neither a listed block nor what is left above the break holds `s` bytes. -/
def Heap.Full (h : Heap) (s : Nat) : Prop :=
  (∀ a, ¬h.Fits s a) ∧ h.endp < h.brk + metaBlockSize + s

structure Obtained (heap n : Nat) (h h' : Heap) (p : Nat) : Prop where
  inside : heap ≤ p ∧ p + n ≤ h.endp
  size : n ≤ h'.get (getBlockAddr p) .size
  brk : h.brk ≤ h'.brk ∧ h'.brk ≤ h.endp

/-- `kmalloc` gives `NULL` exactly on a full heap, and then changes nothing. -/
def Heap.Exact (heap : Nat) (h : Heap) (n : Nat) : Prop :=
  ∃ h' p, h.kmalloc n = some (h', p) ∧ (p = 0 ↔ h.Full (roundUp4 n)) ∧ (p = 0 → h' = h) ∧
    (p ≠ 0 → Obtained heap n h h' p)

/-- The break that `s` bytes would need stays below `2 ^ 64`, or wraps and is
above the end of the heap again. The last case is a request that wraps to no
bytes at all at the address that `sbrk` gives for a failure. -/
def Heap.Refuses (h : Heap) (s : Nat) : Prop :=
  h.brk + metaBlockSize + s < 2 ^ 64 ∨
    (h.endp + 2 ^ 64 < h.brk + metaBlockSize + s ∧ h.brk + metaBlockSize + s < 2 ^ 65 ∧
      metaBlockSize + s ≠ 2 ^ 64) ∨
    (metaBlockSize + s = 2 ^ 64 ∧ h.brk + 1 = 2 ^ 64)

/-- A request for which there is a block, or room above a break that is not
`NULL`, or that is refused; the three greatest sizes are rounded to 0. -/
def Heap.Answers (h : Heap) (n : Nat) : Prop :=
  (∃ a, h.Fits (roundUp4 n) a) ∨
    (h.brk + metaBlockSize + roundUp4 n ≤ h.endp ∧ h.brk ≠ 0) ∨
    (h.endp < h.brk + metaBlockSize + roundUp4 n ∧
      (roundUp4 n = 2 ^ 64 → ∀ a, ¬h.Fits 0 a) ∧ h.Refuses (roundUp4 n))

-- ---------------------------------------------------------------------------
-- The list from base
-- ---------------------------------------------------------------------------

section
variable {heap : Nat} {h : Heap} {A : Arena}

theorem not_listed (hb : h.base = 0) (a : Nat) : ¬h.Listed a := by
  intro hl
  induction hl with
  | base hne => exact hne hb
  | next _ _ ih => exact ih

theorem listed_seg (hs : Seg h l 0) (hne : ∀ b ∈ l, b.addr ≠ 0)
    (hh : headAddr l 0 ≠ 0 → h.Listed (headAddr l 0)) (hb : b ∈ l) : h.Listed b.addr := by
  induction l with
  | nil => cases hb
  | cons c rest ih =>
    have hc : h.Listed c.addr := hh (hne c List.mem_cons_self)
    rcases List.mem_cons.mp hb with rfl | hb
    · exact hc
    · refine ih hs.2 (fun d hd => hne d (List.mem_cons_of_mem c hd)) (fun hr => ?_) hb
      rw [← hs.1.next] at hr ⊢
      exact .next hc hr

theorem listed_iff (hR : Refines heap h A) : h.Listed a ↔ ∃ b ∈ A.chain, b.addr = a := by
  constructor
  · intro hl
    induction hl with
    | base hne =>
      rw [hR.rep.base]
      cases hc : A.chain with
      | nil => exact absurd hc (hR.base_ne.mp hne)
      | cons b rest => exact ⟨b, List.mem_cons_self, rfl⟩
    | next _ hne ih =>
      obtain ⟨b, hb, rfl⟩ := ih
      obtain ⟨pre, post, hc⟩ := List.append_of_mem hb
      obtain ⟨_, -, -, hseg⟩ := hR.suffix hc
      rw [hseg.1.next] at hne ⊢
      cases post with
      | nil => exact absurd rfl hne
      | cons c rest => exact ⟨c, by simp [hc], rfl⟩
  · rintro ⟨b, hb, rfl⟩
    refine listed_seg hR.chain_seg (fun c hc => hR.addr_ne (List.mem_append_right _ hc)) ?_ hb
    rw [← hR.rep.base]
    exact .base

theorem fits_chain (hR : Refines heap h A) :
    h.Fits s a ↔ ∃ b ∈ A.chain, b.addr = a ∧ fits s b = true := by
  have hread : ∀ b ∈ A.chain,
      (h.get b.addr .free ≠ 0 ∧ s ≤ h.get b.addr .size ↔ fits s b = true) := fun b hb => by
    obtain ⟨_, hh⟩ := hR.chain_seg.holds hb
    rw [hh.free, hh.size, fits_iff]
    cases b.free <;> simp
  rw [Heap.Fits, listed_iff hR]
  constructor
  · rintro ⟨⟨b, hb, rfl⟩, hfit⟩
    exact ⟨b, hb, rfl, (hread b hb).mp hfit⟩
  · rintro ⟨b, hb, rfl, hfit⟩
    exact ⟨⟨b, hb, rfl⟩, (hread b hb).mpr hfit⟩

theorem findSplit_fits (hR : Refines heap h A) :
    (findSplit (fits s) A.chain).isSome = true ↔ ∃ a, h.Fits s a := by
  cases hf : findSplit (fits s) A.chain with
  | some r =>
    obtain ⟨pre, b, post⟩ := r
    obtain ⟨hc, hb, -⟩ := findSplit_some hf
    exact iff_of_true rfl ⟨b.addr, (fits_chain hR).mpr ⟨b, by simp [hc], rfl, hb⟩⟩
  | none =>
    refine iff_of_false (by simp) ?_
    rintro ⟨a, ha⟩
    obtain ⟨b, hb, -, hfit⟩ := (fits_chain hR).mp ha
    rw [findSplit_none.mp hf b hb] at hfit
    cases hfit

-- ---------------------------------------------------------------------------
-- Requests in 64 bits
-- ---------------------------------------------------------------------------

theorem align4_mod (n : Nat) : align4 n = roundUp4 n % 2 ^ 64 := by
  unfold align4 roundUp4 wadd wsub
  omega

theorem le_roundUp4 (n : Nat) : n ≤ roundUp4 n := by
  unfold roundUp4
  omega

theorem roundUp4_le (hn : n < 2 ^ 64) : roundUp4 n ≤ 2 ^ 64 := by
  unfold roundUp4
  omega

theorem sbrk_failed_iff (ht : t < 2 ^ 64) :
    h.sbrk t = (h, sbrkFailed) ↔
      t = 0 ∧ h.brk = sbrkFailed ∨ t ≠ 0 ∧ h.endp < (h.brk + t) % 2 ^ 64 := by
  unfold Heap.sbrk wadd
  by_cases h0 : t = 0
  · simp [h0]
  · rw [if_neg h0]
    split
    · rename_i hlt
      exact iff_of_true rfl (.inr ⟨h0, hlt⟩)
    · rename_i hle
      refine iff_of_false (fun heq => ?_) (by omega)
      have hbrk := congrArg (fun r => r.1.brk) heq
      simp only at hbrk
      omega

theorem refuses_iff (hb : h.brk < 2 ^ 64) (he : h.endp < 2 ^ 64) (hn : n < 2 ^ 64)
    (hz : h.brk ≤ h.endp ∨ h.endp = 0 ∧ h.brk + metaBlockSize < 2 ^ 64)
    (hfull : h.endp < h.brk + metaBlockSize + roundUp4 n) :
    h.sbrk (wadd 64 metaBlockSize (align4 n)) = (h, sbrkFailed) ↔ h.Refuses (roundUp4 n) := by
  have hm : metaBlockSize = 40 := rfl
  have hf : sbrkFailed = 18446744073709551615 := by decide
  have hr := roundUp4_le hn
  rw [sbrk_failed_iff (wadd_lt ..), align4_mod n, Heap.Refuses]
  unfold wadd
  generalize roundUp4 n = r at *
  omega

theorem extendHeap_refused (hf : (h.sbrk (wadd 64 metaBlockSize s)).2 = sbrkFailed) (last : Nat) :
    h.extendHeap last s = ((h.sbrk (wadd 64 metaBlockSize s)).1, 0) := by
  have hold : h.sbrk 0 = (h, h.brk) := by simp [Heap.sbrk]
  simp [Heap.extendHeap, hold, hf]

theorem sbrk_log (h : Heap) (t : Nat) : (h.sbrk t).1.log = h.log := by
  unfold Heap.sbrk
  split
  · rfl
  · split <;> rfl

theorem extendHeap_granted (hf : (h.sbrk (wadd 64 metaBlockSize s)).2 ≠ sbrkFailed) (last : Nat) :
    (h.extendHeap last s).1.log ≠ h.log ∧ (h.extendHeap last s).2 = h.brk := by
  have hold : h.sbrk 0 = (h, h.brk) := by simp [Heap.sbrk]
  have hlog := sbrk_log h (wadd 64 metaBlockSize s)
  unfold Heap.extendHeap
  rw [hold]
  simp only [if_neg hf]
  have hlen : ∀ l : List (Nat × Nat), l = h.log → ∀ x, x.length > l.length → x ≠ h.log := by
    rintro l rfl x hx rfl
    omega
  split
  · exact ⟨hlen _ hlog _ (by simp [Heap.set]; omega), rfl⟩
  · exact ⟨hlen _ hlog _ (by simp [Heap.set]; omega), rfl⟩

theorem kmalloc_extends
    (hfind : h.base = 0 ∨ ∃ last, h.findBlock h.base (align4 n) = some (last, 0)) :
    ∃ last r a h' p, h.extendHeap last (align4 n) = (r, a) ∧ h.kmalloc n = some (h', p) ∧
      h'.log = r.log ∧ (a = 0 → h' = r ∧ p = 0) := by
  by_cases hbase : h.base = 0
  · rcases hext : h.extendHeap 0 (align4 n) with ⟨r, a⟩
    rw [kmalloc_empty hbase hext]
    by_cases ha : a = 0
    · rw [if_pos ha]
      exact ⟨0, r, a, _, _, hext, rfl, rfl, fun _ => ⟨rfl, rfl⟩⟩
    · rw [if_neg ha]
      exact ⟨0, r, a, _, _, hext, rfl, rfl, fun h0 => absurd h0 ha⟩
  · obtain ⟨last, hlast⟩ := hfind.resolve_left hbase
    rcases hext : h.extendHeap last (align4 n) with ⟨r, a⟩
    have hcall : h.kmalloc n = some (if a = 0 then (r, 0) else (r, wadd 64 a metaBlockSize)) := by
      simp only [Heap.kmalloc, hbase, hlast, hext, Option.map_some, ne_eq, not_false_eq_true,
        not_true_eq_false, ↓reduceIte]
    rw [hcall]
    by_cases ha : a = 0
    · rw [if_pos ha]
      exact ⟨last, r, a, _, _, hext, rfl, rfl, fun _ => ⟨rfl, rfl⟩⟩
    · rw [if_neg ha]
      exact ⟨last, r, a, _, _, hext, rfl, rfl, fun h0 => absurd h0 ha⟩

theorem kmalloc_same
    (hfind : h.base = 0 ∨ ∃ last, h.findBlock h.base (align4 n) = some (last, 0)) :
    h.kmalloc n = some (h, 0) ↔
      h.sbrk (wadd 64 metaBlockSize (align4 n)) = (h, sbrkFailed) := by
  obtain ⟨last, r, a, h', p, hext, hcall, hlog, hnull⟩ := kmalloc_extends hfind
  rw [hcall]
  generalize hs : h.sbrk (wadd 64 metaBlockSize (align4 n)) = x
  obtain ⟨y, q⟩ := x
  by_cases hf : q = sbrkFailed
  · rw [extendHeap_refused (by rw [hs]; exact hf), hs] at hext
    obtain ⟨rfl, rfl⟩ := Prod.mk.inj hext
    obtain ⟨rfl, rfl⟩ := hnull rfl
    simp [hf]
  · obtain ⟨hgrown, -⟩ := extendHeap_granted (by rw [hs]; exact hf) last
    rw [hext] at hgrown
    refine iff_of_false (fun heq => ?_) (fun heq => hf (Prod.mk.inj heq).2)
    obtain ⟨rfl, -⟩ := Prod.mk.inj (Option.some.inj heq)
    exact hgrown hlog.symm

-- ---------------------------------------------------------------------------
-- One request
-- ---------------------------------------------------------------------------

theorem align4_small (hr : roundUp4 n < 2 ^ 64) : align4 n = roundUp4 n := by
  rw [align4_mod, Nat.mod_eq_of_lt hr]

theorem Heap.Fits.le (hf : h.Fits s a) (hR : Refines heap h A) : s ≤ heapSize := by
  obtain ⟨b, hb, -, hfit⟩ := (fits_chain hR).mp hf
  have := hR.ok.size_le (List.mem_append_right _ hb)
  have := (fits_iff.mp hfit).2
  omega

theorem Heap.Answers.answered (ha : h.Answers n) (hR : Refines heap h A) (hn : n < 2 ^ 64) :
    Answered heap h A n := by
  have hh : heapSize = 16777216 := by decide
  have hlt := hR.sited.room
  have hb := hR.lt
  have hle := hR.ok.brk_le
  have hend := hR.endp
  rw [← hR.rep.brk] at hb hle
  unfold Answered
  rcases ha with ⟨a, hf⟩ | ⟨hroom, -⟩ | ⟨hfull, -, href⟩
  · have := hf.le hR
    rw [align4_small (by omega), findSplit_fits hR]
    exact .inl ⟨a, hf⟩
  · rw [align4_small (by omega), ← hR.rep.brk]
    exact .inr (.inl (by omega))
  · exact .inr (.inr ((refuses_iff hb (by omega) hn (.inl (by omega)) hfull).mpr href))

theorem exact_of_room (hR : Refines heap h A) (hn : n < 2 ^ 64) (hroom : ¬h.Full (roundUp4 n)) :
    h.Answers n ∧ h.Exact heap n := by
  have hh : heapSize = 16777216 := by decide
  have hlt := hR.sited.room
  have hend := hR.endp
  have hbrk : h.brk ≠ 0 := by
    rw [hR.rep.brk]
    exact hR.brk_ne
  have hcase : (∃ a, h.Fits (roundUp4 n) a) ∨ h.brk + metaBlockSize + roundUp4 n ≤ h.endp := by
    unfold Heap.Full at hroom
    by_contra hno
    push Not at hno
    exact hroom hno
  have hans : h.Answers n := hcase.elim .inl fun hr => .inr (.inl ⟨hr, hbrk⟩)
  have hsmall : roundUp4 n < 2 ^ 64 := by
    rcases hcase with ⟨a, hf⟩ | hr
    · have := hf.le hR
      omega
    · omega
  have hne : (A.kmalloc (heap + heapSize) n).2 ≠ 0 := by
    rw [Arena.kmalloc_ne_null, align4_small hsmall, ← hR.rep.brk, ← hend]
    refine hcase.imp (fun ⟨a, hf⟩ => ?_) id
    obtain ⟨b, hb, -, hfit⟩ := (fits_chain hR).mp hf
    exact ⟨b, hb, hfit⟩
  obtain ⟨h', heq, hret⟩ := kmalloc_refines hR (hans.answered hR hn)
  rcases A.kmalloc_serves hR.ok n with h0 | ⟨-, -, b, hb, hd, -, hs⟩
  · exact absurd (by rw [h0]) hne
  have hR' := hret.refines
  have hmem := hR'.ok.ordered.mem hb
  have hle := hR'.ok.brk_le
  have hge := A.kmalloc_brk_le (heap + heapSize) n
  have hrnd := le_roundUp4 n
  obtain ⟨_, hh'⟩ := hR'.holds hb
  rw [align4_small hsmall] at hs
  refine ⟨hans, h', _, heq, iff_of_false hne hroom, fun h0 => absurd h0 hne, fun _ => ?_⟩
  rw [← hd]
  unfold Blk.fin at hmem
  refine ⟨?_, ?_, ?_⟩
  · unfold Blk.data
    omega
  · rw [getBlockAddr, hR'.block_addr hb, hh'.size]
    omega
  · rw [hR'.rep.brk, hR.rep.brk]
    omega

theorem exact_full (hfull : h.Full (roundUp4 n)) :
    h.Exact heap n ↔ h.kmalloc n = some (h, 0) := by
  constructor
  · rintro ⟨h', p, heq, hnull, hsame, -⟩
    obtain rfl := hnull.mpr hfull
    rw [heq, hsame rfl]
  · intro heq
    exact ⟨h, 0, heq, iff_of_true rfl hfull, fun _ => rfl, fun h0 => absurd rfl h0⟩

theorem exact_unfound (hfull : h.Full (roundUp4 n)) (hn : n < 2 ^ 64)
    (hno : ∀ a, ¬h.Fits (align4 n) a)
    (hfind : h.base = 0 ∨ ∃ last, h.findBlock h.base (align4 n) = some (last, 0))
    (hb : h.brk < 2 ^ 64) (he : h.endp < 2 ^ 64)
    (hz : h.brk ≤ h.endp ∨ h.endp = 0 ∧ h.brk + metaBlockSize < 2 ^ 64) :
    h.Exact heap n ↔ h.Answers n := by
  rw [exact_full hfull, kmalloc_same hfind, refuses_iff hb he hn hz hfull.2]
  constructor
  · intro href
    refine .inr (.inr ⟨hfull.2, fun hr a hf => hno a ?_, href⟩)
    rwa [align4_mod, hr]
  · rintro (⟨a, hf⟩ | ⟨hroom, -⟩ | ⟨-, -, href⟩)
    · exact absurd hf (hfull.1 a)
    · have := hfull.2
      omega
    · exact href

theorem exact_iff (hR : Refines heap h A) (hn : n < 2 ^ 64) : h.Exact heap n ↔ h.Answers n := by
  by_cases hfull : h.Full (roundUp4 n)
  · have hb := hR.lt
    have hle := hR.ok.brk_le
    have hlt := hR.sited.room
    have hend := hR.endp
    rw [← hR.rep.brk] at hb hle
    cases hf : findSplit (fits (align4 n)) A.chain with
    | none =>
      refine exact_unfound hfull hn (fun a ha => ?_) (.inr ?_) hb (by omega) (.inl (by omega))
      · have := (findSplit_fits hR).mpr ⟨a, ha⟩
        rw [hf] at this
        cases this
      · have hfind := findBlock_eq hR (align4 n)
        simp only [hf] at hfind
        exact ⟨_, hfind⟩
    | some r =>
      obtain ⟨pre, b, post⟩ := r
      obtain ⟨hc, hfit, -⟩ := findSplit_some hf
      have hbase : h.base ≠ 0 := hR.base_ne.mpr (by simp [hc])
      obtain ⟨a, ha⟩ := (findSplit_fits hR).mp (by rw [hf]; rfl)
      have hbig : roundUp4 n = 2 ^ 64 := by
        have := roundUp4_le hn
        by_contra hne
        rw [align4_small (by omega)] at ha
        exact hfull.1 a ha
      rw [exact_full hfull, kmalloc_found hR hbase hf]
      refine iff_of_false (fun heq => b.data_ne (Prod.mk.inj (Option.some.inj heq)).2) ?_
      rintro (⟨a, hf⟩ | ⟨hroom, -⟩ | ⟨-, hzero, -⟩)
      · exact hfull.1 a hf
      · have := hfull.2
        omega
      · rw [align4_mod, hbig] at ha
        exact hzero hbig a ha
  · obtain ⟨hans, hexact⟩ := exact_of_room hR hn hfull
    exact iff_of_true hexact hans

-- ---------------------------------------------------------------------------
-- Heaps at either end of the address space
-- ---------------------------------------------------------------------------

/-- An unused heap at address 0, or one whose end wraps to 0. -/
structure Blank (heap : Nat) (h : Heap) : Prop where
  edge : heap = 0 ∨ heap + heapSize = 2 ^ 64
  base : h.base = 0
  brk : h.brk = heap
  endp : h.endp = wadd 64 heap heapSize

theorem Blank.not_fits (hB : Blank heap h) (s a : Nat) : ¬h.Fits s a :=
  fun hf => not_listed hB.base a hf.1

/-- A block at address 0 is no block for `kmalloc`. -/
theorem kmalloc_null (hbase : h.base = 0) (hbrk : h.brk = 0) (heq : h.kmalloc n = some (h', p)) :
    p = 0 := by
  obtain ⟨last, r, a, h'', q, hext, hcall, -, hnull⟩ := kmalloc_extends (n := n) (.inl hbase)
  have ha : a = 0 := by
    have ha : a = (h.extendHeap last (align4 n)).2 := by rw [hext]
    by_cases hf : (h.sbrk (wadd 64 metaBlockSize (align4 n))).2 = sbrkFailed
    · rw [ha, extendHeap_refused hf]
    · rw [ha, (extendHeap_granted hf last).2, hbrk]
  rw [heq] at hcall
  obtain ⟨rfl, rfl⟩ := Prod.mk.inj (Option.some.inj hcall)
  exact (hnull ha).2

theorem Blank.exact_iff (hB : Blank heap h) (hn : n < 2 ^ 64) :
    h.Exact heap n ↔ h.Answers n := by
  have hh : heapSize = 16777216 := by decide
  have hm : metaBlockSize = 40 := rfl
  have hend := hB.endp
  have hbrk := hB.brk
  have hedge := hB.edge
  unfold wadd at hend
  by_cases hfull : h.Full (roundUp4 n)
  · refine exact_unfound hfull hn (hB.not_fits _) (.inl hB.base) ?_ ?_ ?_ <;> omega
  · have hroom : h.brk + metaBlockSize + roundUp4 n ≤ h.endp := by
      by_contra hno
      exact hfull ⟨hB.not_fits _, by omega⟩
    have hbrk0 : h.brk = 0 := by omega
    refine iff_of_false ?_ ?_
    · rintro ⟨h', p, heq, hnull, -⟩
      exact hfull (hnull.mp (kmalloc_null hB.base hbrk0 heq))
    · rintro (⟨a, hf⟩ | ⟨-, hne⟩ | ⟨hlt, -⟩)
      · exact hB.not_fits _ a hf
      · exact hne hbrk0
      · omega

theorem Blank.kmalloc_same (hB : Blank heap h) (hn : n < 2 ^ 64) (ha : h.Answers n)
    (log : List (Nat × Nat)) :
    Heap.kmalloc { h with log := log } n = some ({ h with log := log }, 0) := by
  have hh : heapSize = 16777216 := by decide
  have hend := hB.endp
  have hbrk := hB.brk
  have hedge := hB.edge
  unfold wadd at hend
  have hfull : h.Full (roundUp4 n) := by
    refine ⟨hB.not_fits _, ?_⟩
    rcases ha with ⟨a, hf⟩ | ⟨hroom, hne⟩ | ⟨hlt, -⟩
    · exact absurd hf (hB.not_fits _ a)
    · omega
    · exact hlt
  have hsame := (exact_full hfull).mp ((hB.exact_iff hn).mpr ha)
  -- `sbrk` does not look at the log
  have hbase : (Heap.mk h.mem h.brk h.endp h.base log).base = 0 := hB.base
  rw [Kmem.kmalloc_same (.inl hB.base), sbrk_failed_iff (wadd_lt ..)] at hsame
  rw [Kmem.kmalloc_same (.inl hbase), sbrk_failed_iff (wadd_lt ..)]
  exact hsame

-- ---------------------------------------------------------------------------
-- Sessions with sizes of any 64 bits
-- ---------------------------------------------------------------------------

/-- The rules for clients, but for the sizes. A store goes to the block that was
handed out, as far as that reaches. -/
def Session.permits (s : Session) : Op → Bool
  | .kmalloc n => n < 2 ^ 64
  | .krealloc p n => n < 2 ^ 64 && (p == 0 || isLive s.live p)
  | .kfree p => p == 0 || isLive s.live p
  | .store x _ =>
    s.live.any fun a => a.ptr ≤ x && x < a.ptr + s.heap.get (getBlockAddr a.ptr) .size

def Session.stepWide (s : Session) (op : Op) : Option Session :=
  if s.permits op then
    (Heap.call { s.heap with log := [] } op).map fun r =>
      { heap := r.1, live := op.liveAfter r.2 s.live }
  else none

/-- Every request of a call is answered as unbounded arithmetic does. -/
def Session.exact (heap : Nat) (s : Session) (op : Op) : Prop :=
  ∀ n < 2 ^ 64, op.asks s.heap n → s.heap.Exact heap n

def Session.answers (s : Session) (op : Op) : Prop :=
  ∀ n < 2 ^ 64, op.asks s.heap n → s.heap.Answers n

def Held (A : Arena) (live : List Alloc) : Prop := ∀ a ∈ live, A.Serves a.ptr 0

structure Session.Wide (heap : Nat) (s : Session) (A : Arena) : Prop where
  refines : Refines heap s.heap A
  held : Held A s.live

section
variable {A' : Arena} {s : Session} {live : List Alloc}

theorem Held.dropped (hH : Held A live) (hk : Keeps p A.blocks A'.blocks) :
    Held A' (dropped p live) := by
  intro a ha
  obtain ⟨ha, hp⟩ := List.mem_filter.mp ha
  exact (hH a ha).keeps hk (by simpa using hp)

theorem Held.granted (hH : Held A live) (hs : q ≠ 0 → A.Serves q 0) (n : Nat) :
    Held A (granted q n live) := by
  unfold Kmem.granted
  split
  · exact hH
  · rename_i hq
    exact fun a ha => (List.mem_cons.mp ha).elim (fun he => he ▸ hs hq) (hH a)

theorem Held.kmalloc (hH : Held A live) (hA : A.Ok heap endp) (n : Nat) :
    Held (A.kmalloc endp n).1 (Kmem.granted (A.kmalloc endp n).2 n live) := by
  have hkeep : Held (A.kmalloc endp n).1 live := fun a ha =>
    (hH a ha).keeps (A.kmalloc_keeps 0 endp n) (hH a ha).ne_zero
  refine hkeep.granted (fun hq => ?_) n
  rcases A.kmalloc_serves hA n with h0 | ⟨-, -, hs⟩
  · rw [h0] at hq
    exact absurd rfl hq
  · exact hs.mono (Nat.zero_le _)

theorem Held.krealloc (hH : Held A live) (hA : A.Ok heap endp) (hb : b ∈ A.blocks)
    (hf : b.free = false) (h0 : n ≠ 0) :
    Held (A.krealloc endp b.data n).1 (if (A.krealloc endp b.data n).2 = 0 then live
      else Kmem.granted (A.krealloc endp b.data n).2 n (Kmem.dropped b.data live)) := by
  rcases A.krealloc_serves hA hb hf h0 with hnull | ⟨hq, -, hs⟩
  · rw [hnull, if_pos rfl]
    exact hH
  · rw [if_neg hq]
    exact (hH.dropped (A.krealloc_keeps hA hb h0)).granted (fun _ => hs.mono (Nat.zero_le _)) n

theorem Held.call (hH : Held A live) (hA : A.Ok heap endp) (hf : op.fair A) :
    Held (A.call endp op).1 (op.liveAfter (A.call endp op).2 live) := by
  cases op with
  | kmalloc n => exact hH.kmalloc hA n
  | kfree p => exact hH.dropped (A.kfree_keeps p)
  | store x v => exact hH
  | krealloc p n =>
    simp only [Arena.call, Op.liveAfter]
    by_cases hp0 : p = 0
    · rw [if_pos hp0, Arena.krealloc, if_pos hp0]
      exact hH.kmalloc hA n
    · rw [if_neg hp0]
      by_cases h0 : n = 0
      · rw [if_pos h0, Arena.krealloc, if_neg hp0, if_pos h0]
        exact hH.dropped (A.kfree_keeps p)
      · rw [if_neg h0]
        obtain ⟨b, hb, rfl, hbf⟩ := hf.resolve_left hp0
        exact hH.krealloc hA hb hbf h0

theorem Session.Wide.fair (hW : s.Wide heap A) (hp : s.permits op = true) : op.fair A := by
  have hlive : ∀ p, p = 0 ∨ isLive s.live p = true → p = 0 ∨ A.Uses p := by
    refine fun p hp => hp.imp id fun hl => ?_
    obtain ⟨a, ha, rfl⟩ := isLive_iff.mp hl
    obtain ⟨b, hb, hd, hf, -⟩ := hW.held a ha
    exact ⟨b, hb, hd, hf⟩
  cases op with
  | kmalloc n => trivial
  | kfree p => exact hlive p (by simpa [Session.permits] using hp)
  | krealloc p n =>
    simp only [Session.permits, Bool.and_eq_true, Bool.or_eq_true, beq_iff_eq] at hp
    exact hlive p hp.2
  | store x v =>
    simp only [Session.permits, List.any_eq_true, Bool.and_eq_true, decide_eq_true_eq] at hp
    obtain ⟨a, ha, hlo, hhi⟩ := hp
    obtain ⟨b, hb, hd, -, -⟩ := hW.held a ha
    obtain ⟨_, hh⟩ := hW.refines.holds hb
    rw [← hd, getBlockAddr, hW.refines.block_addr hb, hh.size] at hhi
    exact ⟨b, hb, by omega, hhi⟩

theorem permits_asks (hp : s.permits op = true) (hn : op.asks h n) : n < 2 ^ 64 := by
  cases op with
  | kmalloc m =>
    obtain rfl : n = m := hn
    simpa [Session.permits] using hp
  | krealloc p m =>
    obtain ⟨rfl, -⟩ := hn
    simp only [Session.permits, Bool.and_eq_true, decide_eq_true_eq] at hp
    exact hp.1
  | kfree p => exact hn.elim
  | store x v => exact hn.elim

theorem stepWide_some (hs : s.stepWide op = some s') :
    s.permits op = true ∧ ∃ h' q, Heap.call { s.heap with log := [] } op = some (h', q) ∧
      s' = ⟨h', op.liveAfter q s.live⟩ := by
  unfold Session.stepWide at hs
  split at hs
  · rename_i hp
    obtain ⟨⟨h', q⟩, hcall, rfl⟩ := Option.map_eq_some_iff.mp hs
    exact ⟨hp, h', q, hcall, rfl⟩
  · cases hs

theorem Session.Wide.step (hW : s.Wide heap A) (ha : s.answers op) (hs : s.stepWide op = some s') :
    ∃ A', s'.Wide heap A' := by
  obtain ⟨hp, h', q, hcall, rfl⟩ := stepWide_some hs
  have hfair := hW.fair hp
  -- neither the walk nor `sbrk` looks at the log
  have hquiet : ∀ n, op.asks { s.heap with log := [] } n →
      Answered heap { s.heap with log := [] } A n := fun n hn => by
    have hlt := permits_asks hp hn
    refine ((ha n hlt hn).answered hW.refines hlt).imp id fun h => h.imp id fun hf => ?_
    rw [sbrk_failed_iff (wadd_lt ..)] at hf ⊢
    exact hf
  obtain ⟨h'', heq, hserved⟩ := call_served hW.refines.quiet hfair hquiet
  rw [hcall] at heq
  obtain ⟨rfl, rfl⟩ := Prod.mk.inj (Option.some.inj heq)
  exact ⟨_, hserved.refines, hW.held.call hW.refines.ok hfair⟩

theorem Blank.step (hB : Blank heap s.heap) (hl : s.live = []) (ha : s.answers op)
    (hs : s.stepWide op = some s') : Blank heap s'.heap ∧ s'.live = [] := by
  obtain ⟨hp, h', q, hcall, rfl⟩ := stepWide_some hs
  have hB₀ : Blank heap { s.heap with log := [] } := ⟨hB.edge, hB.base, hB.brk, hB.endp⟩
  have malloc : ∀ n, op.asks s.heap n → Heap.kmalloc { s.heap with log := [] } n =
      some ({ s.heap with log := [] }, 0) := fun n hn => by
    have hlt := permits_asks hp hn
    exact hB.kmalloc_same hlt (ha n hlt hn) []
  cases op with
  | kmalloc n =>
    rw [Heap.call, malloc n rfl] at hcall
    obtain ⟨rfl, rfl⟩ := Prod.mk.inj (Option.some.inj hcall)
    exact ⟨hB₀, hl⟩
  | krealloc p n =>
    obtain rfl : p = 0 := by
      simp only [Session.permits, hl, isLive, List.any_nil, Bool.or_false, Bool.and_eq_true,
        beq_iff_eq] at hp
      exact hp.2
    rw [Heap.call, Heap.krealloc, if_pos rfl, malloc n ⟨rfl, .inl rfl⟩] at hcall
    obtain ⟨rfl, rfl⟩ := Prod.mk.inj (Option.some.inj hcall)
    exact ⟨hB₀, hl⟩
  | kfree p =>
    obtain rfl : p = 0 := by simpa [Session.permits, hl, isLive] using hp
    rw [Heap.call, kfree_null] at hcall
    obtain ⟨rfl, rfl⟩ := Prod.mk.inj (Option.some.inj hcall)
    exact ⟨hB₀, by simp [Op.liveAfter, Kmem.dropped, hl]⟩
  | store x v => simp [Session.permits, hl] at hp

def Session.Sane (heap : Nat) (s : Session) : Prop :=
  (∃ A, s.Wide heap A) ∨ Blank heap s.heap ∧ s.live = []

theorem start_sane (hh : heap + heapSize ≤ 2 ^ 64) (mem : Mem) :
    (Session.start mem heap).Sane heap := by
  by_cases hsite : 0 < heap ∧ heap + heapSize < 2 ^ 64
  · refine .inl ⟨{ stale := [], chain := [], brk := heap }, ?_, fun a ha => by cases ha⟩
    refine ⟨⟨hsite.1, hsite.2⟩, ⟨Nat.le_refl _, trivial, Nat.le_add_right _ _⟩, ⟨rfl, rfl, ?_⟩,
      wadd_eq hsite.2⟩
    intro l hl
    obtain rfl : l = [] := by simpa [Arena.lists] using hl
    trivial
  · exact .inr ⟨⟨by omega, rfl, rfl, rfl⟩, rfl⟩

theorem Session.Sane.step (hS : s.Sane heap) (ha : s.answers op)
    (hs : s.stepWide op = some s') : s'.Sane heap := by
  rcases hS with ⟨A, hW⟩ | ⟨hB, hl⟩
  · exact .inl (hW.step ha hs)
  · exact .inr (hB.step hl ha hs)

theorem Session.Sane.exact_iff (hS : s.Sane heap) (op : Op) : s.exact heap op ↔ s.answers op := by
  refine forall_congr' fun n => forall_congr' fun hn => forall_congr' fun _ => ?_
  rcases hS with ⟨A, hW⟩ | ⟨hB, -⟩
  · exact Kmem.exact_iff hW.refines hn
  · exact hB.exact_iff hn

/-- Wherever the heap array lies, all requests of a session are answered as
unbounded arithmetic does exactly if each of them is such that they can be. -/
theorem requests_exact_iff (hh : heap + heapSize ≤ 2 ^ 64) :
    AllSteps Session.stepWide (Session.exact heap) (.start mem heap) ops ↔
      AllSteps Session.stepWide Session.answers (.start mem heap) ops :=
  allSteps_iff (Session.Sane heap) (fun _ _ _ hS => hS.step) (fun _ op hS => hS.exact_iff op)
    (start_sane hh mem)

/-- A request that is served and one that is too large. -/
theorem requests_exact_iff_two :
    4096 + heapSize ≤ 2 ^ 64 ∧
      AllSteps Session.stepWide (Session.exact 4096) (.start (fun _ => 0) 4096)
        [.kmalloc 96, .kmalloc (2 ^ 30)] := by
  have hrun : ((Session.start (fun _ => 0) 4096).stepWide (.kmalloc 96)).map
      (fun s => (s.heap.brk, s.heap.endp)) = some (4232, 16781312) := by decide +kernel
  refine ⟨by decide, (requests_exact_iff (by decide)).mpr ⟨?_, fun s hs => ⟨?_, fun _ _ => trivial⟩⟩⟩
  · rintro n - rfl
    exact .inr (.inl ⟨by decide, by decide⟩)
  · rintro n - rfl
    rw [hs] at hrun
    obtain ⟨hbrk, hend⟩ := Prod.mk.inj (Option.some.inj hrun)
    refine .inr (.inr ⟨?_, fun hr => absurd hr (by decide), .inl ?_⟩)
    · rw [hbrk, hend]
      decide
    · rw [hbrk]
      decide

/-- Two gigabytes from a heap in the last two: the sum wraps, and the request
gets a pointer to a heap that it does not fit in. -/
theorem request_wraps :
    2 ^ 64 - 2 ^ 31 + heapSize ≤ 2 ^ 64 ∧
      ((kmemInit (fun _ => 0) (2 ^ 64 - 2 ^ 31)).kmalloc (2 ^ 31)).map
        (fun r => (r.2, r.1.brk)) = some (2 ^ 64 - 2 ^ 31 + 40, 40) ∧
      ¬AllSteps Session.stepWide (Session.exact (2 ^ 64 - 2 ^ 31))
        (.start (fun _ => 0) (2 ^ 64 - 2 ^ 31)) [.kmalloc (2 ^ 31)] := by
  have hrun : ((kmemInit (fun _ => 0) (2 ^ 64 - 2 ^ 31)).kmalloc (2 ^ 31)).map
      (fun r => (r.2, r.1.brk)) = some (2 ^ 64 - 2 ^ 31 + 40, 40) := by decide +kernel
  refine ⟨by decide, hrun, fun hall => ?_⟩
  obtain ⟨h', p, heq, -, -, hgot⟩ := hall.1 (2 ^ 31) (by decide) rfl
  have hcall : (kmemInit (fun _ => 0) (2 ^ 64 - 2 ^ 31)).kmalloc (2 ^ 31) = some (h', p) := heq
  rw [hcall] at hrun
  obtain ⟨hp, -⟩ := Prod.mk.inj (Option.some.inj hrun)
  simp only at hp
  have hin : p + 2 ^ 31 ≤ 2 ^ 64 - 2 ^ 31 + heapSize := (hgot (by omega)).inside.2
  have hh : heapSize = 16777216 := by decide
  omega

end

end

end TomatoOs.Kmem
