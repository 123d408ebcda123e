import TomatoOs.Mem.Boot
import TomatoOs.Mem.Pmm

/-!
# The bitmap at start

`init_PMM` takes the largest usable region of the memory map and puts the bitmap
at its start, over whatever that memory held. The `memset` there clears as many
bytes as the variable `bitmap_size` has, not as it says: the bits from 64 on
are those that were in memory.
-/

namespace TomatoOs.Memory

open Lib

structure PmmGlobals where
  physicalSize : Nat
  usableBase : Nat
  pmm : Pmm

def pickLargest (largest : Option MemmapEntry) (entry : MemmapEntry) : Option MemmapEntry :=
  if entry.type = .usable then
    match largest with
    | none => some entry
    | some l => if l.length < entry.length then some entry else some l
  else largest

def sizeofBitmapSize : Nat := 8

def bitmapSize (totalPages : Nat) : Nat := wadd 64 totalPages 7 / 8

/-- `none`: without a usable entry `largest` is `NULL` when it is read. -/
def initPmm (entries : List MemmapEntry) (hhdm : Nat) (memory : Mem) : Option PmmGlobals :=
  (entries.foldl pickLargest none).map fun largest =>
    let totalPages := largest.length / blockSize
    let bitmap := memory.behind (wadd 64 largest.base hhdm)
    let bitmapPages := pageNeeded (bitmapSize totalPages)
    { physicalSize := largest.length
      usableBase := wadd 64 largest.base (wmul 64 bitmapPages blockSize)
      pmm :=
        { base := largest.base
          totalPages := totalPages
          bitmap := Bitmap.setRun (bitmap.cleared sizeofBitmapSize) 0 bitmapPages } }

-- ---------------------------------------------------------------------------
-- The largest region
-- ---------------------------------------------------------------------------

def FirstLargest (entries : List MemmapEntry) (e : MemmapEntry) : Prop :=
  ∃ before after, entries = before ++ e :: after ∧ e.type = .usable ∧
    (∀ f ∈ before, f.type = .usable → f.length < e.length) ∧
    ∀ f ∈ after, f.type = .usable → f.length ≤ e.length

theorem pickLargest_some (e : MemmapEntry) (after : List MemmapEntry)
    (h : ∀ f ∈ after, f.type = .usable → f.length ≤ e.length) :
    after.foldl pickLargest (some e) = some e := by
  induction after with
  | nil => rfl
  | cons f after ih =>
    have hf : pickLargest (some e) f = some e := by
      unfold pickLargest
      split
      · rename_i hu
        exact if_neg (Nat.not_lt.mpr (h f List.mem_cons_self hu))
      · rfl
    rw [List.foldl_cons, hf]
    exact ih fun g hg => h g (List.mem_cons_of_mem _ hg)

theorem pickLargest_before (before : List MemmapEntry) (e : MemmapEntry)
    (h : ∀ f ∈ before, f.type = .usable → f.length < e.length) :
    ∀ l ∈ before.foldl pickLargest none, l.length < e.length := by
  suffices ∀ largest : Option MemmapEntry, (∀ l ∈ largest, l.length < e.length) →
      ∀ l ∈ before.foldl pickLargest largest, l.length < e.length from this none (by simp)
  induction before with
  | nil => exact fun _ hl => hl
  | cons f before ih =>
    intro largest hl
    refine ih (fun g hg => h g (List.mem_cons_of_mem _ hg)) _ fun l hmem => ?_
    have hf := h f List.mem_cons_self
    unfold pickLargest at hmem
    split at hmem
    · rename_i hu
      split at hmem
      · cases hmem
        exact hf hu
      · split at hmem
        · cases hmem
          exact hf hu
        · cases hmem
          exact hl _ rfl
    · exact hl l hmem

theorem FirstLargest.fold (h : FirstLargest entries e) :
    entries.foldl pickLargest none = some e := by
  obtain ⟨before, after, rfl, hu, hbefore, hafter⟩ := h
  have hpick : pickLargest (before.foldl pickLargest none) e = some e := by
    have hlt := pickLargest_before before e hbefore
    generalize before.foldl pickLargest none = largest at hlt ⊢
    unfold pickLargest
    rw [if_pos hu]
    cases largest with
    | none => rfl
    | some l => exact if_pos (hlt l rfl)
  rw [List.foldl_append, List.foldl_cons, hpick]
  exact pickLargest_some e after hafter

theorem exists_firstLargest (h : ∃ e ∈ entries, e.type = MemmapType.usable) :
    ∃ e, FirstLargest entries e := by
  induction entries with
  | nil =>
    obtain ⟨e, he, -⟩ := h
    cases he
  | cons f entries ih =>
    by_cases hrest : ∃ e ∈ entries, e.type = MemmapType.usable
    · obtain ⟨e, before, after, rfl, hu, hbefore, hafter⟩ := ih hrest
      by_cases hf : f.type = .usable ∧ e.length ≤ f.length
      · refine ⟨f, [], _, rfl, hf.1, by simp, fun g hg hgu => ?_⟩
        rcases List.mem_append.mp hg with hg | hg
        · have := hbefore g hg hgu
          omega
        · rcases List.mem_cons.mp hg with rfl | hg
          · exact hf.2
          · have := hafter g hg hgu
            omega
      · refine ⟨e, f :: before, after, rfl, hu, fun g hg hgu => ?_, hafter⟩
        rcases List.mem_cons.mp hg with rfl | hg
        · rw [not_and] at hf
          exact Nat.lt_of_not_le (hf hgu)
        · exact hbefore g hg hgu
    · obtain ⟨e, he, hu⟩ := h
      rcases List.mem_cons.mp he with rfl | he
      · exact ⟨e, [], entries, rfl, hu, by simp, fun g hg hgu => absurd ⟨g, hg, hgu⟩ hrest⟩
      · exact absurd ⟨e, he, hu⟩ hrest

-- ---------------------------------------------------------------------------
-- The bits
-- ---------------------------------------------------------------------------

def bitmapPages (n : Nat) : Nat := ((n + 7) / 8 + 4095) / 4096

theorem bitmapPages_eq (h : n ≤ 2 ^ 52) : pageNeeded (bitmapSize n) = bitmapPages n := by
  have hsize : bitmapSize n = (n + 7) / 8 := by rw [bitmapSize, wadd_eq (by omega)]
  have hb : blockSize = 4096 := rfl
  rw [pageNeeded, hsize, hb, wadd_eq (by omega), wsub_eq (by omega) (by omega), bitmapPages]
  rfl

structure PmmGlobals.Initialised (entries : List MemmapEntry) (g : PmmGlobals) : Prop where
  largest : ∃ e ∈ entries, e.type = .usable ∧ g.pmm.base = e.base ∧ g.physicalSize = e.length ∧
    ∀ f ∈ entries, f.type = .usable → f.length ≤ e.length
  total : g.pmm.totalPages = g.physicalSize / blockSize
  bits : ∀ i < g.pmm.totalPages,
    (Bitmap.test g.pmm.bitmap i = true ↔ i < bitmapPages g.pmm.totalPages)

/-- In memory, the bits of the region's bitmap from 64 on were clear, those of
the bitmap's own pages apart. -/
def LeftClear (hhdm : Nat) (memory : Mem) (e : MemmapEntry) : Prop :=
  ∀ i, 64 ≤ i → i < e.length / blockSize →
    Bitmap.test (memory.behind (wadd 64 e.base hhdm)) i = true →
    i < bitmapPages (e.length / blockSize)

theorem FirstLargest.mem (h : FirstLargest entries e) : e ∈ entries ∧ e.type = .usable ∧
    ∀ f ∈ entries, f.type = .usable → f.length ≤ e.length := by
  obtain ⟨before, after, rfl, hu, hbefore, hafter⟩ := h
  refine ⟨by simp, hu, fun f hf hfu => ?_⟩
  rcases List.mem_append.mp hf with hf | hf
  · exact Nat.le_of_lt (hbefore f hf hfu)
  · rcases List.mem_cons.mp hf with rfl | hf
    · exact Nat.le_refl _
    · exact hafter f hf hfu

theorem initPmm_test (he : e.length < 2 ^ 64) (hfold : entries.foldl pickLargest none = some e)
    (hhdm : Nat) (memory : Mem) :
    ∃ g, initPmm entries hhdm memory = some g ∧ g.pmm.base = e.base ∧ g.physicalSize = e.length ∧
      g.pmm.totalPages = e.length / blockSize ∧
      ∀ i, Bitmap.test g.pmm.bitmap i = true ↔ i < bitmapPages (e.length / blockSize) ∨
        64 ≤ i ∧ Bitmap.test (memory.behind (wadd 64 e.base hhdm)) i = true := by
  have hpages : e.length / blockSize ≤ 2 ^ 52 := by
    have hb : blockSize = 4096 := rfl
    rw [hb]
    omega
  refine ⟨_, by rw [initPmm, hfold, Option.map_some], rfl, rfl, rfl, fun i => ?_⟩
  simp only [Bitmap.test_setRun, bitmapPages_eq hpages, Bitmap.test_cleared, Bool.and_eq_true,
    decide_eq_true_eq, sizeofBitmapSize, Nat.zero_le, Nat.zero_add, true_and]

/-- The bitmap reserves its own pages and no other one exactly when the memory
under it was clear where `init_PMM` does not clear it. -/
theorem pmm_initialised_iff (hlen : ∀ e ∈ entries, e.length < 2 ^ 64)
    (husable : ∃ e ∈ entries, e.type = MemmapType.usable) (hhdm : Nat) (memory : Mem) :
    ∃ e g, FirstLargest entries e ∧ initPmm entries hhdm memory = some g ∧
      (g.Initialised entries ↔ LeftClear hhdm memory e) := by
  obtain ⟨e, he⟩ := exists_firstLargest husable
  obtain ⟨hmem, hu, hmax⟩ := he.mem
  obtain ⟨g, hg, hbase, hsize, htotal, hbits⟩ :=
    initPmm_test (hlen e hmem) he.fold hhdm memory
  refine ⟨e, g, he, hg, ?_, ?_⟩
  · intro hi i h64 hlt hset
    rw [← htotal] at hlt ⊢
    exact (hi.bits i hlt).mp ((hbits i).mpr (.inr ⟨h64, hset⟩))
  · intro hclear
    refine ⟨⟨e, hmem, hu, hbase, hsize, hmax⟩, by rw [htotal, hsize], fun i hlt => ?_⟩
    rw [htotal] at hlt ⊢
    rw [hbits i]
    constructor
    · rintro (h | ⟨h64, hset⟩)
      · exact h
      · exact hclear i h64 hlt hset
    · exact .inl

def onePmmRegion : List MemmapEntry := [{ base := 4096, length := 409600, type := .usable }]

theorem pmm_initialised_iff_zero :
    ∃ g, initPmm onePmmRegion 0 (fun _ => 0) = some g ∧ g.Initialised onePmmRegion := by
  have hlen : ∀ e ∈ onePmmRegion, e.length < 2 ^ 64 := by simp [onePmmRegion]
  obtain ⟨e, g, -, hg, hiff⟩ :=
    pmm_initialised_iff hlen (by simp [onePmmRegion]) 0 fun _ => 0
  refine ⟨g, hg, hiff.mpr fun i _ _ hset => ?_⟩
  simp [Bitmap.test, Mem.behind] at hset

/-- Over memory that is not zero, page 64 of the region is never handed out. -/
theorem page_64_lost :
    ∃ g, initPmm onePmmRegion 0 (fun _ => 0xFF) = some g ∧ g.pmm.totalPages = 100 ∧
      Bitmap.test g.pmm.bitmap 64 = true ∧ bitmapPages g.pmm.totalPages = 1 :=
  ⟨_, rfl, by decide, by decide, by decide⟩

-- ---------------------------------------------------------------------------
-- The allocator can start
-- ---------------------------------------------------------------------------

theorem initPmm_sound (he : FirstLargest entries e) (hfits : e.base + e.length ≤ 2 ^ 64)
    (hpage : blockSize ≤ e.length) (hlt : e.length < 2 ^ 64) (hhdm : Nat) (memory : Mem) :
    ∃ g, initPmm entries hhdm memory = some g ∧ g.pmm.Sound := by
  obtain ⟨g, hg, hbase, -, htotal, hbits⟩ :=
    initPmm_test hlt he.fold hhdm memory
  refine ⟨g, hg, ?_, fun _ => ?_⟩
  · rw [hbase, htotal]
    have := Nat.div_mul_le_self e.length blockSize
    omega
  · have hpos : 0 < e.length / blockSize := Nat.div_pos hpage (by decide)
    rw [hbits 0]
    refine .inl ?_
    unfold bitmapPages
    omega

end TomatoOs.Memory
