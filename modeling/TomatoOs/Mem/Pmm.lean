import TomatoOs.Lib.Bitmap
import TomatoOs.Lib.Words

/-!
# The physical page allocator

`pmm.c`: a bitmap over the pages of one region of physical memory, a set bit
for a page in use. `pmm_alloc_page` looks for the first run of clear bits that
is long enough. A run that turns out too short is skipped whole, with the bit
that ended it.
-/

namespace TomatoOs.Memory

open Lib

def blockSize : Nat := 4096

structure Pmm where
  base : Nat
  totalPages : Nat
  bitmap : Mem

/-- `(size + BLOCK_SIZE - 1) / BLOCK_SIZE` in 64 bits. -/
def pageNeeded (size : Nat) : Nat := wsub 64 (wadd 64 size blockSize) 1 / blockSize

/-- The inner loop: the first bit from `j` on that is set or past the last
page, among the next `k`, or else the bit behind these. -/
def scan (m : Mem) (total : Nat) : Nat → Nat → Nat
  | 0, j => j
  | k + 1, j => if j < total ∧ Bitmap.test m j = false then scan m total k (j + 1) else j

/-- The outer loop. Its counter grows with every round, so that `total` rounds
are enough. -/
def search (m : Mem) (total needed : Nat) : Nat → Nat → Option Nat
  | 0, _ => none
  | fuel + 1, i =>
    if i < total then
      if Bitmap.test m i then search m total needed fuel (i + 1)
      else if scan m total needed i = i + needed then some i
      else search m total needed fuel (scan m total needed i + 1)
    else none

def pmmAllocPage (s : Pmm) (size : Nat) : Pmm × Nat :=
  match search s.bitmap s.totalPages (pageNeeded size) s.totalPages 0 with
  | some i =>
    ({ s with bitmap := Bitmap.setRun s.bitmap i (pageNeeded size) },
      wadd 64 s.base (wmul 64 i blockSize))
  | none => (s, 0)

def pmmFree (s : Pmm) (addr pages : Nat) : Pmm :=
  if addr = 0 then s
  else
    let idx := wsub 64 addr s.base / blockSize
    -- the loop stops at the wrapped sum
    { s with bitmap := Bitmap.clearRun s.bitmap idx (wadd 64 idx pages - idx) }

-- ---------------------------------------------------------------------------
-- The search
-- ---------------------------------------------------------------------------

def ClearRun (m : Mem) (total n i : Nat) : Prop :=
  i + n ≤ total ∧ ∀ j, i ≤ j → j < i + n → Bitmap.test m j = false

theorem scan_le (m : Mem) (total k j : Nat) : j ≤ scan m total k j ∧ scan m total k j ≤ j + k := by
  induction k generalizing j with
  | zero => exact ⟨Nat.le_refl j, Nat.le_refl j⟩
  | succ k ih =>
    rw [scan]
    split
    · have := ih (j + 1)
      omega
    · omega

theorem scan_spec (m : Mem) (total k j : Nat) :
    (∀ l, j ≤ l → l < scan m total k j → l < total ∧ Bitmap.test m l = false) ∧
      (scan m total k j < j + k →
        ¬(scan m total k j < total ∧ Bitmap.test m (scan m total k j) = false)) := by
  induction k generalizing j with
  | zero =>
    refine ⟨fun l hl hlt => ?_, fun hlt => ?_⟩
    · simp only [scan] at hlt
      omega
    · simp only [scan] at hlt
      omega
  | succ k ih =>
    rw [scan]
    split
    · rename_i hc
      obtain ⟨hpass, hstop⟩ := ih (j + 1)
      refine ⟨fun l hl hlt => ?_, fun hlt => hstop (by omega)⟩
      rcases Nat.eq_or_lt_of_le hl with rfl | hl
      · exact hc
      · exact hpass l hl hlt
    · rename_i hc
      exact ⟨fun l hl hlt => absurd hlt (by omega), fun _ => hc⟩

theorem scan_full (hn : 0 < n) : scan m total n i = i + n ↔ ClearRun m total n i := by
  obtain ⟨hpass, hstop⟩ := scan_spec m total n i
  constructor
  · intro h
    rw [h] at hpass
    have hlast := (hpass (i + n - 1) (by omega) (by omega)).1
    exact ⟨by omega, fun j hj hlt => (hpass j hj hlt).2⟩
  · rintro ⟨hle, hclear⟩
    obtain ⟨hlo, hhi⟩ := scan_le m total n i
    by_contra hne
    exact hstop (by omega) ⟨by omega, hclear _ hlo (by omega)⟩

theorem not_clearRun (hn : 0 < n) (hset : Bitmap.test m i = true) : ¬ClearRun m total n i := by
  rintro ⟨-, hclear⟩
  rw [hclear i (Nat.le_refl i) (by omega)] at hset
  cases hset

/-- No run starts between a run that is too short and the bit that ends it. -/
theorem no_run_before (hn : 0 < n) (hshort : ¬ClearRun m total n i) (hik : i ≤ k)
    (hk : k ≤ scan m total n i) : ¬ClearRun m total n k := by
  rintro ⟨hle, hclear⟩
  obtain ⟨-, hstop⟩ := scan_spec m total n i
  obtain ⟨hlo, hhi⟩ := scan_le m total n i
  have hne := mt (scan_full hn).mp hshort
  refine hstop (by omega) ⟨by omega, hclear _ hk ?_⟩
  have : scan m total n i < i + n := by omega
  omega

theorem search_some (hn : 0 < n) (h : search m total n fuel i = some k) :
    i ≤ k ∧ ClearRun m total n k ∧ ∀ l, i ≤ l → l < k → ¬ClearRun m total n l := by
  induction fuel generalizing i with
  | zero => cases h
  | succ fuel ih =>
    rw [search] at h
    split at h
    · split at h
      · rename_i hset
        obtain ⟨hle, hrun, hleast⟩ := ih h
        refine ⟨by omega, hrun, fun l hl hlt hclear => ?_⟩
        rcases Nat.eq_or_lt_of_le hl with rfl | hl
        · exact not_clearRun hn hset hclear
        · exact hleast l hl hlt hclear
      · split at h
        · rename_i hscan
          cases h
          exact ⟨Nat.le_refl _, (scan_full hn).mp hscan, fun l hl hlt => absurd hlt (by omega)⟩
        · rename_i hscan
          have hshort := mt (scan_full hn).mpr hscan
          obtain ⟨hle, hrun, hleast⟩ := ih h
          have hlo := (scan_le m total n i).1
          refine ⟨by omega, hrun, fun l hl hlt => ?_⟩
          rcases Nat.lt_or_ge (scan m total n i) l with hgt | hge
          · exact hleast l hgt hlt
          · exact no_run_before hn hshort hl hge
    · cases h

/-- With a round for every page left, a search that fails has seen them all. -/
theorem search_none (hn : 0 < n) (h : search m total n fuel i = none) (hfuel : total ≤ i + fuel)
    (k : Nat) (hk : i ≤ k) : ¬ClearRun m total n k := by
  induction fuel generalizing i with
  | zero =>
    rintro ⟨hle, -⟩
    omega
  | succ fuel ih =>
    rw [search] at h
    split at h
    · split at h
      · rename_i hset
        rcases Nat.eq_or_lt_of_le hk with rfl | hk
        · exact not_clearRun hn hset
        · exact ih h (by omega) hk
      · split at h
        · cases h
        · rename_i hscan
          have hshort := mt (scan_full hn).mpr hscan
          have hlo := (scan_le m total n i).1
          rcases Nat.lt_or_ge (scan m total n i) k with hgt | hge
          · exact ih h (by omega) hgt
          · exact no_run_before hn hshort hk hge
    · rintro ⟨hle, -⟩
      omega

-- ---------------------------------------------------------------------------
-- Any number of pages
-- ---------------------------------------------------------------------------

theorem pageNeeded_eq (hlo : 1 ≤ size) (hhi : size ≤ 2 ^ 64 - 4096) :
    pageNeeded size = (size + 4095) / 4096 := by
  simp only [pageNeeded, wadd, wsub, blockSize]
  omega

theorem search_least (hn : 0 < n) (h : IsLeast {i | ClearRun m total n i} k) :
    search m total n total 0 = some k := by
  cases hs : search m total n total 0 with
  | none => exact absurd h.1 (search_none hn hs (by omega) k (Nat.zero_le k))
  | some i =>
    obtain ⟨-, hrun, hleast⟩ := search_some hn hs
    rcases Nat.eq_or_lt_of_le (h.2 hrun) with rfl | hlt
    · rfl
    · exact absurd h.1 (hleast k (Nat.zero_le k) hlt)

theorem search_nowhere (hn : 0 < n) (h : ∀ i, ¬ClearRun m total n i) :
    search m total n total 0 = none := by
  cases hs : search m total n total 0 with
  | none => rfl
  | some i =>
    obtain ⟨-, hrun, -⟩ := search_some hn hs
    exact absurd hrun (h i)

/-- The call takes the least run of free pages that is long enough, and fails
only if there is none: no start is lost among those it skips. -/
theorem pmmAllocPage_first_fit {s : Pmm} (htotal : s.totalPages ≤ 2 ^ 52) (hlo : 1 ≤ size)
    (hhi : size ≤ 2 ^ 64 - 4096) :
    (∀ i, IsLeast {i | ClearRun s.bitmap s.totalPages ((size + 4095) / 4096) i} i →
      ∃ s', pmmAllocPage s size = (s', wadd 64 s.base (4096 * i)) ∧
        s'.base = s.base ∧ s'.totalPages = s.totalPages ∧
        ∀ j, Bitmap.test s'.bitmap j = true ↔
          i ≤ j ∧ j < i + (size + 4095) / 4096 ∨ Bitmap.test s.bitmap j = true) ∧
      ((∀ i, ¬ClearRun s.bitmap s.totalPages ((size + 4095) / 4096) i) →
        pmmAllocPage s size = (s, 0)) := by
  have hn : 0 < (size + 4095) / 4096 := by omega
  rw [pmmAllocPage, pageNeeded_eq hlo hhi]
  refine ⟨fun i hi => ?_, fun hnone => by rw [search_nowhere hn hnone]⟩
  have hlt : i + (size + 4095) / 4096 ≤ s.totalPages := hi.1.1
  have haddr : wmul 64 i blockSize = 4096 * i := by
    rw [blockSize, wmul_eq (by omega), Nat.mul_comm]
  rw [search_least hn hi, ← haddr]
  exact ⟨_, rfl, rfl, rfl, fun j => Bitmap.test_setRun ..⟩

/-- Pages 0, 2 and 5 of eight are in use, and two are asked for: page 1 is too
short a run, and pages 3 and 4 are taken. -/
theorem pmmAllocPage_first_fit_two :
    let s : Pmm := ⟨0x100000, 8, fun _ => 0b00100101⟩
    (pmmAllocPage s 4097).2 = 0x103000 ∧
      ∀ j, Bitmap.test (pmmAllocPage s 4097).1.bitmap j = true ↔
        3 ≤ j ∧ j < 5 ∨ Bitmap.test s.bitmap j = true := by
  intro s
  have hset : ∀ i < 3, Bitmap.test s.bitmap i = true ∨ Bitmap.test s.bitmap (i + 1) = true := by
    decide
  have hleast : IsLeast {i | ClearRun s.bitmap s.totalPages ((4097 + 4095) / 4096) i} 3 := by
    refine ⟨⟨by decide, by decide⟩, fun i hi => Nat.le_of_not_lt fun hlt => ?_⟩
    rcases hset i hlt with h | h
    · rw [hi.2 i (Nat.le_refl i) (by omega)] at h
      cases h
    · rw [hi.2 (i + 1) (by omega) (by omega)] at h
      cases h
  obtain ⟨s', hs', -, -, hbits⟩ :=
    (pmmAllocPage_first_fit (s := s) (by decide) (by decide) (by decide)).1 3 hleast
  have haddr : wadd 64 s.base (4096 * 3) = 0x103000 := by decide
  rw [hs', haddr]
  exact ⟨rfl, hbits⟩

-- ---------------------------------------------------------------------------
-- One page
-- ---------------------------------------------------------------------------

/-- The region lies in the address space, and a page at address zero is in use,
as the first pages of a region are: they hold the bitmap. -/
structure Pmm.Sound (s : Pmm) : Prop where
  fits : s.base + s.totalPages * blockSize ≤ 2 ^ 64
  zero : s.base = 0 → Bitmap.test s.bitmap 0 = true

def Pmm.Free (s : Pmm) (i : Nat) : Prop := i < s.totalPages ∧ Bitmap.test s.bitmap i = false

def Pmm.page (s : Pmm) (i : Nat) : Nat := s.base + i * blockSize

def Pmm.take (s : Pmm) (i : Nat) : Pmm := { s with bitmap := Bitmap.set s.bitmap i }

section
variable {s : Pmm}

theorem Pmm.Sound.address (h : s.Sound) (hi : s.Free i) :
    wadd 64 s.base (wmul 64 i blockSize) = s.page i ∧ s.page i ≠ 0 := by
  have hfits := h.fits
  have hlt := hi.1
  have hzero : s.base = 0 → i ≠ 0 := by
    rintro hb rfl
    have hclear := hi.2
    rw [h.zero hb] at hclear
    cases hclear
  simp only [Pmm.page, blockSize] at *
  rw [wmul_eq (by omega), wadd_eq (by omega)]
  exact ⟨rfl, by omega⟩

theorem Pmm.Sound.page_end (h : s.Sound) (hi : s.Free i) : s.page i + 4096 ≤ 2 ^ 64 := by
  have hfits := h.fits
  have hlt := hi.1
  simp only [Pmm.page, blockSize] at hfits ⊢
  omega

theorem pmmAllocPage_page (h : s.Sound) :
    (∃ i, s.Free i ∧ pmmAllocPage s 4096 = (s.take i, s.page i)) ∨
      (∀ i, ¬s.Free i) ∧ pmmAllocPage s 4096 = (s, 0) := by
  have hone : pageNeeded 4096 = 1 := by decide
  unfold pmmAllocPage
  rw [hone]
  cases hs : search s.bitmap s.totalPages 1 s.totalPages 0 with
  | some i =>
    obtain ⟨-, ⟨hle, hclear⟩, -⟩ := search_some (Nat.succ_pos 0) hs
    have hfree : s.Free i := ⟨by omega, hclear i (Nat.le_refl i) (by omega)⟩
    refine .inl ⟨i, hfree, ?_⟩
    simp only [(h.address hfree).1]
    rfl
  | none =>
    refine .inr ⟨fun i hi => ?_, rfl⟩
    refine search_none (Nat.succ_pos 0) hs (by omega) i (Nat.zero_le i) ⟨hi.1, fun j hj hlt => ?_⟩
    obtain rfl : j = i := by omega
    exact hi.2

theorem pmmFree_take (h : s.Sound) (hi : s.Free i) :
    pmmFree (s.take i) (s.page i) 1 = s := by
  obtain ⟨-, hne⟩ := h.address hi
  have hidx : wsub 64 (s.page i) s.base / blockSize = i := by
    have hfits := h.fits
    have hlt := hi.1
    simp only [Pmm.page, blockSize] at *
    rw [wsub_eq (by omega) (by omega)]
    omega
  have hcount : wadd 64 i 1 - i = 1 := by
    have hfits := h.fits
    have hlt := hi.1
    simp only [blockSize] at *
    rw [wadd_eq (by omega)]
    omega
  unfold pmmFree
  simp only [Pmm.take, if_neg hne, hidx, hcount, Bitmap.clearRun, Bitmap.clear_set hi.2]

theorem Pmm.page_injective (h : s.page i = s.page j) : i = j := by
  simp only [Pmm.page, blockSize] at h
  omega

theorem Pmm.free_take_iff : (s.take i).Free j ↔ s.Free j ∧ i ≠ j := by
  simp only [Pmm.Free, Pmm.take, Bitmap.test_set, Bool.or_eq_false_iff, decide_eq_false_iff_not]
  exact ⟨fun ⟨hlt, hne, ht⟩ => ⟨⟨hlt, ht⟩, hne⟩, fun ⟨⟨hlt, ht⟩, hne⟩ => ⟨hlt, hne, ht⟩⟩

theorem Pmm.Sound.take (h : s.Sound) (i : Nat) : (s.take i).Sound :=
  ⟨h.fits, fun hb => by
    simp only [Pmm.take, Bitmap.test_set, h.zero hb, Bool.or_true]⟩

end

-- ---------------------------------------------------------------------------
-- Pages for tables
-- ---------------------------------------------------------------------------

def Pmm.draw (s : Pmm) : Pmm := (pmmAllocPage s 1).1

def Pmm.drawn (s : Pmm) (k : Nat) : Nat := (pmmAllocPage (Pmm.draw^[k] s) 1).2

section
variable {s : Pmm}

theorem Pmm.draw_cases (h : s.Sound) :
    (∃ i, s.Free i ∧ s.draw = s.take i ∧ s.drawn 0 = s.page i) ∨ s.draw = s ∧ s.drawn 0 = 0 := by
  have hone : pmmAllocPage s 1 = pmmAllocPage s 4096 := by
    rw [pmmAllocPage, pmmAllocPage, show pageNeeded 1 = pageNeeded 4096 by decide]
  unfold Pmm.drawn Pmm.draw
  rw [Function.iterate_zero, id, hone]
  rcases pmmAllocPage_page h with ⟨i, hi, ha⟩ | ⟨-, ha⟩
  · exact .inl ⟨i, hi, by rw [ha], by rw [ha]⟩
  · exact .inr ⟨by rw [ha], by rw [ha]⟩

theorem Pmm.Sound.draw (h : s.Sound) :
    s.draw.Sound ∧ s.draw.base = s.base ∧ ∀ j, s.draw.Free j → s.Free j ∧ s.drawn 0 ≠ s.page j := by
  rcases Pmm.draw_cases h with ⟨i, hi, hd, hr⟩ | ⟨hd, hr⟩
  · rw [hd, hr]
    refine ⟨h.take i, rfl, fun j hj => ?_⟩
    obtain ⟨hfree, hne⟩ := Pmm.free_take_iff.mp hj
    exact ⟨hfree, fun he => hne (Pmm.page_injective he)⟩
  · rw [hd, hr]
    exact ⟨h, rfl, fun j hj => ⟨hj, (h.address hj).2.symm⟩⟩

theorem Pmm.Sound.draws (h : s.Sound) (n : Nat) :
    (Pmm.draw^[n] s).Sound ∧ (Pmm.draw^[n] s).base = s.base ∧
      ∀ j, (Pmm.draw^[n] s).Free j → s.Free j ∧ ∀ k < n, s.drawn k ≠ s.page j := by
  induction n with
  | zero => exact ⟨h, rfl, fun j hj => ⟨hj, fun k hk => absurd hk (Nat.not_lt_zero k)⟩⟩
  | succ n ih =>
    obtain ⟨hsound, hbase, hfree⟩ := ih
    rw [Function.iterate_succ_apply']
    obtain ⟨hsound', hbase', hfree'⟩ := hsound.draw
    refine ⟨hsound', hbase'.trans hbase, fun j hj => ?_⟩
    obtain ⟨hj, hlast⟩ := hfree' j hj
    obtain ⟨hj, hbefore⟩ := hfree j hj
    refine ⟨hj, fun k hk => ?_⟩
    rcases Nat.eq_or_lt_of_le (Nat.le_of_lt_succ hk) with rfl | hlt
    · rw [Pmm.page, hbase] at hlast
      exact hlast
    · exact hbefore k hlt

end

end TomatoOs.Memory
