import TomatoOs.Mem.Pmm
import TomatoOs.Lib.Runs

/-!
# Who owns a physical page

The allocator with its clients' outstanding allocations, over the region that
`init_PMM` chose. Every bit of the bitmap is accounted for: it belongs to the
bitmap's own pages, or to exactly one outstanding allocation, or it is clear.
-/

namespace TomatoOs.Memory

open Lib

/-- `physical`: a range of the machine's memory. -/
structure Region where
  base : Nat
  size : Nat
  fits : base + size ≤ 2 ^ 64

def Region.totalPages (r : Region) : Nat := r.size / blockSize

def Region.bitmapSize (r : Region) : Nat := wadd 64 r.totalPages 7 / 8

def Region.bitmapPages (r : Region) : Nat := wsub 64 (wadd 64 r.bitmapSize blockSize) 1 / blockSize

def Region.page (r : Region) (i : Nat) : Nat := r.base + i * blockSize

def pages (size : Nat) : Nat := (size + blockSize - 1) / blockSize

structure Grant where
  addr : Nat
  size : Nat
  deriving DecidableEq, Repr

def Grant.length (g : Grant) : Nat := pages g.size * blockSize

structure Ledger where
  pmm : Pmm
  out : List Grant

inductive PageOp
  | alloc (size : Nat)
  | free (g : Grant)

/-- A client asks for at least one byte and at most what the page count's sum
can hold, and gives back what it got, whole. -/
def Ledger.step (s : Ledger) : PageOp → Option Ledger
  | .alloc size =>
    if 1 ≤ size ∧ size ≤ 2 ^ 64 - blockSize then
      let r := pmmAllocPage s.pmm size
      some { pmm := r.1, out := if r.2 = 0 then s.out else { addr := r.2, size } :: s.out }
    else none
  | .free g =>
    if g ∈ s.out then
      some { pmm := pmmFree s.pmm g.addr (pages g.size), out := s.out.erase g }
    else none

def Ledger.start (r : Region) (bitmap : Mem) : Ledger :=
  { pmm := { base := r.base, totalPages := r.totalPages, bitmap }, out := [] }

structure Ledger.Owned (r : Region) (s : Ledger) : Prop where
  inside : ∀ g ∈ s.out, (∃ i, g.addr = r.page i) ∧
    r.page r.bitmapPages ≤ g.addr ∧ g.addr + g.length ≤ r.page r.totalPages
  disjoint : s.out.Pairwise fun g g' => Apart g.addr g.length g'.addr g'.length
  bits : ∀ i < r.totalPages, Bitmap.test s.pmm.bitmap i = true ↔
    i < r.bitmapPages ∨ ∃ g ∈ s.out, g.addr ≤ r.page i ∧ r.page i < g.addr + g.length

structure Ledger.Kept (r : Region) (s : Ledger) : Prop where
  base : s.pmm.base = r.base
  total : s.pmm.totalPages = r.totalPages
  nonempty : ∀ g ∈ s.out, 0 < pages g.size
  owned : s.Owned r

-- ---------------------------------------------------------------------------
-- Arithmetic of the region
-- ---------------------------------------------------------------------------

section
variable {r : Region} {s s' : Ledger} {g : Grant}

theorem pageNeeded_pages (hlo : 1 ≤ size) (hhi : size ≤ 2 ^ 64 - blockSize) :
    pageNeeded size = pages size ∧ 0 < pages size := by
  rw [blockSize] at hhi
  rw [pageNeeded_eq hlo hhi, pages, blockSize]
  exact ⟨rfl, by omega⟩

theorem Region.page_le (r : Region) (h : i ≤ r.totalPages) : r.page i ≤ 2 ^ 64 := by
  have hfits := r.fits
  simp only [Region.totalPages, Region.page, blockSize] at *
  omega

theorem Region.page_wrap (r : Region) (h : i < r.totalPages) :
    wadd 64 r.base (wmul 64 i blockSize) = r.page i := by
  have hle := r.page_le h
  simp only [Region.page, blockSize] at *
  rw [wmul_eq (by omega), wadd_eq (by omega)]

theorem Region.bitmapPages_pos (r : Region) (h : 0 < r.totalPages) : 0 < r.bitmapPages := by
  have hfits := r.fits
  simp only [Region.bitmapPages, Region.bitmapSize, Region.totalPages, blockSize, wsub, wadd] at *
  omega

-- ---------------------------------------------------------------------------
-- Allocating
-- ---------------------------------------------------------------------------

theorem Ledger.Kept.span (hK : s.Kept r) (hg : g ∈ s.out) :
    ∃ i, g.addr = r.page i ∧ r.bitmapPages ≤ i ∧ i + pages g.size ≤ r.totalPages ∧
      ∀ j, g.addr ≤ r.page j ∧ r.page j < g.addr + g.length ↔ i ≤ j ∧ j < i + pages g.size := by
  obtain ⟨⟨i, hi⟩, hlo, hhi⟩ := hK.owned.inside g hg
  have hpos := hK.nonempty g hg
  rw [hi] at hlo hhi
  simp only [Region.page, Grant.length, blockSize] at *
  refine ⟨i, hi, by omega, by omega, fun j => ?_⟩
  rw [hi]
  omega

theorem Ledger.Kept.free_run (hK : s.Kept r) (hn : 0 < n)
    (hrun : ClearRun s.pmm.bitmap s.pmm.totalPages n i) :
    i + n ≤ r.totalPages ∧ r.bitmapPages ≤ i ∧
      ∀ g ∈ s.out, Apart (r.page i) (n * blockSize) g.addr g.length := by
  obtain ⟨hle, hclear⟩ := hrun
  rw [hK.total] at hle
  have hfree : ∀ j, i ≤ j → j < i + n → ¬(j < r.bitmapPages ∨
      ∃ g ∈ s.out, g.addr ≤ r.page j ∧ r.page j < g.addr + g.length) := by
    intro j hj hlt hown
    have := (hK.owned.bits j (by omega)).mpr hown
    rw [hclear j hj hlt] at this
    cases this
  refine ⟨hle, ?_, fun g hg => ?_⟩
  · by_contra hlt
    exact hfree i (Nat.le_refl i) (by omega) (.inl (by omega))
  · obtain ⟨k, hk, -, -, hspan⟩ := hK.span hg
    have hpos := hK.nonempty g hg
    by_contra hap
    -- the later of the two starts lies in both runs
    have hcross : k < i + n ∧ i < k + pages g.size := by
      rw [hk] at hap
      simp only [Apart, Region.page, Grant.length, blockSize] at hap
      omega
    exact hfree (max i k) (by omega) (by omega) (.inr ⟨g, hg, (hspan _).mpr (by omega)⟩)

theorem alloc_kept (hK : s.Kept r) (hlo : 1 ≤ size) (hhi : size ≤ 2 ^ 64 - blockSize)
    (hs : s.step (.alloc size) = some s') : s'.Kept r := by
  obtain ⟨hneed, hn⟩ := pageNeeded_pages hlo hhi
  rw [Ledger.step, if_pos ⟨hlo, hhi⟩, pmmAllocPage, hneed] at hs
  cases hf : search s.pmm.bitmap s.pmm.totalPages (pages size) s.pmm.totalPages 0 with
  | none =>
    rw [hf] at hs
    cases hs
    exact hK
  | some i =>
    obtain ⟨-, hrun, -⟩ := search_some hn hf
    obtain ⟨hle, hbp, hapart⟩ := hK.free_run hn hrun
    have haddr : wadd 64 s.pmm.base (wmul 64 i blockSize) = r.page i := by
      rw [hK.base]
      exact r.page_wrap (by omega)
    have hne : r.page i ≠ 0 := by
      have := r.bitmapPages_pos (by omega)
      simp only [Region.page, blockSize]
      omega
    simp only [hf, haddr, hne, ↓reduceIte, Option.some.injEq] at hs
    subst hs
    have hO := hK.owned
    refine ⟨hK.base, hK.total, ?_, ⟨?_, ?_, fun j hj => ?_⟩⟩
    · exact List.forall_mem_cons.mpr ⟨hn, hK.nonempty⟩
    · refine List.forall_mem_cons.mpr ⟨⟨⟨i, rfl⟩, ?_, ?_⟩, hO.inside⟩
      · exact Nat.add_le_add_left (Nat.mul_le_mul_right _ hbp) _
      · simp only [Region.page, Grant.length, blockSize]
        omega
    · exact List.pairwise_cons.mpr ⟨hapart, hO.disjoint⟩
    · rw [Bitmap.test_setRun, hO.bits j hj]
      have hspan : i ≤ j ∧ j < i + pages size ↔
          r.page i ≤ r.page j ∧ r.page j < r.page i + Grant.length ⟨r.page i, size⟩ := by
        simp only [Region.page, Grant.length, blockSize]
        omega
      simp only [hspan, List.mem_cons, exists_eq_or_imp]
      exact or_left_comm

-- ---------------------------------------------------------------------------
-- Freeing
-- ---------------------------------------------------------------------------

theorem free_kept (hK : s.Kept r) (hg : g ∈ s.out) (hs : s.step (.free g) = some s') :
    s'.Kept r := by
  obtain ⟨i, hi, hbp, hle, hspan⟩ := hK.span hg
  have hn := hK.nonempty g hg
  have hO := hK.owned
  have hne : g.addr ≠ 0 := by
    have := r.bitmapPages_pos (by omega)
    rw [hi]
    simp only [Region.page, blockSize]
    omega
  have hidx : wsub 64 g.addr s.pmm.base / blockSize = i := by
    have := r.page_le (i := i + 1) (by omega)
    rw [hi, hK.base]
    simp only [Region.page, blockSize] at *
    rw [wsub_eq (by omega) (by omega)]
    omega
  have hcount : wadd 64 i (pages g.size) - i = pages g.size := by
    have := r.page_le hle
    simp only [Region.page, blockSize] at this
    rw [wadd_eq (by omega)]
    omega
  simp only [Ledger.step, if_pos hg, pmmFree, if_neg hne, hidx, hcount] at hs
  cases hs
  -- the others are disjoint from `g`, whatever their place in the list
  have hrest : ∀ g' ∈ s.out.erase g, Apart g.addr g.length g'.addr g'.length := by
    have hperm := (List.perm_cons_erase hg).pairwise_iff
      (R := fun g g' : Grant => Apart g.addr g.length g'.addr g'.length) (fun h => h.symm)
    exact (List.pairwise_cons.mp (hperm.mp hO.disjoint)).1
  have hsub : ∀ g' ∈ s.out.erase g, g' ∈ s.out := fun g' h => List.mem_of_mem_erase h
  refine ⟨hK.base, hK.total, fun g' h => hK.nonempty g' (hsub g' h),
    ⟨fun g' h => hO.inside g' (hsub g' h), hO.disjoint.erase g, fun j hj => ?_⟩⟩
  rw [Bitmap.test_clearRun, hO.bits j hj, ← hspan]
  constructor
  · rintro ⟨hout, hlt | ⟨g', hg', hhas⟩⟩
    · exact .inl hlt
    · have hne : g' ≠ g := fun h => hout (h ▸ hhas)
      exact .inr ⟨g', (List.mem_erase_of_ne hne).mpr hg', hhas⟩
  · rintro (hlt | ⟨g', hg', hhas⟩)
    · refine ⟨fun hin => ?_, .inl hlt⟩
      have := (hspan j).mp hin
      omega
    · refine ⟨fun hin => ?_, .inr ⟨g', hsub g' hg', hhas⟩⟩
      rcases hrest g' hg' with h | h <;> omega

-- ---------------------------------------------------------------------------
-- Runs
-- ---------------------------------------------------------------------------

theorem ledger_step_kept (hK : s.Kept r) (hs : s.step op = some s') : s'.Kept r := by
  cases op with
  | alloc size =>
    have hok : 1 ≤ size ∧ size ≤ 2 ^ 64 - blockSize := by
      by_contra hno
      rw [Ledger.step, if_neg hno] at hs
      cases hs
    exact alloc_kept hK hok.1 hok.2 hs
  | free g =>
    have hg : g ∈ s.out := by
      by_contra hno
      rw [Ledger.step, if_neg hno] at hs
      cases hs
    exact free_kept hK hg hs

/-- In every state of every run, the bitmap and the outstanding allocations
agree on who owns which page. -/
theorem pages_owned
    (h0 : ∀ i < r.totalPages, Bitmap.test bitmap i = true ↔ i < r.bitmapPages)
    (hr : run Ledger.step (.start r bitmap) ops = some s) : s.Owned r := by
  have hstart : (Ledger.start r bitmap).Kept r :=
    ⟨rfl, rfl, by simp [Ledger.start], ⟨by simp [Ledger.start], .nil, by simpa [Ledger.start] using h0⟩⟩
  exact (run_invariant (Ledger.Kept r) (fun _ _ _ => ledger_step_kept) hstart hr).owned

theorem pages_owned_sixteen :
    let r : Region := { base := 1048576, size := 65536, fits := by decide }
    let bitmap : Mem := fun x => if x = 0 then 1 else 0
    ∃ s, run Ledger.step (.start r bitmap)
        [.alloc 4096, .alloc 5000, .free ⟨1052672, 4096⟩, .alloc 4097] = some s ∧
      s.out = [⟨1064960, 4097⟩, ⟨1056768, 5000⟩] ∧ s.Owned r := by
  intro r bitmap
  have hrun : (run Ledger.step (.start r bitmap)
      [.alloc 4096, .alloc 5000, .free ⟨1052672, 4096⟩, .alloc 4097]).map Ledger.out =
        some [⟨1064960, 4097⟩, ⟨1056768, 5000⟩] := by decide +kernel
  obtain ⟨s, hr, hout⟩ := Option.map_eq_some_iff.mp hrun
  exact ⟨s, hr, hout, pages_owned (by decide +kernel) hr⟩

end

end TomatoOs.Memory
