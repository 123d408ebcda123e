import Mathlib.Tactic

/-!
# Tables of slots

A table of `n` slots without a free list: the first slot that satisfies a test
is found by going through them.
-/

namespace TomatoOs.Lib

def firstSlot (q : Nat → Bool) (n : Nat) : Option Nat := (List.range n).find? q

variable {q : Nat → Bool}

theorem firstSlot_some :
    firstSlot q n = some i ↔ i < n ∧ q i = true ∧ ∀ j < i, q j = false := by
  rw [firstSlot, List.find?_range_eq_some, List.mem_range]
  constructor
  · rintro ⟨hq, hlt, hbefore⟩
    exact ⟨hlt, hq, fun j hj => by simpa using hbefore j hj⟩
  · rintro ⟨hlt, hq, hbefore⟩
    exact ⟨hq, hlt, fun j hj => by simpa using hbefore j hj⟩

theorem firstSlot_none : firstSlot q n = none ↔ ∀ i < n, q i = false := by
  simp [firstSlot]

theorem exists_firstSlot (l : List Nat) (hl : ∀ i < n, q i = false → i ∈ l) (hlen : l.length < n) :
    ∃ i, firstSlot q n = some i := by
  rw [← Option.ne_none_iff_exists']
  intro hnone
  have hsub : List.range n ⊆ l := by
    intro i hi
    have hi := List.mem_range.mp hi
    exact hl i hi (firstSlot_none.mp hnone i hi)
  have hle := List.nodup_range.length_le_of_subset hsub
  rw [List.length_range] at hle
  omega

end TomatoOs.Lib
