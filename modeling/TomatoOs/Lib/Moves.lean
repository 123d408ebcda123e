import Mathlib.Tactic

/-!
# Sequences of moves

Cells assigned from one another, one assignment after the other. Such a sequence
has the effect of making all its moves at once when no move writes what a later
one still reads or writes: `perform_target` and `perform_of_not_target` say what
is then in the cells, without the order of the moves.
-/

namespace TomatoOs.Lib

variable {ι β : Type*}

structure Move (ι : Type*) where
  target : ι
  source : ι

/-- The later move finds its own two cells as they were before the first one, and
its result is not the first one's to write. -/
def Move.Allows (first later : Move ι) : Prop :=
  first.target ≠ later.target ∧ first.target ≠ later.source

variable [DecidableEq ι]

def Move.apply (move : Move ι) (m : ι → β) : ι → β :=
  Function.update m move.target (m move.source)

def Move.perform : List (Move ι) → (ι → β) → ι → β
  | [], m => m
  | move :: moves, m => Move.perform moves (move.apply m)

theorem Move.perform_of_not_target {moves : List (Move ι)} {m : ι → β}
    (h : ∀ move ∈ moves, move.target ≠ x) : Move.perform moves m x = m x := by
  induction moves generalizing m with
  | nil => rfl
  | cons move moves ih =>
    rw [Move.perform, ih fun later hlater => h later (List.mem_cons_of_mem move hlater)]
    exact Function.update_of_ne (h move List.mem_cons_self).symm _ _

/-- Every move gives its target what its source held at the start. -/
theorem Move.perform_target {moves : List (Move ι)} {m : ι → β}
    (h : moves.Pairwise Move.Allows) (hmove : move ∈ moves) :
    Move.perform moves m move.target = m move.source := by
  induction moves generalizing m with
  | nil => exact absurd hmove List.not_mem_nil
  | cons first moves ih =>
    obtain ⟨hfirst, hmoves⟩ := List.pairwise_cons.mp h
    rw [Move.perform]
    rcases List.mem_cons.mp hmove with rfl | hlater
    · -- No later move writes this target again.
      rw [Move.perform_of_not_target fun later hlater => (hfirst later hlater).1.symm]
      exact Function.update_self _ _ _
    · rw [ih hmoves hlater]
      exact Function.update_of_ne (hfirst move hlater).2.symm _ _

end TomatoOs.Lib
