import Mathlib.Tactic

/-!
# Records one behind the other

A table of records, each of which says how long it is. `Tiled` lists where the
records start; a record that sets something overrules the ones before it.
-/

namespace TomatoOs.Lib.Records

/-- The records at `os` lie one behind the other from `o` up to `p`. -/
def Tiled (len : Nat → Nat) : Nat → List Nat → Nat → Prop
  | o, [], p => o = p
  | o, q :: os, p => q = o ∧ Tiled len (o + len o) os p

instance Tiled.instDecidable (len : Nat → Nat) :
    (o : Nat) → (os : List Nat) → (p : Nat) → Decidable (Tiled len o os p)
  | o, [], p => inferInstanceAs (Decidable (o = p))
  | o, q :: os, p =>
    have := Tiled.instDecidable len (o + len o) os p
    inferInstanceAs (Decidable (q = o ∧ Tiled len (o + len o) os p))

theorem Tiled.le (h : Tiled len o os p) : o ≤ p := by
  induction os generalizing o with
  | nil => exact Nat.le_of_eq h
  | cons q os ih => exact (Nat.le_add_right ..).trans (ih h.2)

def last? (p : α → Bool) (l : List α) : Option α := l.reverse.find? p

/-- The part of the state that only elements with `p` set is as the last of them
set it. -/
theorem foldl_last {step : σ → α → σ} {p : α → Bool} {val : α → β} (get : σ → β)
    (hset : ∀ s x, p x = true → get (step s x) = val x)
    (hkeep : ∀ s x, p x = false → get (step s x) = get s) (l : List α) (s : σ) :
    get (l.foldl step s) = ((last? p l).map val).getD (get s) := by
  induction l using List.reverseRecOn with
  | nil => rfl
  | append_singleton l x ih =>
    rw [last?] at ih ⊢
    cases hx : p x with
    | true => simp [hx, hset]
    | false => simpa [hx, hkeep] using ih

end TomatoOs.Lib.Records
