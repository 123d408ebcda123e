import Mathlib.Tactic

/-!
# Programs over a state

A program changes a state and returns a value, or stops where it is: in a loop
that never ends, or at a fault. A triple says from a given state what holds
when it returns, and what holds where it stops. Its rules follow the program.
-/

namespace TomatoOs.Lib

/-- `none`: the program does not return. -/
def Prog (σ α : Type) := σ → Option α × σ

instance : Monad (Prog σ) where
  pure a := fun s => (some a, s)
  bind c k := fun s =>
    match c s with
    | (some a, t) => k a t
    | (none, t) => (none, t)

def Prog.stop : Prog σ α := fun s => (none, s)

def Prog.when (b : Bool) (c : Prog σ Unit) : Prog σ Unit := if b then c else pure ()

/-- From `s` the program returns with `Q`, or stops with `R`. -/
def Triple (c : Prog σ α) (s : σ) (Q : α → σ → Prop) (R : σ → Prop) : Prop :=
  match c s with
  | (some a, t) => Q a t
  | (none, t) => R t

section
variable {σ α β : Type} {c : Prog σ α} {k : α → Prog σ β} {s : σ} {Q Q' : α → σ → Prop}
  {Q₂ : β → σ → Prop} {R R' : σ → Prop}

theorem Prog.bind_eq (hc : c s = (some a, t)) : (c >>= k) s = k a t := by
  simp only [Bind.bind, hc]

theorem Prog.bind_stop (hc : c s = (none, t)) : (c >>= k) s = (none, t) := by
  simp only [Bind.bind, hc]

theorem Prog.bind_some (h : (c >>= k) s = (some b, u)) :
    ∃ a t, c s = (some a, t) ∧ k a t = (some b, u) := by
  simp only [Bind.bind] at h
  rcases hc : c s with ⟨_ | a, t⟩ <;> rw [hc] at h
  · cases h
  · exact ⟨a, t, rfl, h⟩

theorem Prog.exists_state (h : (c s).1 = some a) : ∃ t, c s = (some a, t) :=
  ⟨(c s).2, Prod.ext h rfl⟩

theorem Triple.of_run (hc : c s = (some a, t)) (hq : Q a t) : Triple c s Q R := by
  rw [Triple, hc]
  exact hq

theorem Triple.of_stop (hc : c s = (none, t)) (hr : R t) : Triple c s Q R := by
  rw [Triple, hc]
  exact hr

theorem Triple.pure (h : Q a s) : Triple (Pure.pure a) s Q R := h

theorem Triple.bind (h : Triple c s Q R) (hk : ∀ a t, Q a t → Triple (k a) t Q₂ R) :
    Triple (c >>= k) s Q₂ R := by
  simp only [Triple, Bind.bind] at *
  rcases hc : c s with ⟨_ | a, t⟩
  · simpa [hc] using h
  · rw [hc] at h
    exact hk a t h

theorem Triple.step (hc : c s = (some a, t)) (hk : Triple (k a) t Q₂ R) :
    Triple (c >>= k) s Q₂ R :=
  Triple.bind (Q := fun b u => b = a ∧ u = t) (.of_run hc ⟨rfl, rfl⟩) (by
    rintro b u ⟨rfl, rfl⟩
    exact hk)

theorem Triple.mono (h : Triple c s Q R) (hq : ∀ a t, Q a t → Q' a t) (hr : ∀ t, R t → R' t) :
    Triple c s Q' R' := by
  unfold Triple at *
  rcases hc : c s with ⟨_ | a, t⟩ <;> simp only [hc] at h ⊢
  · exact hr t h
  · exact hq a t h

theorem Triple.total (h : Triple c s Q fun _ => False) : Triple c s Q R :=
  h.mono (fun _ _ hq => hq) fun _ hf => hf.elim

theorem Triple.and (h : Triple c s Q R) (h' : Triple c s Q' R') :
    Triple c s (fun a t => Q a t ∧ Q' a t) fun t => R t ∧ R' t := by
  unfold Triple at *
  rcases hc : c s with ⟨_ | a, t⟩ <;> simp only [hc] at h h' ⊢
  · exact ⟨h, h'⟩
  · exact ⟨h, h'⟩

/-- All that can be said of a program without looking into it. -/
theorem Triple.self (c : Prog σ α) (s : σ) :
    Triple c s (fun a t => c s = (some a, t)) fun _ => True := by
  unfold Triple
  rcases hc : c s with ⟨_ | a, t⟩
  · trivial
  · rfl

theorem Triple.run (h : Triple c s Q R) (hc : c s = (some a, t)) : Q a t := by
  rw [Triple, hc] at h
  exact h

theorem Triple.stopped (h : Triple c s Q R) (hc : c s = (none, t)) : R t := by
  rw [Triple, hc] at h
  exact h

theorem Triple.final (h : Triple c s (fun _ t => R t) R) : R (c s).2 := by
  unfold Triple at h
  rcases hc : c s with ⟨_ | a, t⟩ <;> rw [hc] at h <;> exact h

theorem Triple.returns (h : Triple c s Q fun _ => False) : ∃ a t, c s = (some a, t) ∧ Q a t := by
  unfold Triple at h
  rcases hc : c s with ⟨_ | a, t⟩ <;> rw [hc] at h
  · exact h.elim
  · exact ⟨a, t, rfl, h⟩

end

end TomatoOs.Lib
