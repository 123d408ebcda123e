import Mathlib.Tactic

/-!
# Runs of a partial step function

A component is a step function on its state; a step that the environment may
not take, or that does not return, is `none`. A run is a list of operations.
`run_invariant` carries an invariant along a run; `always_iff` turns "the
property holds in every state of the run" into a condition on its steps.
-/

namespace TomatoOs.Lib

variable {σ ο : Type} {step : σ → ο → Option σ} {P : σ → Prop} {C : σ → ο → Prop}

/-- The state after a list of operations, if each of them returns. -/
def run (step : σ → ο → Option σ) : σ → List ο → Option σ
  | s, [] => some s
  | s, op :: ops => (step s op).bind fun s' => run step s' ops

/-- `P` holds in every state the run passes through, its last included. -/
def Always (step : σ → ο → Option σ) (P : σ → Prop) : σ → List ο → Prop
  | s, [] => P s
  | s, op :: ops => P s ∧ ∀ s', step s op = some s' → Always step P s' ops

/-- `C` holds of every operation of the run and the state it is issued in. -/
def AllSteps (step : σ → ο → Option σ) (C : σ → ο → Prop) : σ → List ο → Prop
  | _, [] => True
  | s, op :: ops => C s op ∧ ∀ s', step s op = some s' → AllSteps step C s' ops

instance AllSteps.instDecidable (step : σ → ο → Option σ) (C : σ → ο → Prop)
    [∀ s op, Decidable (C s op)] : (s : σ) → (ops : List ο) → Decidable (AllSteps step C s ops)
  | _, [] => .isTrue trivial
  | s, op :: ops =>
    match h : step s op with
    | none => decidable_of_iff (C s op) (by simp [AllSteps, h])
    | some s' =>
      have := AllSteps.instDecidable step C s' ops
      decidable_of_iff (C s op ∧ AllSteps step C s' ops) (by simp [AllSteps, h])

theorem step_getD {s' : σ} (h : step s op = some s') : s' = (step s op).getD s := by
  rw [h]
  rfl

theorem run_cons : run step s (op :: ops) = some t ↔
    ∃ s', step s op = some s' ∧ run step s' ops = some t := by
  cases h : step s op <;> simp [run, h]

theorem run_append : run step s (ops ++ more) = some t ↔
    ∃ s', run step s ops = some s' ∧ run step s' more = some t := by
  induction ops generalizing s with
  | nil => simp [run]
  | cons op ops ih =>
    simp only [List.cons_append, run_cons, ih]
    constructor
    · rintro ⟨s', hs, u, hu, ht⟩
      exact ⟨u, ⟨s', hs, hu⟩, ht⟩
    · rintro ⟨u, ⟨s', hs, hu⟩, ht⟩
      exact ⟨s', hs, u, hu, ht⟩

/-- An invariant that steps keep where `C` holds. -/
theorem run_keeps (Inv : σ → Prop)
    (hstep : ∀ s op s', Inv s → C s op → step s op = some s' → Inv s')
    (h0 : Inv s) (hc : AllSteps step C s ops) (hr : run step s ops = some t) : Inv t := by
  induction ops generalizing s with
  | nil =>
    simp only [run, Option.some.injEq] at hr
    exact hr ▸ h0
  | cons op ops ih =>
    obtain ⟨s', hs, hr⟩ := run_cons.mp hr
    exact ih (hstep s op s' h0 hc.1 hs) (hc.2 s' hs) hr

theorem allSteps_of_forall (h : ∀ s op, C s op) : AllSteps step C s ops := by
  induction ops generalizing s with
  | nil => trivial
  | cons op ops ih => exact ⟨h s op, fun _ _ => ih⟩

theorem allSteps_of_mem (h : ∀ s, ∀ op ∈ ops, C s op) : AllSteps step C s ops := by
  induction ops generalizing s with
  | nil => trivial
  | cons op ops ih =>
    refine ⟨h s op List.mem_cons_self, fun s' _ => ih fun s op hop => ?_⟩
    exact h s op (List.mem_cons_of_mem _ hop)

theorem run_invariant (Inv : σ → Prop)
    (hstep : ∀ s op s', Inv s → step s op = some s' → Inv s')
    (h0 : Inv s) (hr : run step s ops = some t) : Inv t :=
  run_keeps Inv (fun s op s' hi (_ : True) => hstep s op s' hi) h0
    (allSteps_of_forall fun _ _ => trivial) hr

theorem exists_first_failure (h : ¬AllSteps step C s ops) :
    ∃ before op after t, ops = before ++ op :: after ∧ run step s before = some t ∧
      AllSteps step C s before ∧ ¬C t op := by
  induction ops generalizing s with
  | nil => exact absurd trivial h
  | cons op ops ih =>
    by_cases hc : C s op
    · obtain ⟨s', hs, hrest⟩ : ∃ s', step s op = some s' ∧ ¬AllSteps step C s' ops := by
        by_contra hnone
        push Not at hnone
        exact h ⟨hc, hnone⟩
      obtain ⟨before, op', after, t, rfl, hr, hall, hfail⟩ := ih hrest
      refine ⟨op :: before, op', after, t, rfl, run_cons.mpr ⟨s', hs, hr⟩, ⟨hc, ?_⟩, hfail⟩
      intro u hu
      rwa [Option.some.inj (hu.symm.trans hs)]
    · exact ⟨[], op, ops, s, rfl, rfl, trivial, hc⟩

theorem Always.reaches (h : Always step P s (ops ++ more)) (hr : run step s ops = some t) :
    P t := by
  induction ops generalizing s with
  | nil =>
    cases hr
    cases more with
    | nil => exact h
    | cons => exact h.1
  | cons op ops ih =>
    obtain ⟨s', hs, hr⟩ := run_cons.mp hr
    exact ih (h.2 s' hs) hr

/-- Where every allowed step is defined and keeps the invariant, a run of
allowed steps arrives. -/
theorem run_defined (Inv : σ → Prop)
    (hstep : ∀ s op, Inv s → C s op → ∃ s', step s op = some s' ∧ Inv s')
    (h0 : Inv s) (hc : AllSteps step C s ops) : ∃ t, run step s ops = some t ∧ Inv t := by
  induction ops generalizing s with
  | nil => exact ⟨s, rfl, h0⟩
  | cons op ops ih =>
    obtain ⟨s', hs, hinv⟩ := hstep s op h0 hc.1
    obtain ⟨t, hr, ht⟩ := ih hinv (hc.2 s' hs)
    exact ⟨t, run_cons.mpr ⟨s', hs, hr⟩, ht⟩

/-- Where one step within `D` keeps `P` exactly when `C` holds of it, `P` holds
all along a run within `D` exactly when `C` holds of all its steps. -/
theorem always_iff_within (Inv : σ → Prop) (D : σ → ο → Prop)
    (hinv : ∀ s op s', Inv s → D s op → step s op = some s' → Inv s')
    (hstep : ∀ s op s', Inv s → D s op → P s → step s op = some s' → (P s' ↔ C s op))
    (h0 : Inv s) (hp : P s) (hd : AllSteps step D s ops) (hr : run step s ops = some t) :
    Always step P s ops ↔ AllSteps step C s ops := by
  induction ops generalizing s with
  | nil => simp [Always, AllSteps, hp]
  | cons op ops ih =>
    obtain ⟨s', hs, hr⟩ := run_cons.mp hr
    have hpc := hstep s op s' h0 hd.1 hp hs
    have hd' := hd.2 s' hs
    have next : ∀ u, step s op = some u → u = s' := fun u hu => Option.some.inj (hu.symm.trans hs)
    simp only [Always, AllSteps, hp, true_and]
    constructor
    · intro ha
      have hs' := ha s' hs
      have hp' : P s' := by
        cases ops with
        | nil => exact hs'
        | cons => exact hs'.1
      refine ⟨hpc.mp hp', fun u hu => ?_⟩
      rw [next u hu]
      exact (ih (hinv s op s' h0 hd.1 hs) hp' hd' hr).mp hs'
    · rintro ⟨hc, ha⟩ u hu
      rw [next u hu]
      exact (ih (hinv s op s' h0 hd.1 hs) (hpc.mpr hc) hd' hr).mpr (ha s' hs)

theorem always_iff (Inv : σ → Prop)
    (hinv : ∀ s op s', Inv s → step s op = some s' → Inv s')
    (hstep : ∀ s op s', Inv s → P s → step s op = some s' → (P s' ↔ C s op))
    (h0 : Inv s) (hp : P s) (hr : run step s ops = some t) :
    Always step P s ops ↔ AllSteps step C s ops :=
  always_iff_within Inv (fun _ _ => True) (fun s op s' hi _ => hinv s op s' hi)
    (fun s op s' hi _ => hstep s op s' hi) h0 hp
    (allSteps_of_forall fun _ _ => trivial) hr

theorem allSteps_iff {D : σ → ο → Prop} (Inv : σ → Prop)
    (hinv : ∀ s op s', Inv s → D s op → step s op = some s' → Inv s')
    (hiff : ∀ s op, Inv s → (C s op ↔ D s op)) (h0 : Inv s) :
    AllSteps step C s ops ↔ AllSteps step D s ops := by
  induction ops generalizing s with
  | nil => exact .rfl
  | cons op ops ih =>
    simp only [AllSteps, hiff s op h0]
    refine and_congr_right fun hd => forall_congr' fun s' => forall_congr' fun hs => ?_
    exact ih (hinv s op s' h0 hd hs)

-- ---------------------------------------------------------------------------
-- Two systems side by side
-- ---------------------------------------------------------------------------

section

variable {τ : Type} {step' : τ → ο → Option τ} {Q : τ → Prop}

theorem run_related (R : σ → τ → Prop)
    (hstep : ∀ s s' op, R s s' → Option.Rel R (step s op) (step' s' op))
    (h0 : R s s') (hr : run step s ops = some t) : ∃ t', run step' s' ops = some t' ∧ R t t' := by
  induction ops generalizing s s' with
  | nil =>
    cases hr
    exact ⟨s', rfl, h0⟩
  | cons op ops ih =>
    obtain ⟨u, hu, hr⟩ := run_cons.mp hr
    have hrel := hstep s s' op h0
    rw [hu] at hrel
    generalize hu' : step' s' op = o at hrel
    cases hrel with
    | some h =>
      obtain ⟨t', ht', hR⟩ := ih h hr
      exact ⟨t', run_cons.mpr ⟨_, hu', ht'⟩, hR⟩

/-- What a relation implies for the second system holds all along its run, if
the steps of the first are such that they keep the relation. -/
theorem always_of_related (R : σ → τ → Prop)
    (hstep : ∀ s s' op, R s s' → C s op → Option.Rel R (step s op) (step' s' op))
    (hq : ∀ s s', R s s' → Q s') (h0 : R s s') (hc : AllSteps step C s ops) :
    Always step' Q s' ops := by
  induction ops generalizing s s' with
  | nil => exact hq s s' h0
  | cons op ops ih =>
    refine ⟨hq s s' h0, fun t' ht' => ?_⟩
    have hrel := hstep s s' op h0 hc.1
    rw [ht'] at hrel
    generalize ht : step s op = o at hrel
    cases hrel with
    | some h => exact ih h (hc.2 _ ht)

end

-- ---------------------------------------------------------------------------
-- Loops that collect
-- ---------------------------------------------------------------------------

section

variable {α : Type} {out : ο → List α}

/-- A loop whose iterations add to what was collected. An iteration may rely on its own
items being new, as those of the iterations before it belong to others. -/
theorem run_collects (R : List α → σ → Prop) (owns : ο → α → Prop) {items : List ο}
    (hstep : ∀ got s, ∀ i ∈ items, R got s → (∀ a ∈ got, ¬owns i a) →
      ∃ s', step s i = some s' ∧ R (got ++ out i) s')
    (hown : items.Pairwise fun i j => ∀ a ∈ out i, ¬owns j a) {got : List α}
    (hnew : ∀ i ∈ items, ∀ a ∈ got, ¬owns i a) (h : R got s) :
    ∃ t, run step s items = some t ∧ R (got ++ items.flatMap out) t := by
  induction items generalizing s got with
  | nil => exact ⟨s, rfl, by rwa [List.flatMap_nil, List.append_nil]⟩
  | cons i items ih =>
    rw [List.pairwise_cons] at hown
    rw [List.forall_mem_cons] at hnew
    obtain ⟨s', hs, hR⟩ := hstep got s i List.mem_cons_self h hnew.1
    have hnew' : ∀ j ∈ items, ∀ a ∈ got ++ out i, ¬owns j a := by
      intro j hj a ha
      rcases List.mem_append.mp ha with ha | ha
      · exact hnew.2 j hj a ha
      · exact hown.1 j hj a ha
    obtain ⟨t, ht, hRt⟩ := ih (fun got s j hj => hstep got s j (List.mem_cons_of_mem i hj)) hown.2
      hnew' hR
    exact ⟨t, run_cons.mpr ⟨s', hs, ht⟩, by rwa [List.flatMap_cons, ← List.append_assoc]⟩

end

end TomatoOs.Lib
