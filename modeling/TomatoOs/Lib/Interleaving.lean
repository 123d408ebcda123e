import TomatoOs.Lib.Programs
import TomatoOs.Lib.Runs

/-!
# Calls that take turns

A program is cut into atomic steps, and any number of calls are under way at once, each
of them at some step. Such a run is linearized if the calls can be put in a row, each as
a whole, so that every call returns there what it returned, and a call that had returned
before another began comes before it. The rule: say at which step a call takes effect.
All calls can return if there is always one that can go on alone.
-/

namespace TomatoOs.Lib

/-- A program by its steps. `await` is a test-and-set that is repeated while it finds the
flag set, and `stop` is a step that never ends. -/
inductive Code (σ α : Type) where
  | done (a : α)
  | act (effect : σ → σ) (next : σ → Code σ α)
  | await (held : σ → Bool) (take : σ → σ) (next : Code σ α)
  | stop

namespace Code

variable {σ α β : Type}

def bind : Code σ α → (α → Code σ β) → Code σ β
  | done a, k => k a
  | act effect next, k => act effect fun s => (next s).bind k
  | await held take next, k => await held take (next.bind k)
  | stop, _ => stop

instance : Monad (Code σ) where
  pure := done
  bind := bind

def prim (c : Prog σ α) : Code σ α :=
  act (fun s => (c s).2) fun s =>
    match (c s).1 with
    | some a => done a
    | none => stop

def whole : Code σ α → Prog σ α
  | done a => pure a
  | act effect next => fun s => (next s).whole (effect s)
  | await held take next => fun s => if held s then (none, s) else next.whole (take s)
  | stop => Prog.stop

def advance (s : σ) : Code σ α → Code σ α × σ
  | done a => (done a, s)
  | act effect next => (next s, effect s)
  | await held take next => if held s then (await held take next, s) else (next, take s)
  | stop => (stop, s)

theorem bind_done (c : Code σ α) : c.bind done = c := by
  induction c with
  | done a => rfl
  | act effect next ih => exact congrArg (act effect) (funext ih)
  | await held take next ih => exact congrArg (await held take) ih
  | stop => rfl

theorem bind_bind {γ : Type} (c : Code σ α) (k : α → Code σ β) (m : β → Code σ γ) :
    (c.bind k).bind m = c.bind fun a => (k a).bind m := by
  induction c with
  | done a => rfl
  | act effect next ih => exact congrArg (act effect) (funext ih)
  | await held take next ih => exact congrArg (await held take) ih
  | stop => rfl

instance : LawfulMonad (Code σ) :=
  LawfulMonad.mk' (Code σ) bind_done (fun _ _ => rfl) bind_bind

@[simp] theorem whole_pure (a : α) : (pure a : Code σ α).whole = pure a := rfl

@[simp] theorem whole_prim (c : Prog σ α) : (prim c).whole = c := by
  funext s
  rcases hc : c s with ⟨_ | a, t⟩ <;> simp only [prim, whole, hc] <;> rfl

@[simp] theorem whole_bind (c : Code σ α) (k : α → Code σ β) :
    (c >>= k).whole = c.whole >>= fun a => (k a).whole := by
  induction c with
  | done a => rfl
  | act effect next ih =>
    funext s
    exact congrFun (ih s) (effect s)
  | await held take next ih =>
    funext s
    have hnext := congrFun ih (take s)
    simp only [Bind.bind, bind, whole] at hnext ⊢
    cases held s with
    | true => rfl
    | false => exact hnext
  | stop => rfl

@[simp] theorem whole_ite (p : Prop) [Decidable p] (c d : Code σ α) :
    (if p then c else d).whole = if p then c.whole else d.whole := by
  split <;> rfl

theorem advance_prim {c : Prog σ α} {s t : σ} {a : α} (hc : c s = (some a, t))
    (k : α → Code σ β) : (prim c >>= k).advance s = (k a, t) := by
  simp only [prim, Bind.bind, bind, advance, hc]

end Code

-- ---------------------------------------------------------------------------
-- Calls under way
-- ---------------------------------------------------------------------------

inductive Event (ω : Type) where
  | called (i : Nat)
  | returned (i : Nat) (out : ω)

/-- Calls are numbered as they begin; one that has returned has no code left. -/
structure Pool (σ κ ω : Type) where
  state : σ
  threads : List (κ × Option (Code σ ω))
  log : List (Event ω)

inductive PoolOp (κ : Type) where
  | call (c : κ)
  | step (i : Nat)

section
variable {σ κ ω : Type}

def Pool.start (s : σ) : Pool σ κ ω := ⟨s, [], []⟩

def Pool.called (p : Pool σ κ ω) (c : κ) (code : Code σ ω) : Pool σ κ ω :=
  { p with
    threads := p.threads ++ [(c, some code)], log := p.log ++ [.called p.threads.length] }

def Pool.returned (p : Pool σ κ ω) (i : Nat) (c : κ) (out : ω) : Pool σ κ ω :=
  { p with threads := p.threads.set i (c, none), log := p.log ++ [.returned i out] }

def Pool.advanced (p : Pool σ κ ω) (i : Nat) (c : κ) (code : Code σ ω) : Pool σ κ ω :=
  { p with
    state := (code.advance p.state).2
    threads := p.threads.set i (c, some (code.advance p.state).1) }

def Pool.step (compile : κ → Code σ ω) (p : Pool σ κ ω) : PoolOp κ → Option (Pool σ κ ω)
  | .call c => some (p.called c (compile c))
  | .step i =>
    match p.threads[i]? with
    | some (c, some (.done out)) => some (p.returned i c out)
    | some (c, some code) => some (p.advanced i c code)
    | _ => none

-- ---------------------------------------------------------------------------
-- Calls in a row
-- ---------------------------------------------------------------------------

structure Commit (κ ω : Type) where
  id : Nat
  call : κ
  out : ω

/-- The calls return what the row says, one after the other. `spec` says what a call may
return in a state, and which states it may leave. -/
inductive Legal (spec : κ → σ → ω → σ → Prop) (s : σ) : List (Commit κ ω) → σ → Prop
  | nil : Legal spec s [] s
  | snoc (h : Legal spec s order u) (he : spec e.call u e.out v) : Legal spec s (order ++ [e]) v

structure Linearized (spec : κ → σ → ω → σ → Prop) (s : σ) (p : Pool σ κ ω)
    (order : List (Commit κ ω)) (u : σ) : Prop where
  legal : Legal spec s order u
  once : (order.map Commit.id).Nodup
  calls : ∀ e ∈ order, ∃ o, p.threads[e.id]? = some (e.call, o)
  returns : ∀ i out, .returned i out ∈ p.log → ∃ e ∈ order, e.id = i ∧ e.out = out
  /-- a call that began after another had returned comes after it -/
  ordered : ∀ i j out, [.returned i out, .called j].Sublist p.log → j ∈ order.map Commit.id →
    [i, j].Sublist (order.map Commit.id)

def Agrees (order : List (Commit κ ω)) (outcome : Nat → Option ω) : Prop :=
  ∀ i out, outcome i = some out ↔ ∃ e ∈ order, e.id = i ∧ e.out = out

/-- `I` is kept by every step, with the calls that took effect so far and the state after
them: a step leaves both alone, or it is the one at which a call takes effect. -/
structure Commits (compile : κ → Code σ ω) (spec : κ → σ → ω → σ → Prop) (allowed : κ → Prop)
    (I : Pool σ κ ω → (Nat → Option ω) → σ → Prop) : Prop where
  call : I p outcome u → allowed c → outcome p.threads.length = none →
    I (p.called c (compile c)) outcome u
  step : I p outcome u → p.threads[i]? = some (c, some code) → (∀ out, code ≠ .done out) →
    I (p.advanced i c code) outcome u ∨ outcome i = none ∧ ∃ out v, spec c u out v ∧
      I (p.advanced i c code) (Function.update outcome i (some out)) v
  finish : I p outcome u → p.threads[i]? = some (c, some (.done out)) →
    outcome i = some out ∧ I (p.returned i c out) outcome u

theorem pair_sublist_concat {a b x : ω} {l : List ω} :
    [a, b].Sublist (l ++ [x]) ↔ [a, b].Sublist l ∨ a ∈ l ∧ x = b := by
  constructor
  · intro h
    obtain ⟨l₁, l₂, hl, h₁, h₂⟩ := List.sublist_append_iff.mp h
    rcases List.sublist_singleton.mp h₂ with rfl | rfl
    · rw [List.append_nil] at hl
      exact .inl (hl ▸ h₁)
    · have hpair : [a] ++ [b] = l₁ ++ [x] := hl
      obtain ⟨rfl, hx⟩ := List.append_inj' hpair rfl
      exact .inr ⟨List.singleton_sublist.mp h₁, (List.singleton_inj.mp hx).symm⟩
  · rintro (h | ⟨ha, rfl⟩)
    · exact h.trans (List.sublist_append_left ..)
    · exact (List.singleton_sublist.mpr ha).append (List.Sublist.refl _)

theorem Agrees.new {order : List (Commit κ ω)} (h : Agrees order outcome)
    (hi : outcome i = none) : i ∉ order.map Commit.id := by
  intro hmem
  obtain ⟨e, he, hid⟩ := List.mem_map.mp hmem
  have := (h i e.out).mpr ⟨e, he, hid, rfl⟩
  rw [hi] at this
  cases this

theorem Agrees.snoc {order : List (Commit κ ω)} {e : Commit κ ω} (h : Agrees order outcome)
    (hnew : outcome e.id = none) :
    Agrees (order ++ [e]) (Function.update outcome e.id (some e.out)) := by
  intro i out
  simp only [List.mem_append, List.mem_singleton, or_and_right, exists_or, exists_eq_left]
  by_cases hi : i = e.id
  · subst hi
    rw [Function.update_self, Option.some.injEq, ← h, hnew]
    simp
  · rw [Function.update_of_ne hi, h]
    simp [Ne.symm hi]

section
variable {spec : κ → σ → ω → σ → Prop} {s u v : σ} {p : Pool σ κ ω} {order : List (Commit κ ω)}

theorem Legal.mono {spec' : κ → σ → ω → σ → Prop} (h : Legal spec s order u)
    (himp : ∀ c u out v, spec c u out v → spec' c u out v) : Legal spec' s order u := by
  induction h with
  | nil => exact .nil
  | snoc _ he ih => exact ih.snoc (himp _ _ _ _ he)

theorem Linearized.mono {spec' : κ → σ → ω → σ → Prop} (h : Linearized spec s p order u)
    (himp : ∀ c u out v, spec c u out v → spec' c u out v) : Linearized spec' s p order u :=
  ⟨h.legal.mono himp, h.once, h.calls, h.returns, h.ordered⟩

theorem Linearized.called (h : Linearized spec s p order u) (c : κ) (code : Code σ ω) :
    Linearized spec s (p.called c code) order u := by
  have hlt : ∀ e ∈ order, e.id < p.threads.length := by
    intro e he
    obtain ⟨o, ho⟩ := h.calls e he
    exact (List.getElem?_eq_some_iff.mp ho).1
  refine ⟨h.legal, h.once, fun e he => ?_, fun i out hret => ?_, fun i j out hlog hj => ?_⟩
  · simp only [Pool.called, List.getElem?_append_left (hlt e he)]
    exact h.calls e he
  · rcases List.mem_append.mp hret with hret | hret
    · exact h.returns i out hret
    · cases List.mem_singleton.mp hret
  · rcases pair_sublist_concat.mp hlog with hlog | ⟨-, hlast⟩
    · exact h.ordered i j out hlog hj
    · -- the new call is in no row yet
      obtain ⟨e, he, hid⟩ := List.mem_map.mp hj
      have hnew := hlt e he
      cases hlast
      omega

theorem Linearized.moved (h : Linearized spec s p order u) (hi : p.threads[i]? = some (c, o))
    (t : σ) (o' : Option (Code σ ω)) :
    Linearized spec s { p with state := t, threads := p.threads.set i (c, o') } order u := by
  refine ⟨h.legal, h.once, fun e he => ?_, h.returns, h.ordered⟩
  obtain ⟨o₁, ho⟩ := h.calls e he
  have hlt := (List.getElem?_eq_some_iff.mp hi).1
  by_cases hid : i = e.id
  · rw [← hid, hi] at ho
    cases ho
    exact ⟨o', by simp [← hid, hlt]⟩
  · exact ⟨o₁, by simp [List.getElem?_set_ne hid, ho]⟩

theorem Linearized.commit (h : Linearized spec s p order u) {e : Commit κ ω}
    (he : p.threads[e.id]? = some (e.call, o)) (hnew : e.id ∉ order.map Commit.id)
    (hspec : spec e.call u e.out v) :
    Linearized spec s p (order ++ [e]) v := by
  refine ⟨h.legal.snoc hspec, ?_, fun e' he' => ?_, fun i out hret => ?_, fun i j out hlog hj => ?_⟩
  · rw [List.map_append, List.map_singleton]
    exact List.nodup_append_comm.mp (List.nodup_cons.mpr ⟨hnew, h.once⟩)
  · rcases List.mem_append.mp he' with he' | he'
    · exact h.calls e' he'
    · cases List.mem_singleton.mp he'
      exact ⟨o, he⟩
  · obtain ⟨e', he', hout⟩ := h.returns i out hret
    exact ⟨e', List.mem_append_left _ he', hout⟩
  · rw [List.map_append, List.map_singleton] at hj ⊢
    rw [pair_sublist_concat]
    rcases List.mem_append.mp hj with hj | hj
    · exact .inl (h.ordered i j out hlog hj)
    · have hret : .returned i out ∈ p.log :=
        hlog.subset (List.mem_cons_self ..)
      obtain ⟨e', he', hid, -⟩ := h.returns i out hret
      exact .inr ⟨List.mem_map.mpr ⟨e', he', hid⟩, (List.mem_singleton.mp hj).symm⟩

theorem Linearized.returned (h : Linearized spec s p order u)
    (hi : ∃ e ∈ order, e.id = i ∧ e.out = out) :
    Linearized spec s { p with log := p.log ++ [.returned i out] } order u := by
  refine ⟨h.legal, h.once, h.calls, fun j out' hret => ?_, fun j k out' hlog hk => ?_⟩
  · rcases List.mem_append.mp hret with hret | hret
    · exact h.returns j out' hret
    · cases List.mem_singleton.mp hret
      exact hi
  · rcases pair_sublist_concat.mp hlog with hlog | ⟨-, hlast⟩
    · exact h.ordered j k out' hlog hk
    · cases hlast

-- ---------------------------------------------------------------------------
-- The rule
-- ---------------------------------------------------------------------------

theorem Pool.step_cases {compile : κ → Code σ ω} {p p' : Pool σ κ ω} {op : PoolOp κ}
    (h : p.step compile op = some p') :
    (∃ c, op = .call c ∧ p' = p.called c (compile c)) ∨
    (∃ i c out, op = .step i ∧ p.threads[i]? = some (c, some (.done out)) ∧
      p' = p.returned i c out) ∨
    ∃ i c code, op = .step i ∧ p.threads[i]? = some (c, some code) ∧
      (∀ out, code ≠ .done out) ∧ p' = p.advanced i c code := by
  cases op with
  | call c =>
    cases h
    exact .inl ⟨c, rfl, rfl⟩
  | step i =>
    rw [Pool.step] at h
    split at h
    · rename_i c out hi
      cases h
      exact .inr (.inl ⟨i, c, out, rfl, hi, rfl⟩)
    · rename_i c code hno hi
      cases h
      refine .inr (.inr ⟨i, c, code, rfl, hi, ?_, rfl⟩)
      rintro out rfl
      exact hno out rfl
    · cases h

def PoolOp.Allowed (allowed : κ → Prop) : PoolOp κ → Prop
  | .call c => allowed c
  | .step _ => True

/-- Where each call takes effect at one of its steps, every run is linearized. -/
theorem Commits.linearized {compile : κ → Code σ ω} {allowed : κ → Prop}
    {I : Pool σ κ ω → (Nat → Option ω) → σ → Prop} (h : Commits compile spec allowed I)
    (h0 : I (Pool.start s) (fun _ => none) s) (hall : ∀ op ∈ ops, PoolOp.Allowed allowed op)
    (hr : run (Pool.step compile) (Pool.start s) ops = some p) :
    ∃ order outcome u, Linearized spec s p order u ∧ Agrees order outcome ∧ I p outcome u := by
  refine run_keeps (C := fun _ op => PoolOp.Allowed allowed op)
    (fun p => ∃ order outcome u, Linearized spec s p order u ∧ Agrees order outcome ∧
      I p outcome u) ?_ ?_ (allSteps_of_mem fun _ => hall) hr
  · rintro p op p' ⟨order, outcome, u, hlin, hagree, hI⟩ hop hstep
    obtain ⟨c, rfl, rfl⟩ | ⟨i, c, out, rfl, hi, rfl⟩ | ⟨i, c, code, rfl, hi, hnot, rfl⟩ :=
      Pool.step_cases hstep
    · have hnew : outcome p.threads.length = none := by
        by_contra hsome
        obtain ⟨out, hout⟩ := Option.ne_none_iff_exists'.mp hsome
        obtain ⟨e, he, hid, -⟩ := (hagree _ _).mp hout
        obtain ⟨o, ho⟩ := hlin.calls e he
        have hlt := (List.getElem?_eq_some_iff.mp ho).1
        omega
      exact ⟨order, outcome, u, hlin.called c _, hagree, h.call hI hop hnew⟩
    · obtain ⟨hout, hI⟩ := h.finish hI hi
      have hmoved := hlin.moved hi p.state none
      exact ⟨order, outcome, u, hmoved.returned ((hagree i out).mp hout), hagree, hI⟩
    · have hmoved := hlin.moved hi (code.advance p.state).2 (some (code.advance p.state).1)
      rcases h.step hI hi hnot with hI | ⟨hnew, out, v, hspec, hI⟩
      · exact ⟨order, outcome, u, hmoved, hagree, hI⟩
      · have hlt := (List.getElem?_eq_some_iff.mp hi).1
        have hthread : (p.advanced i c code).threads[i]? =
            some (c, some (code.advance p.state).1) := by
          simp [Pool.advanced, hlt]
        have hcommit : Linearized spec s (p.advanced i c code) (order ++ [⟨i, c, out⟩]) v :=
          Linearized.commit hmoved hthread (hagree.new hnew) hspec
        exact ⟨_, _, v, hcommit, hagree.snoc hnew, hI⟩
  · refine ⟨[], fun _ => none, s, ⟨.nil, List.nodup_nil, ?_, ?_, ?_⟩, ?_, h0⟩
    · exact fun _ he => absurd he List.not_mem_nil
    · exact fun _ _ he => absurd he List.not_mem_nil
    · exact fun _ _ _ _ hj => absurd hj List.not_mem_nil
    · intro i out
      simp

end

-- ---------------------------------------------------------------------------
-- Calls that return
-- ---------------------------------------------------------------------------

def Pool.live (p : Pool σ κ ω) : Nat := p.threads.countP fun t => t.2.isSome

theorem Pool.advanced_rest {compile : κ → Code σ ω} {p p' : Pool σ κ ω} {code : Code σ ω}
    {ops : List (PoolOp κ)} (hi : p.threads[i]? = some (c, some code)) (hnot : ∀ out, code ≠ .done out) :
    run (Pool.step compile) p (.step i :: ops) = some p' ↔
      run (Pool.step compile) (p.advanced i c code) ops = some p' := by
  have hstep : p.step compile (.step i) = some (p.advanced i c code) := by
    simp only [Pool.step, hi]
  simp only [run, hstep, Option.bind_some]

/-- A call that returns as a whole returns if it alone goes on. -/
theorem Pool.alone {compile : κ → Code σ ω} {code : Code σ ω} {out : ω} {t : σ} :
    ∀ {p : Pool σ κ ω}, p.threads[i]? = some (c, some code) → code.whole p.state = (some out, t) →
    ∃ n p', run (Pool.step compile) p ((List.replicate n i).map .step) = some p' ∧
      p'.state = t ∧ p'.threads = p.threads.set i (c, none) := by
  -- after a step the call is at the rest of its code, and the others are where they were
  have hnext {p : Pool σ κ ω} {code : Code σ ω} (hi : p.threads[i]? = some (c, some code))
      (hnot : ∀ out, code ≠ .done out)
      (hrest : (p.advanced i c code).threads[i]? = some (c, some (code.advance p.state).1) → ∃ n p',
        run (Pool.step compile) (p.advanced i c code) ((List.replicate n i).map .step) = some p' ∧
          p'.state = t ∧ p'.threads = (p.advanced i c code).threads.set i (c, none)) :
      ∃ n p', run (Pool.step compile) p ((List.replicate n i).map .step) = some p' ∧
        p'.state = t ∧ p'.threads = p.threads.set i (c, none) := by
    have hlt := (List.getElem?_eq_some_iff.mp hi).1
    obtain ⟨n, p', hrun, hstate, hthreads⟩ := hrest (List.getElem?_set_self hlt)
    refine ⟨n + 1, p', (Pool.advanced_rest hi hnot).mpr hrun, hstate, ?_⟩
    rw [hthreads, Pool.advanced, List.set_set]
  induction code with
  | done a =>
    intro p hi h
    obtain ⟨-, ht⟩ := Prod.mk.inj h
    refine ⟨1, p.returned i c a, ?_, ht, rfl⟩
    simp [run, Pool.step, hi]
  | act effect next ih =>
    intro p hi h
    exact hnext hi (fun out h => by cases h) fun hrest => ih p.state hrest h
  | await held take next ih =>
    intro p hi h
    refine hnext hi (fun out h => by cases h) fun hrest => ?_
    cases hheld : held p.state with
    | true =>
      simp only [Code.whole, hheld, if_true] at h
      cases h
    | false =>
      simp only [Code.whole, hheld, Bool.false_eq_true, if_false] at h
      have hadv : (Code.await held take next).advance p.state = (next, take p.state) := by
        simp only [Code.advance, hheld, Bool.false_eq_true, if_false]
      rw [hadv] at hrest
      refine ih hrest ?_
      simp only [Pool.advanced, hadv, h]
  | stop =>
    intro p hi h
    cases h

theorem Pool.live_returned {p : Pool σ κ ω} (hi : p.threads[i]? = some (c, some code)) :
    (p.threads.set i (c, none)).countP (fun t => t.2.isSome) < p.live := by
  obtain ⟨hlt, hget⟩ := List.getElem?_eq_some_iff.mp hi
  have hpos : 0 < p.live :=
    List.countP_pos_iff.mpr ⟨_, List.mem_of_getElem? hi, rfl⟩
  rw [List.countP_set hlt, hget]
  simp only [Option.isSome_some, if_true, Option.isSome_none, Bool.false_eq_true, if_false]
  exact Nat.sub_lt hpos Nat.one_pos

/-- Where there is always a call that can go on alone to its end, all of them can return. -/
theorem Pool.all_return {compile : κ → Code σ ω} {I : Pool σ κ ω → Prop} {p : Pool σ κ ω}
    (hkeep : ∀ p i p', I p → p.step compile (.step i) = some p' → I p')
    (hgo : ∀ p, I p → 0 < p.live → ∃ (i : Nat) (c : κ) (code : Code σ ω) (out : ω) (t : σ),
      p.threads[i]? = some (c, some code) ∧ code.whole p.state = (some out, t)) (h : I p) :
    ∃ (schedule : List Nat) (p' : Pool σ κ ω),
      run (Pool.step compile) p (schedule.map .step) = some p' ∧ ∀ t ∈ p'.threads, t.2 = none := by
  -- one call after the other, each to its end
  induction hn : p.live using Nat.strong_induction_on generalizing p with
  | _ n ih =>
    subst hn
    rcases Nat.eq_zero_or_pos p.live with hzero | hpos
    · refine ⟨[], p, rfl, fun t ht => ?_⟩
      have hnone := List.countP_eq_zero.mp hzero t ht
      simpa using hnone
    · obtain ⟨i, c, code, out, t, hi, hwhole⟩ := hgo p h hpos
      obtain ⟨n, p₁, hrun₁, -, hthreads⟩ := Pool.alone hi hwhole
      have hI : I p₁ := by
        refine run_keeps (C := fun _ op => ∃ j, op = .step j) I ?_ h (allSteps_of_mem fun _ op hop => ?_)
          hrun₁
        · rintro p _ p' hp ⟨j, rfl⟩ hstep
          exact hkeep p j p' hp hstep
        · obtain ⟨j, -, rfl⟩ := List.mem_map.mp hop
          exact ⟨j, rfl⟩
      have hless : p₁.live < p.live := by
        rw [Pool.live, hthreads]
        exact Pool.live_returned hi
      obtain ⟨schedule, p', hrun, hall⟩ := ih p₁.live hless hI rfl
      refine ⟨List.replicate n i ++ schedule, p', ?_, hall⟩
      rw [List.map_append]
      exact run_append.mpr ⟨p₁, hrun₁, hrun⟩

theorem Commits.keeps {compile : κ → Code σ ω} {spec : κ → σ → ω → σ → Prop} {allowed : κ → Prop}
    {I : Pool σ κ ω → (Nat → Option ω) → σ → Prop} (h : Commits compile spec allowed I)
    (hI : ∃ outcome u, I p outcome u) (hstep : p.step compile (.step i) = some p') :
    ∃ outcome u, I p' outcome u := by
  obtain ⟨outcome, u, hI⟩ := hI
  obtain ⟨c, hop, -⟩ | ⟨j, c, out, -, hj, rfl⟩ | ⟨j, c, code, -, hj, hnot, rfl⟩ :=
    Pool.step_cases hstep
  · cases hop
  · exact ⟨outcome, u, (h.finish hI hj).2⟩
  · rcases h.step hI hj hnot with hI | ⟨-, out, v, -, hI⟩
    · exact ⟨outcome, u, hI⟩
    · exact ⟨_, v, hI⟩

end

end TomatoOs.Lib
