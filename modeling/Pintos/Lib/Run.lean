import Mathlib.Logic.Function.Basic

/-!
# Runs of a transition system

A system is a step relation `step s i s'`: in state `s` the input `i` may lead to
`s'`. A guarded executable step function `f : ι → σ → Except φ σ` is the relation
`Steps f`: the input is accepted and answers the new state, and a fault ends the run.

`ReachWhere step ok s₀ s` says that `s` is reached from `s₀` by steps that all meet
the condition `ok`, read at the state the step is taken FROM. `Reach` is the case
with no condition. The one induction over runs is `ReachWhere.invariant`; every
safety result is two goals through it, one for the start and one for a step.
-/

namespace Pintos.Lib

variable {σ ι φ : Type*}

/-- The step relation of a guarded step function: an accepted input and its answer. -/
def Steps (f : ι → σ → Except φ σ) (s : σ) (i : ι) (s' : σ) : Prop := f i s = .ok s'

/-- The states reached from `s₀` by steps that meet `ok` at the state they start from. -/
inductive ReachWhere (step : σ → ι → σ → Prop) (ok : σ → ι → Prop) (s₀ : σ) : σ → Prop
  | start : ReachWhere step ok s₀ s₀
  | next {s s' : σ} {i : ι} :
      ReachWhere step ok s₀ s → ok s i → step s i s' → ReachWhere step ok s₀ s'

/-- The reachable states: no condition on the steps. -/
def Reach (step : σ → ι → σ → Prop) (s₀ s : σ) : Prop :=
  ReachWhere step (fun _ _ => True) s₀ s

variable {step : σ → ι → σ → Prop} {ok : σ → ι → Prop} {s₀ s : σ}

/-- What holds at the start and survives every admitted step holds in every state reached. -/
theorem ReachWhere.invariant {P : σ → Prop} (start : P s₀)
    (keep : ∀ s i s', P s → ok s i → step s i s' → P s')
    (h : ReachWhere step ok s₀ s) : P s := by
  induction h with
  | start => exact start
  | next _ hok hstep ih => exact keep _ _ _ ih hok hstep

/-- A run under one condition is a run under another that follows from it along the way. -/
theorem ReachWhere.follow {ok' : σ → ι → Prop}
    (imp : ∀ s i, ReachWhere step ok' s₀ s → ok s i → ok' s i)
    (h : ReachWhere step ok s₀ s) : ReachWhere step ok' s₀ s := by
  induction h with
  | start => exact .start
  | next _ hok hstep ih => exact ih.next (imp _ _ ih hok) hstep

/-- A run under a condition is a run under any weaker one. -/
theorem ReachWhere.weaken {ok' : σ → ι → Prop} (imp : ∀ s i, ok s i → ok' s i)
    (h : ReachWhere step ok s₀ s) : ReachWhere step ok' s₀ s :=
  h.follow fun s i _ => imp s i

theorem ReachWhere.reach (h : ReachWhere step ok s₀ s) : Reach step s₀ s :=
  h.weaken fun _ _ _ => trivial

/-- The invariant rule with a second invariant already known along every run. -/
theorem ReachWhere.invariant_with {P Q : σ → Prop} (start : P s₀)
    (known : ∀ s, ReachWhere step ok s₀ s → Q s)
    (keep : ∀ s i s', Q s → P s → ok s i → step s i s' → P s')
    (h : ReachWhere step ok s₀ s) : P s := by
  induction h with
  | start => exact start
  | next hr hok hstep ih => exact keep _ _ _ (known _ hr) ih hok hstep

/-- A run seen through a function that takes steps to steps. -/
theorem ReachWhere.map {τ : Type*} {step' : τ → ι → τ → Prop} {ok' : τ → ι → Prop} (f : σ → τ)
    (hstep : ∀ s i s', step s i s' → step' (f s) i (f s'))
    (hok : ∀ s i, ReachWhere step ok s₀ s → ok s i → ok' (f s) i)
    (h : ReachWhere step ok s₀ s) : ReachWhere step' ok' (f s₀) (f s) := by
  induction h with
  | start => exact .start
  | next hr hi hs ih => exact ih.next (hok _ _ hr hi) (hstep _ _ _ hs)

theorem Reach.invariant {P : σ → Prop} (start : P s₀)
    (keep : ∀ s i s', P s → step s i s' → P s') (h : Reach step s₀ s) : P s :=
  ReachWhere.invariant start (fun s i s' hs _ => keep s i s' hs) h

/-! ## Replaying a list of inputs -/

/-- Feeds the inputs one by one while each meets `ok` at the state it is fed to; a refused
input or a fault answers nothing. -/
def replay (f : ι → σ → Except φ σ) (ok : σ → ι → Bool) : List ι → σ → Option σ
  | [], s => some s
  | i :: rest, s =>
    if ok s i then
      match f i s with
      | .ok s' => replay f ok rest s'
      | .error _ => none
    else none

/-- The end of a replay is reached by steps that meet the condition replayed under. -/
theorem reachWhere_of_replay {f : ι → σ → Except φ σ} {ok : σ → ι → Bool} {s₀ : σ} :
    ∀ (is : List ι) {s s' : σ}, ReachWhere (Steps f) (fun s i => ok s i = true) s₀ s →
      replay f ok is s = some s' → ReachWhere (Steps f) (fun s i => ok s i = true) s₀ s'
  | [], s, s', hs, h => by
    cases h
    exact hs
  | i :: rest, s, s', hs, h => by
    unfold replay at h
    split at h
    next hok =>
      split at h
      next s₁ h₁ => exact reachWhere_of_replay rest (hs.next hok h₁) h
      next => cases h
    next => cases h

/-- A replay whose end state passes a test exhibits a reached state that passes it. -/
theorem exists_of_replay (f : ι → σ → Except φ σ) (ok : σ → ι → Bool) (is : List ι) (s₀ : σ)
    (p : σ → Bool) (h : (replay f ok is s₀).map p = some true) :
    ∃ s, ReachWhere (Steps f) (fun s i => ok s i = true) s₀ s ∧ p s = true := by
  obtain ⟨s, hs, hp⟩ := Option.map_eq_some_iff.mp h
  exact ⟨s, reachWhere_of_replay is .start hs, hp⟩

end Pintos.Lib
