import Pintos.Lib.Fallible

/-!
# The answers of a run

A program takes inputs one after the other, and answers each or faults. `answers` are those of a run.
What is expected of it is a relation, of a state, an input, an answer and the next state, and
`Answers` are the runs of that. If the states of the two go along with each other, so do the runs.
What is expected of a step may depend on what the program has before it; such a run is beside one of
the program (`AnswersBeside`).
-/

namespace Pintos.Lib

variable {σ τ ι ρ φ : Type} {f : ι → σ → Except φ (ρ × σ)} {spec : τ → ι → ρ → τ → Prop}
  {R : σ → τ → Prop} {s s' : σ} {t : τ} {is : List ι} {rs : List ρ}

/-- The answers to the inputs, in order. -/
def answers (f : ι → σ → Except φ (ρ × σ)) : List ι → σ → Except φ (List ρ × σ)
  | [], s => .ok ([], s)
  | i :: is, s => do
    let (r, s) ← f i s
    let (rs, s) ← answers f is s
    .ok (r :: rs, s)

/-- A run of what is expected. -/
inductive Answers (spec : τ → ι → ρ → τ → Prop) : τ → List ι → List ρ → τ → Prop
  | nil {t : τ} : Answers spec t [] [] t
  | cons {t t₁ t' : τ} {i : ι} {is : List ι} {r : ρ} {rs : List ρ} :
      spec t i r t₁ → Answers spec t₁ is rs t' → Answers spec t (i :: is) (r :: rs) t'

/-- The answers are those expected, if each is. -/
theorem Answers.of_answers
    (hstep : ∀ s t i r s', R s t → f i s = .ok (r, s') → ∃ t', spec t i r t' ∧ R s' t')
    (h : R s t) (hx : answers f is s = .ok (rs, s')) : ∃ t', Answers spec t is rs t' ∧ R s' t' := by
  induction is generalizing s t rs with
  | nil =>
    cases hx
    exact ⟨t, .nil, h⟩
  | cons i is ih =>
    obtain ⟨⟨r, s₁⟩, h₁, hx⟩ := bind_eq_ok.mp hx
    obtain ⟨⟨rs, s₂⟩, h₂, hx⟩ := bind_eq_ok.mp hx
    cases hx
    obtain ⟨t₁, hspec, hR⟩ := hstep s t i r s₁ h h₁
    obtain ⟨t', hrun, hR'⟩ := ih hR h₂
    exact ⟨t', .cons hspec hrun, hR'⟩

/-- A run of what is expected, beside that of the program. -/
inductive AnswersBeside (f : ι → σ → Except φ (ρ × σ)) (spec : σ → τ → ι → ρ → τ → Prop) :
    σ → τ → List ι → List ρ → σ → τ → Prop
  | nil {s : σ} {t : τ} : AnswersBeside f spec s t [] [] s t
  | cons {s s₁ s' : σ} {t t₁ t' : τ} {i : ι} {is : List ι} {r : ρ} {rs : List ρ} :
      f i s = .ok (r, s₁) → spec s t i r t₁ → AnswersBeside f spec s₁ t₁ is rs s' t' →
      AnswersBeside f spec s t (i :: is) (r :: rs) s' t'

theorem AnswersBeside.of_answers {spec : σ → τ → ι → ρ → τ → Prop}
    (hstep : ∀ s t i r s', R s t → f i s = .ok (r, s') → ∃ t', spec s t i r t' ∧ R s' t')
    (h : R s t) (hx : answers f is s = .ok (rs, s')) :
    ∃ t', AnswersBeside f spec s t is rs s' t' ∧ R s' t' := by
  induction is generalizing s t rs with
  | nil =>
    cases hx
    exact ⟨t, .nil, h⟩
  | cons i is ih =>
    obtain ⟨⟨r, s₁⟩, h₁, hx⟩ := bind_eq_ok.mp hx
    obtain ⟨⟨rs, s₂⟩, h₂, hx⟩ := bind_eq_ok.mp hx
    cases hx
    obtain ⟨t₁, hspec, hR⟩ := hstep s t i r s₁ h h₁
    obtain ⟨t', hrun, hR'⟩ := ih hR h₂
    exact ⟨t', .cons h₁ hspec hrun, hR'⟩

/-- A run avoids a fault that no step has. -/
theorem answers_avoids {e : φ}
    (hstep : ∀ s t i r s', R s t → f i s = .ok (r, s') → ∃ t', R s' t')
    (havoid : ∀ s t i, R s t → Avoids e (f i s)) (h : R s t) : Avoids e (answers f is s) := by
  induction is generalizing s t with
  | nil => exact .of_ok
  | cons i is ih =>
    refine Avoids.bind (havoid s t i h) ?_
    rintro ⟨r, s₁⟩ h₁
    obtain ⟨t₁, hR⟩ := hstep s t i r s₁ h h₁
    exact Avoids.bind (ih hR) fun _ _ => .of_ok

end Pintos.Lib
