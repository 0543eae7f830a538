import Mathlib.Logic.Basic

/-!
# Fallible code

Code that answers or faults is an `Except`. Its sequences are peeled apart from the front:
`bind_eq_ok` when the whole succeeds, `bind_eq_error` when it fails, `guard_eq_ok` past a check. `Avoids e x` says that
`x` does not fault with `e`, and it is shown of a sequence piece by piece.
-/

namespace Pintos.Lib

/-- A result goes on to what comes next. -/
theorem bind_ok {ε α β : Type} (a : α) (f : α → Except ε β) : (Except.ok a >>= f) = f a := rfl

/-- A sequence of two fallible pieces of code succeeds when both do. -/
theorem bind_eq_ok {ε α β : Type} {x : Except ε α} {f : α → Except ε β} {b : β} :
    x >>= f = .ok b ↔ ∃ a, x = .ok a ∧ f a = .ok b := by
  cases x with
  | error e =>
    constructor
    · intro h
      cases h
    · rintro ⟨_, h, _⟩
      cases h
  | ok a =>
    constructor
    · intro h
      exact ⟨a, rfl, h⟩
    · rintro ⟨_, h, hf⟩
      cases h
      exact hf

/-- And it fails where the first piece fails, or the second after the first has succeeded. -/
theorem bind_eq_error {ε α β : Type} {x : Except ε α} {f : α → Except ε β} {e : ε} :
    x >>= f = .error e ↔ x = .error e ∨ ∃ a, x = .ok a ∧ f a = .error e := by
  cases x with
  | error e' =>
    constructor
    · intro h
      cases h
      exact .inl rfl
    · rintro (h | ⟨_, h, _⟩)
      · cases h
        rfl
      · cases h
  | ok a =>
    constructor
    · intro h
      exact .inr ⟨a, rfl, h⟩
    · rintro (h | ⟨_, h, hf⟩)
      · cases h
      · cases h
        exact hf

/-- Code behind a check succeeds where the check lets it pass. -/
theorem guard_eq_ok {ε α : Type} {c : Prop} [Decidable c] {e : ε} {x : Except ε α} {a : α} :
    (if c then .error e else x) = .ok a ↔ ¬ c ∧ x = .ok a := by
  split
  next h => exact iff_of_false (fun hx => by cases hx) fun hx => hx.1 h
  next h => exact (and_iff_right h).symm

theorem eq_ok_of_toOption {ε α : Type} {x : Except ε α} {a : α} (h : x.toOption = some a) :
    x = .ok a := by
  cases x with
  | error e => cases h
  | ok b =>
    cases h
    rfl

/-- The code does not fault with `e`. -/
def Avoids {ε α : Type} (e : ε) (x : Except ε α) : Prop := x ≠ .error e

theorem Avoids.of_ok {ε α : Type} {e : ε} {a : α} : Avoids e (.ok a : Except ε α) := by
  intro h
  cases h

theorem Avoids.of_ne {ε α : Type} {e e' : ε} (h : e' ≠ e) :
    Avoids e (.error e' : Except ε α) := by
  intro he
  cases he
  exact h rfl

/-- A sequence avoids a fault that its pieces avoid. -/
theorem Avoids.bind {ε α β : Type} {e : ε} {x : Except ε α} {f : α → Except ε β}
    (hx : Avoids e x) (hf : ∀ a, x = .ok a → Avoids e (f a)) : Avoids e (x >>= f) := by
  intro h
  rcases bind_eq_error.mp h with h | ⟨a, ha, h⟩
  · exact hx h
  · exact hf a ha h

theorem Avoids.ite {ε α : Type} {e : ε} {c : Prop} [Decidable c] {x y : Except ε α}
    (hx : c → Avoids e x) (hy : ¬ c → Avoids e y) : Avoids e (if c then x else y) := by
  split
  next h => exact hx h
  next h => exact hy h

end Pintos.Lib
