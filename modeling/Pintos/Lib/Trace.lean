import Mathlib.Logic.Basic

/-!
# Code as what it does

`Trace A E α` is a piece of sequential code, run to its end: the actions it performs, and either
the value it goes on with or the way it leaves for good. What is asked of the actions is computed
along them by a function `step` on some state `M`, and `fin` says which ways to leave are allowed
in which state; `wp` is the condition under which the code meets that and a postcondition. It is
taken apart from the front, like any weakest precondition.
-/

namespace Pintos.Lib

variable {A E α β M : Type}

structure Trace (A E α : Type) where
  acts : List A
  result : Except E α

namespace Trace

/-- What comes next runs only if the code goes on. -/
protected def bind (x : Trace A E α) (f : α → Trace A E β) : Trace A E β :=
  match x.result with
  | .ok a => { acts := x.acts ++ (f a).acts, result := (f a).result }
  | .error e => { acts := x.acts, result := .error e }

instance : Monad (Trace A E) where
  pure a := { acts := [], result := .ok a }
  bind := Trace.bind

/-- One action. -/
def act (a : A) : Trace A E Unit := { acts := [a], result := .ok () }

/-- The code ends here. -/
def leave (e : E) : Trace A E α := { acts := [], result := .error e }

/-- The condition for `x`, begun in state `m`, to leave only as `fin` allows or to go on as `Q`
asks. -/
def wp (step : M → A → M) (fin : E → M → Prop) (x : Trace A E α) (m : M)
    (Q : α → M → Prop) : Prop :=
  match x.result with
  | .ok a => Q a (x.acts.foldl step m)
  | .error e => fin e (x.acts.foldl step m)

variable {step : M → A → M} {fin : E → M → Prop} {m : M}

@[simp] theorem wp_pure (a : α) (Q : α → M → Prop) :
    wp step fin (pure a : Trace A E α) m Q ↔ Q a m := Iff.rfl

@[simp] theorem wp_act (a : A) (Q : Unit → M → Prop) :
    wp step fin (act a : Trace A E Unit) m Q ↔ Q () (step m a) := Iff.rfl

@[simp] theorem wp_leave (e : E) (Q : α → M → Prop) :
    wp step fin (leave e : Trace A E α) m Q ↔ fin e m := Iff.rfl

/-- What holds after two steps holds of the second after the first. -/
@[simp] theorem wp_bind (x : Trace A E α) (f : α → Trace A E β) (Q : β → M → Prop) :
    wp step fin (x >>= f) m Q ↔ wp step fin x m fun a m' => wp step fin (f a) m' Q := by
  show wp step fin (Trace.bind x f) m Q ↔ _
  unfold wp Trace.bind
  cases hx : x.result with
  | error e => rfl
  | ok a =>
    dsimp only
    rw [List.foldl_append]

@[simp] theorem wp_ite (c : Prop) [Decidable c] (x y : Trace A E α) (Q : α → M → Prop) :
    wp step fin (if c then x else y) m Q ↔
      if c then wp step fin x m Q else wp step fin y m Q := by
  split <;> rfl

/-! ## Equations -/

variable {γ : Type}

@[simp] theorem pure_bind (a : α) (f : α → Trace A E β) : (pure a : Trace A E α) >>= f = f a := by
  show ({ acts := [] ++ (f a).acts, result := (f a).result } : Trace A E β) = f a
  rw [List.nil_append]

@[simp] theorem leave_bind (e : E) (f : α → Trace A E β) : (leave e : Trace A E α) >>= f = leave e := rfl

/-- Doing nothing at the end is doing nothing. -/
@[simp] theorem bind_unit (x : Trace A E Unit) : (x >>= fun _ => pure ()) = x := by
  obtain ⟨acts, result⟩ := x
  cases result with
  | error e => rfl
  | ok a =>
    show ({ acts := acts ++ [], result := .ok () } : Trace A E Unit) = _
    rw [List.append_nil]

@[simp] theorem bind_assoc (x : Trace A E α) (f : α → Trace A E β) (g : β → Trace A E γ) :
    x >>= f >>= g = x >>= fun a => f a >>= g := by
  obtain ⟨acts, result⟩ := x
  cases result with
  | error e => rfl
  | ok a =>
    show Trace.bind { acts := acts ++ (f a).acts, result := (f a).result } g =
      { acts := acts ++ (Trace.bind (f a) g).acts, result := (Trace.bind (f a) g).result }
    unfold Trace.bind
    cases (f a).result with
    | error e => rfl
    | ok b =>
      dsimp only
      rw [List.append_assoc]

/-- Only the actions that `p` asks about. -/
def filter (p : A → Bool) (x : Trace A E α) : Trace A E α :=
  { acts := x.acts.filter p, result := x.result }

variable {p : A → Bool}

@[simp] theorem filter_pure (a : α) : filter p (pure a : Trace A E α) = pure a := rfl

@[simp] theorem filter_leave (e : E) : filter p (leave e : Trace A E α) = leave e := rfl

/-- The other actions are left out. -/
theorem filter_act {a : A} (h : p a = false) : filter p (act a : Trace A E Unit) = pure () := by
  show ({ acts := [a].filter p, result := .ok () } : Trace A E Unit) = _
  rw [List.filter_cons, h]
  rfl

/-- A filter goes through the steps in turn. -/
@[simp] theorem filter_bind (x : Trace A E α) (f : α → Trace A E β) :
    filter p (x >>= f) = filter p x >>= fun a => filter p (f a) := by
  obtain ⟨acts, result⟩ := x
  cases result with
  | error e => rfl
  | ok a =>
    show ({ acts := (acts ++ (f a).acts).filter p, result := _ } : Trace A E β) = _
    rw [List.filter_append]
    rfl

end Trace

end Pintos.Lib
