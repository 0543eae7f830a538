import Mathlib

/-!
# Sets keyed by an equivalence

A set of elements of which no two are equivalent, as a table keyed by the class of an element is
meant to be. An operation names an element and answers the member equivalent to it, if there is one.
The laws say how a set stays keyed, and what is taken out with the answer.
-/

namespace Pintos.Lib

variable {α : Type*} {r : α → α → Prop} {S S' : Set α} {x y : α} {out : Option α}

/-- No two members are equivalent. -/
def Keyed (r : α → α → Prop) (S : Set α) : Prop := ∀ x ∈ S, ∀ y ∈ S, r x y → x = y

/-- The answer is the member equivalent to `x`, or nothing when there is none. -/
def Matches (r : α → α → Prop) (S : Set α) (x : α) (out : Option α) : Prop :=
  ∀ y, out = some y ↔ y ∈ S ∧ r y x

inductive KeyedOp (α : Type*) where
  | insert (x : α)
  | replace (x : α)
  | find (x : α)
  | delete (x : α)
  | clear

/-- What an operation answers, and the set it leaves. -/
def KeyedOp.Does (r : α → α → Prop) (S : Set α) (out : Option α) (S' : Set α) : KeyedOp α → Prop
  | .insert x => Matches r S x out ∧ S' = S ∪ {y | y = x ∧ out = none}
  | .replace x => Matches r S x out ∧ S' = Insert.insert x (S \ {y | r y x})
  | .find x => Matches r S x out ∧ S' = S
  | .delete x => Matches r S x out ∧ S' = S \ {y | r y x}
  | .clear => out = none ∧ S' = ∅

theorem keyed_empty : Keyed r ∅ := fun _ hx => hx.elim

theorem Keyed.subset (h : Keyed r S) (hs : S' ⊆ S) : Keyed r S' :=
  fun x hx y hy => h x (hs hx) y (hs hy)

/-- An element may join when no member is equivalent to it. -/
theorem Keyed.insert (hr : Equivalence r) (h : Keyed r S) (hx : ∀ y ∈ S, ¬ r y x) :
    Keyed r (Insert.insert x S) := by
  rintro y (rfl | hy) z (rfl | hz) hyz
  · rfl
  · exact absurd (hr.symm hyz) (hx z hz)
  · exact absurd hyz (hx y hy)
  · exact h y hy z hz hyz

theorem Matches.none_iff (h : Matches r S x out) : out = none ↔ ∀ y ∈ S, ¬ r y x := by
  constructor
  · rintro rfl y hy hr
    cases (h y).mpr ⟨hy, hr⟩
  · intro hnone
    cases out with
    | none => rfl
    | some y => exact absurd ((h y).mp rfl).2 (hnone y ((h y).mp rfl).1)

/-- The one member with the key of `x` is all there is to take out. -/
theorem Matches.diff_eq (hr : Equivalence r) (hk : Keyed r S) (h : Matches r S x (some y)) :
    S \ {z | r z x} = S \ {y} := by
  obtain ⟨hy, hyx⟩ := (h y).mp rfl
  ext z
  constructor
  · rintro ⟨hz, hzx⟩
    refine ⟨hz, ?_⟩
    rintro rfl
    exact hzx hyx
  · rintro ⟨hz, hzy⟩
    exact ⟨hz, fun hzx => hzy (hk z hz y hy (hr.trans hzx (hr.symm hyx)))⟩

/-- With no such member, nothing is taken out. -/
theorem Matches.diff_eq_self (h : Matches r S x none) : S \ {z | r z x} = S := by
  have hnone := h.none_iff.mp rfl
  ext z
  exact ⟨fun hz => hz.1, fun hz => ⟨hz, hnone z hz⟩⟩

end Pintos.Lib
