import Mathlib

/-!
# Arrays of lists

An array of `n` lists with what is in it as a multiset. Pushing an element on a list adds it, and
erasing an element everywhere takes it out, when every element is in the list that its key names.
-/

namespace Pintos.Lib

variable {α : Type*} {n : Nat} {key : α → Fin n} {f : Fin n → List α} {x : α}

/-- What is in the lists. -/
def contents (f : Fin n → List α) : Multiset α := ∑ i, (f i : Multiset α)

/-- The lists one after the other. -/
def listed (f : Fin n → List α) : List α := (List.finRange n).flatMap f

/-- `x` at the front of the list `i`. -/
def pushAt (f : Fin n → List α) (i : Fin n) (x : α) : Fin n → List α :=
  Function.update f i (x :: f i)

/-- Every element is in the list that its key names. -/
def Homed (key : α → Fin n) (f : Fin n → List α) : Prop := ∀ i, ∀ x ∈ f i, key x = i

/-- What is held is in some bucket. -/
theorem mem_contents : x ∈ contents f ↔ ∃ i, x ∈ f i := by
  unfold contents
  simp [Multiset.mem_sum]

/-- The buckets in turn hold it. -/
theorem coe_listed (f : Fin n → List α) : (listed f : Multiset α) = contents f := by
  have hcoe : ∀ l : List (Fin n), ((l.flatMap f : List α) : Multiset α) =
      (l.map fun i => (f i : Multiset α)).sum := by
    intro l
    induction l with
    | nil => rfl
    | cons i rest ih => simp [← ih]
  unfold listed contents
  rw [hcoe, Fin.sum_univ_def]

theorem contents_nil : contents (fun _ : Fin n => ([] : List α)) = 0 := by
  simp [contents]

/-- A bucket is part of it. -/
theorem le_contents (f : Fin n → List α) (i : Fin n) : (f i : Multiset α) ≤ contents f :=
  Finset.single_le_sum (f := fun j => (f j : Multiset α)) (fun _ _ => zero_le) (Finset.mem_univ i)

/-- A list put in the place of another. -/
theorem contents_update (f : Fin n → List α) (i : Fin n) (l : List α) :
    contents (Function.update f i l) + f i = l + contents f := by
  have hupd : (fun j => (Function.update f i l j : Multiset α)) =
      Function.update (fun j => (f j : Multiset α)) i l := by
    ext j : 1
    by_cases hj : j = i
    · simp [hj]
    · simp [hj]
  have hsplit : contents f = f i + ∑ j ∈ Finset.univ \ {i}, (f j : Multiset α) := by
    unfold contents
    rw [← Finset.sum_sdiff (Finset.subset_univ {i}), Finset.sum_singleton, add_comm]
  unfold contents at hsplit ⊢
  rw [hupd, Finset.sum_update_of_mem (Finset.mem_univ i), hsplit]
  ac_rfl

/-- To push an element is to hold one more. -/
theorem contents_pushAt (f : Fin n → List α) (i : Fin n) (x : α) :
    contents (pushAt f i x) = x ::ₘ contents f := by
  have h := contents_update f i (x :: f i)
  rw [← Multiset.cons_coe, Multiset.cons_add, add_comm (f i : Multiset α),
    ← Multiset.cons_add] at h
  exact add_right_cancel h

/-- An element is looked for at home. -/
theorem Homed.mem_iff (h : Homed key f) : x ∈ contents f ↔ x ∈ f (key x) := by
  rw [mem_contents]
  constructor
  · rintro ⟨i, hi⟩
    rw [h i x hi]
    exact hi
  · exact fun hx => ⟨_, hx⟩

theorem homed_nil (key : α → Fin n) : Homed key fun _ => [] := fun _ _ hx => by cases hx

/-- A new one goes home. -/
theorem Homed.push (h : Homed key f) (x : α) : Homed key (pushAt f (key x) x) := by
  intro i y hy
  unfold pushAt at hy
  by_cases hi : i = key x
  · subst hi
    rw [Function.update_self, List.mem_cons] at hy
    rcases hy with rfl | hy
    · rfl
    · exact h _ y hy
  · rw [Function.update_of_ne hi] at hy
    exact h i y hy

/-- All the elements of a list pushed where their keys say. -/
theorem Homed.foldl_push (h : Homed key f) (l : List α) :
    Homed key (l.foldl (fun f x => pushAt f (key x) x) f) ∧
      contents (l.foldl (fun f x => pushAt f (key x) x) f) = l + contents f := by
  induction l generalizing f with
  | nil => exact ⟨h, (zero_add _).symm⟩
  | cons x rest ih =>
    obtain ⟨hhome, hcont⟩ := ih (h.push x)
    refine ⟨hhome, hcont.trans ?_⟩
    rw [contents_pushAt, ← Multiset.cons_coe, Multiset.add_cons, Multiset.cons_add]

section Erase

variable [DecidableEq α]

/-- `x` taken out of whichever list it is in. -/
def eraseAll (f : Fin n → List α) (x : α) : Fin n → List α := fun i => (f i).erase x

/-- To take one out moves none. -/
theorem Homed.erase (h : Homed key f) (x : α) : Homed key (eraseAll f x) :=
  fun i y hy => h i y (List.mem_of_mem_erase hy)

/-- To erase an element is to hold one less. -/
theorem Homed.contents_erase (h : Homed key f) (hx : x ∈ contents f) :
    x ::ₘ contents (eraseAll f x) = contents f := by
  have hupd : eraseAll f x = Function.update f (key x) ((f (key x)).erase x) := by
    ext i : 1
    by_cases hi : i = key x
    · rw [hi, Function.update_self]
      rfl
    · rw [Function.update_of_ne hi]
      exact List.erase_of_not_mem fun hmem => hi (h i x hmem).symm
  have hmem : x ∈ f (key x) := h.mem_iff.mp hx
  have hcons : (f (key x) : Multiset α) = x ::ₘ (((f (key x)).erase x : List α) : Multiset α) := by
    rw [Multiset.cons_coe]
    exact Multiset.coe_eq_coe.mpr (List.perm_cons_erase hmem)
  have hsum := contents_update f (key x) ((f (key x)).erase x)
  rw [← hupd, hcons, Multiset.add_cons, add_comm, ← Multiset.add_cons] at hsum
  exact add_left_cancel hsum

end Erase

end Pintos.Lib
