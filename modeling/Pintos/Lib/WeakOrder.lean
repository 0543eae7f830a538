import Mathlib.Data.List.Chain
import Mathlib.Data.List.TakeWhile
import Mathlib.Order.Defs.Unbundled

/-!
# Lists under a weak order

A comparison that is a strict weak order need not tell all elements apart. An element is put into a list
in order behind those that it equals (`inOrder_insertOrdered`). `unique` keeps the first of adjacent
elements that are equal: a list is made of groups of equals, and the first of each group is kept
(`unique_groups`).
-/

namespace Pintos.Lib

variable {α : Type*} {less : α → α → Bool} {a b c e x : α} {xs ys : List α}

/-- The comparison says that neither is less. -/
def equal (less : α → α → Bool) (a b : α) : Bool := !less a b && !less b a

/-- No element is less than one in front of it. -/
def InOrder (less : α → α → Bool) (xs : List α) : Prop := xs.Pairwise fun a b => less b a = false

abbrev WeakOrder (less : α → α → Bool) : Prop := IsStrictWeakOrder α fun a b => less a b = true

/-- Equal means that neither is less. -/
theorem equal_iff_not_less : equal less a b = true ↔ less a b = false ∧ less b a = false := by
  simp [equal]

/-- Nothing is less than itself. -/
theorem WeakOrder.irrefl (hw : WeakOrder less) (a : α) : less a a = false :=
  Bool.eq_false_iff.mpr (hw.toIsStrictOrder.toIrrefl.irrefl a)

/-- Less than what is less is less. -/
theorem WeakOrder.trans (hw : WeakOrder less) (hab : less a b = true) (hbc : less b c = true) :
    less a c = true := hw.toIsStrictOrder.toIsTrans.trans a b c hab hbc

/-- Of two, one at most is less. -/
theorem WeakOrder.asymm (hw : WeakOrder less) (hab : less a b = true) : less b a = false := by
  rw [← Bool.not_eq_true]
  intro hba
  exact absurd (hw.trans hab hba) (Bool.eq_false_iff.mp (hw.irrefl a))

/-- What is not less than something not less than `c` is not less than `c`. -/
theorem WeakOrder.not_less_trans (hw : WeakOrder less) (hab : less a b = false) (hbc : less b c = false) :
    less a c = false := by
  rw [← Bool.not_eq_true] at hab hbc ⊢
  intro hac
  have hba : ¬ less b a = true := fun hba => hbc (hw.trans hba hac)
  have hcb : ¬ less c b = true := fun hcb => hab (hw.trans hac hcb)
  exact (hw.incomp_trans a b c ⟨hab, hba⟩ ⟨hbc, hcb⟩).1 hac

/-- What is less than `b` is less than all that is not less than `b`. -/
theorem WeakOrder.less_of_less (hw : WeakOrder less) (hab : less a b = true) (hcb : less c b = false) :
    less a c = true := by
  rw [← Bool.not_eq_false]
  intro hac
  exact absurd hab (Bool.eq_false_iff.mp (hw.not_less_trans hac hcb))

/-- Two lists in order are one if nothing of the second is less than anything of the first. -/
theorem inOrder_append : InOrder less (xs ++ ys) ↔
    InOrder less xs ∧ InOrder less ys ∧ ∀ a ∈ xs, ∀ b ∈ ys, less b a = false := List.pairwise_append

/-! ## Insertion in order -/

/-- The elements that stay in front of `e`. -/
def frontOf (less : α → α → Bool) (e : α) (xs : List α) : List α := xs.takeWhile fun x => !less e x

/-- The elements that come behind `e`. -/
def backOf (less : α → α → Bool) (e : α) (xs : List α) : List α := xs.dropWhile fun x => !less e x

/-- `e` is put in front of the first element that it is less than. -/
def insertOrdered (less : α → α → Bool) (e : α) (xs : List α) : List α := frontOf less e xs ++ e :: backOf less e xs

/-- Front and back are the list. -/
theorem frontOf_append_backOf (less : α → α → Bool) (e : α) (xs : List α) :
    frontOf less e xs ++ backOf less e xs = xs := List.takeWhile_append_dropWhile

/-- The element is not less than those in front. -/
theorem not_less_of_mem_frontOf (ha : a ∈ frontOf less e xs) : less e a = false := by
  have hpass := List.mem_takeWhile_imp ha
  simpa using hpass

/-- The element is less than those behind it. -/
theorem WeakOrder.less_of_mem_backOf (hw : WeakOrder less) (hxs : InOrder less xs) (ha : a ∈ backOf less e xs) :
    less e a = true := by
  induction xs with
  | nil => exact absurd ha List.not_mem_nil
  | cons x xs ih =>
    obtain ⟨hx, hxs⟩ := List.pairwise_cons.mp hxs
    unfold backOf at ha ih
    cases hex : less e x with
    | false =>
      rw [List.dropWhile_cons_of_pos (by simp [hex])] at ha
      exact ih hxs ha
    | true =>
      rw [List.dropWhile_cons_of_neg (by simp [hex])] at ha
      rcases List.mem_cons.mp ha with rfl | ha
      · exact hex
      · exact hw.less_of_less hex (hx a ha)

/-- In front of the first greater one an element keeps the order. -/
theorem WeakOrder.inOrder_insertOrdered (hw : WeakOrder less) (hxs : InOrder less xs) :
    InOrder less (insertOrdered less e xs) := by
  have hparts := hxs
  rw [← frontOf_append_backOf less e xs, inOrder_append] at hparts
  obtain ⟨hfront, hback, hcross⟩ := hparts
  refine inOrder_append.mpr ⟨hfront, List.pairwise_cons.mpr ⟨fun b hb => ?_, hback⟩, fun a ha b hb => ?_⟩
  · exact hw.asymm (hw.less_of_mem_backOf hxs hb)
  · rcases List.mem_cons.mp hb with rfl | hb
    · exact not_less_of_mem_frontOf ha
    · exact hcross a ha b hb

/-! ## Adjacent equals -/

/-- What is kept and what is left out of the elements behind `x`. -/
def uniqueFrom (less : α → α → Bool) (x : α) : List α → List α × List α
  | [] => ([], [])
  | y :: ys =>
    if equal less x y then
      let r := uniqueFrom less x ys
      (r.1, y :: r.2)
    else
      let r := uniqueFrom less y ys
      (y :: r.1, r.2)

/-- The first of adjacent equals are kept, and the others left out. -/
def unique (less : α → α → Bool) : List α → List α × List α
  | [] => ([], [])
  | x :: xs => (x :: (uniqueFrom less x xs).1, (uniqueFrom less x xs).2)

/-- The list is made of groups: an element and those behind it that equal it. -/
structure Groups (less : α → α → Bool) (xs : List α) (groups : List (α × List α)) : Prop where
  flatten : xs = groups.flatMap fun g => g.1 :: g.2
  equals : ∀ g ∈ groups, ∀ y ∈ g.2, equal less g.1 y = true
  maximal : groups.IsChain fun g g' => equal less g.1 g'.1 = false

/-- Equals that follow each other are one group. -/
theorem uniqueFrom_groups (less : α → α → Bool) (x : α) (xs : List α) : ∃ equals rest,
    Groups less (x :: xs) ((x, equals) :: rest) ∧ (uniqueFrom less x xs).1 = rest.map Prod.fst ∧
      (uniqueFrom less x xs).2 = equals ++ rest.flatMap Prod.snd := by
  induction xs generalizing x with
  | nil => exact ⟨[], [], ⟨rfl, by simp, List.isChain_singleton _⟩, rfl, rfl⟩
  | cons y ys ih =>
    cases hxy : equal less x y with
    | true =>
      obtain ⟨equals, rest, hgroups, hkept, hleft⟩ := ih x
      refine ⟨y :: equals, rest, ⟨?_, ?_, ?_⟩, ?_, ?_⟩
      · simpa using hgroups.flatten
      · intro g hg z hz
        rcases List.mem_cons.mp hg with rfl | hg
        · rcases List.mem_cons.mp hz with rfl | hz
          · exact hxy
          · exact hgroups.equals (x, equals) List.mem_cons_self z hz
        · exact hgroups.equals g (List.mem_cons_of_mem _ hg) z hz
      · have hmax := hgroups.maximal
        cases rest with
        | nil => exact List.isChain_singleton _
        | cons g rest => exact List.isChain_cons_cons.mpr (List.isChain_cons_cons.mp hmax)
      · simp [uniqueFrom, hxy, hkept]
      · simp [uniqueFrom, hxy, hleft]
    | false =>
      obtain ⟨equals, rest, hgroups, hkept, hleft⟩ := ih y
      refine ⟨[], (y, equals) :: rest, ⟨?_, ?_, ?_⟩, ?_, ?_⟩
      · rw [List.flatMap_cons, ← hgroups.flatten]
        rfl
      · intro g hg z hz
        rcases List.mem_cons.mp hg with rfl | hg
        · exact absurd hz List.not_mem_nil
        · exact hgroups.equals g hg z hz
      · exact List.isChain_cons_cons.mpr ⟨hxy, hgroups.maximal⟩
      · simp [uniqueFrom, hxy, hkept]
      · simp [uniqueFrom, hxy, hleft]

/-- A list is its groups, and the first of each is kept. -/
theorem unique_groups (less : α → α → Bool) (xs : List α) : ∃ groups, Groups less xs groups ∧
    (unique less xs).1 = groups.map Prod.fst ∧ (unique less xs).2 = groups.flatMap Prod.snd := by
  cases xs with
  | nil => exact ⟨[], ⟨rfl, by simp, List.isChain_nil⟩, rfl, rfl⟩
  | cons x xs =>
    obtain ⟨equals, rest, hgroups, hkept, hleft⟩ := uniqueFrom_groups less x xs
    refine ⟨(x, equals) :: rest, hgroups, ?_, ?_⟩
    · simp [unique, hkept]
    · simp [unique, hleft]

end Pintos.Lib
