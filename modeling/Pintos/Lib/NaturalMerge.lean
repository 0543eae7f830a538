import Mathlib.Data.List.Perm.Basic
import Pintos.Lib.WeakOrder

/-!
# Natural merge sort

A pass takes runs, which are as long as the order allows, two at a time and puts their merge out
(`Pass`). It keeps equal elements in their order (`WeakOrder.pass_rearranges`), and what it puts out has
not more runs than it has put out, which are half of those it has taken (`WeakOrder.pass_runs_le`,
`Pass.count_le`). So the passes come to an end with one run, which is in order (`inOrder_of_runs_le_one`).
-/

namespace Pintos.Lib

variable {α : Type*} {less : α → α → Bool} {a b x : α} {xs ys zs A B : List α} {n : ℕ}

/-- The same elements, those that equal one another in the same order. -/
structure Rearranges (less : α → α → Bool) (xs ys : List α) : Prop where
  perm : ys.Perm xs
  stable : ∀ x, ys.filter (equal less x) = xs.filter (equal less x)

structure StableSort (less : α → α → Bool) (xs ys : List α) : Prop extends Rearranges less xs ys where
  inOrder : InOrder less ys

theorem Rearranges.refl (less : α → α → Bool) (xs : List α) : Rearranges less xs xs := ⟨.refl xs, fun _ => rfl⟩

/-- Rearrangements in turn are one. -/
theorem Rearranges.trans (h : Rearranges less xs ys) (h' : Rearranges less ys zs) : Rearranges less xs zs :=
  ⟨h'.perm.trans h.perm, fun x => (h'.stable x).trans (h.stable x)⟩

/-- Rearrangements side by side are one. -/
theorem Rearranges.append (hA : Rearranges less xs A) (hB : Rearranges less ys B) :
    Rearranges less (xs ++ ys) (A ++ B) :=
  ⟨hA.perm.append hB.perm, fun x => by rw [List.filter_append, List.filter_append, hA.stable, hB.stable]⟩

/-! ## Merging -/

/-- Of two elements that are equal, the one in `A` comes first. -/
def mergeRuns (less : α → α → Bool) (A B : List α) : List α := A.merge B fun a b => !less b a

/-- Nothing on the left leaves the right. -/
theorem mergeRuns_nil_left (less : α → α → Bool) (B : List α) : mergeRuns less [] B = B := List.nil_merge B

/-- Nothing on the right leaves the left. -/
theorem mergeRuns_nil_right (less : α → α → Bool) (A : List α) : mergeRuns less A [] = A := List.merge_right A

/-- A strictly smaller element of the right goes first. -/
theorem mergeRuns_cons_of_less (h : less b a = true) :
    mergeRuns less (a :: A) (b :: B) = b :: mergeRuns less (a :: A) B :=
  List.cons_merge_cons_neg _ _ _ (by simp [h])

/-- Otherwise the left goes first, which keeps the merge stable. -/
theorem mergeRuns_cons_of_not_less (h : less b a = false) :
    mergeRuns less (a :: A) (b :: B) = a :: mergeRuns less A (b :: B) :=
  List.cons_merge_cons_pos _ _ _ (by simp [h])

/-- Runs are merged by looking at their first elements. -/
theorem mergeRuns_induction (less : α → α → Bool) {P : List α → List α → Prop} (nilLeft : ∀ B, P [] B)
    (nilRight : ∀ A, P A []) (left : ∀ a A b B, less b a = false → P A (b :: B) → P (a :: A) (b :: B))
    (right : ∀ a A b B, less b a = true → P (a :: A) B → P (a :: A) (b :: B)) (A B : List α) : P A B := by
  induction A generalizing B with
  | nil => exact nilLeft B
  | cons a A ihA =>
    induction B with
    | nil => exact nilRight (a :: A)
    | cons b B ihB =>
      cases hba : less b a with
      | false => exact left a A b B hba (ihA (b :: B))
      | true => exact right a A b B hba ihB

/-- Nothing is lost in a merge. -/
theorem mergeRuns_perm (less : α → α → Bool) (A B : List α) : (mergeRuns less A B).Perm (A ++ B) :=
  List.merge_perm_append _

/-- Two runs in order merge to a list in order. -/
theorem WeakOrder.inOrder_mergeRuns (hw : WeakOrder less) (hA : InOrder less A) (hB : InOrder less B) :
    InOrder less (mergeRuns less A B) := by
  have hpair : ∀ {xs : List α}, InOrder less xs ↔ xs.Pairwise fun a b => (!less b a) = true := by
    simp [InOrder]
  refine hpair.mpr (List.pairwise_merge (fun a b c hab hbc => ?_) (fun a b => ?_) A B (hpair.mp hA) (hpair.mp hB))
  · rw [Bool.not_eq_true'] at hab hbc ⊢
    exact hw.not_less_trans hbc hab
  · rw [Bool.or_eq_true, Bool.not_eq_true', Bool.not_eq_true']
    by_cases hba : less b a = true
    · exact .inr (hw.asymm hba)
    · exact .inl (Bool.eq_false_iff.mpr hba)

/-- Merging keeps the order of equal elements. -/
theorem WeakOrder.rearranges_mergeRuns (hw : WeakOrder less) (hA : InOrder less A) :
    Rearranges less (A ++ B) (mergeRuns less A B) := by
  refine ⟨mergeRuns_perm less A B, fun x => ?_⟩
  revert hA
  induction A, B using mergeRuns_induction less with
  | nilLeft B => exact fun _ => congrArg _ (mergeRuns_nil_left less B)
  | nilRight A => exact fun _ => by rw [mergeRuns_nil_right, List.append_nil]
  | left a A b B hba ih =>
    intro hA
    rw [mergeRuns_cons_of_not_less hba, List.cons_append, List.filter_cons, List.filter_cons,
      ih (List.pairwise_cons.mp hA).2]
  | right a A b B hba ih =>
    intro hA
    rw [mergeRuns_cons_of_less hba, List.filter_cons, ih hA, List.filter_append, List.filter_append]
    cases hxb : equal less x b with
    | false =>
      have hskip : (b :: B).filter (equal less x) = B.filter (equal less x) :=
        List.filter_cons_of_neg (Bool.eq_false_iff.mp hxb)
      rw [hskip, if_neg Bool.false_ne_true]
    | true =>
      -- `b` is less than all of the first run, so none of it equals `x`
      have hnone : (a :: A).filter (equal less x) = [] := by
        rw [List.filter_eq_nil_iff]
        intro c hc hxc
        have hca : less c a = false := by
          rcases List.mem_cons.mp hc with rfl | hc
          · exact hw.irrefl c
          · exact (List.pairwise_cons.mp hA).1 c hc
        have hbc : less b c = true := hw.less_of_less hba hca
        have hbx : less b x = false := (equal_iff_not_less.mp hxb).2
        exact absurd hbc (Bool.eq_false_iff.mp (hw.not_less_trans hbx (equal_iff_not_less.mp hxc).1))
      rw [hnone, List.filter_cons_of_pos hxb, if_pos rfl]
      rfl

/-! ## Runs -/

/-- The run that `x` begins, less `x` itself, and what is behind it. -/
def runFrom (less : α → α → Bool) (x : α) : List α → List α × List α
  | [] => ([], [])
  | y :: ys =>
    if less y x then ([], y :: ys)
    else
      let r := runFrom less y ys
      (y :: r.1, r.2)

/-- The places where an element is less than the one in front of it. -/
def descents (less : α → α → Bool) (x : α) : List α → ℕ
  | [] => 0
  | y :: ys => (if less y x then 1 else 0) + descents less y ys

/-- The number of runs. -/
def runs (less : α → α → Bool) : List α → ℕ
  | [] => 0
  | x :: xs => 1 + descents less x xs

/-- Nothing is less than the element in front of it. -/
abbrev Ascends (less : α → α → Bool) (xs : List α) : Prop := xs.IsChain fun a b => less b a = false

theorem runs_cons (less : α → α → Bool) (x : α) (xs : List α) : runs less (x :: xs) = 1 + descents less x xs := rfl

theorem descents_cons (less : α → α → Bool) (x y : α) (ys : List α) :
    descents less x (y :: ys) = (if less y x then 1 else 0) + descents less y ys := rfl

/-- A run and what is behind it are the list. -/
theorem runFrom_append (less : α → α → Bool) (x : α) (xs : List α) :
    (runFrom less x xs).1 ++ (runFrom less x xs).2 = xs := by
  induction xs generalizing x with
  | nil => rfl
  | cons y ys ih =>
    unfold runFrom
    split
    · rfl
    · exact congrArg (y :: ·) (ih y)

theorem ascends_runFrom (less : α → α → Bool) (x : α) (xs : List α) : Ascends less (x :: (runFrom less x xs).1) := by
  induction xs generalizing x with
  | nil => exact List.isChain_singleton x
  | cons y ys ih =>
    unfold runFrom
    split
    · exact List.isChain_singleton x
    · rename_i hyx
      exact List.isChain_cons_cons.mpr ⟨Bool.eq_false_iff.mpr hyx, ih y⟩

/-- What ascends from one to the next is in order. -/
theorem WeakOrder.inOrder_of_ascends (hw : WeakOrder less) (hxs : Ascends less xs) : InOrder less xs := by
  have htrans : IsTrans α fun a b => less b a = false := ⟨fun a b c hab hbc => hw.not_less_trans hbc hab⟩
  exact List.isChain_iff_pairwise.mp hxs

/-- What is in order ascends from one to the next. -/
theorem Ascends.of_inOrder (hxs : InOrder less xs) : Ascends less xs := List.Pairwise.isChain hxs

/-- No descent, no second run. -/
theorem descents_eq_zero_iff : descents less x xs = 0 ↔ Ascends less (x :: xs) := by
  induction xs generalizing x with
  | nil => exact iff_of_true rfl (List.isChain_singleton x)
  | cons y ys ih =>
    rw [Ascends, List.isChain_cons_cons, ← Ascends, ← ih]
    cases hyx : less y x with
    | false => simp [descents, hyx]
    | true => simp [descents, hyx]

/-- One run is in order. -/
theorem WeakOrder.inOrder_of_runs_le_one (hw : WeakOrder less) (hxs : runs less xs ≤ 1) : InOrder less xs := by
  cases xs with
  | nil => exact List.Pairwise.nil
  | cons x xs =>
    rw [runs_cons] at hxs
    exact hw.inOrder_of_ascends (descents_eq_zero_iff.mp (by omega))

/-- An ascending list is one run at most. -/
theorem runs_le_one (hxs : Ascends less xs) : runs less xs ≤ 1 := by
  cases xs with
  | nil => exact Nat.zero_le 1
  | cons x xs => exact Nat.le_of_eq (congrArg (1 + ·) (descents_eq_zero_iff.mpr hxs))

/-- Where two lists are put together, runs are joined and none is parted. -/
theorem runs_append_le (less : α → α → Bool) (xs ys : List α) : runs less (xs ++ ys) ≤ runs less xs + runs less ys := by
  have hdescents : ∀ (x : α) (xs : List α), descents less x (xs ++ ys) ≤ descents less x xs + runs less ys := by
    intro x xs
    induction xs generalizing x with
    | nil =>
      cases ys with
      | nil => exact Nat.zero_le _
      | cons y ys =>
        rw [List.nil_append, descents_cons, runs_cons]
        split
        · exact Nat.le_add_left _ _
        · omega
    | cons z zs ih =>
      have := ih z
      rw [List.cons_append, descents_cons, descents_cons]
      omega
  cases xs with
  | nil => exact Nat.le_add_left _ _
  | cons x xs =>
    have := hdescents x xs
    rw [List.cons_append, runs_cons, runs_cons]
    omega

/-- The run that `x` begins counts as one. -/
theorem runs_eq_runFrom (less : α → α → Bool) (x : α) (xs : List α) :
    runs less (x :: xs) = 1 + runs less (runFrom less x xs).2 := by
  induction xs generalizing x with
  | nil => rfl
  | cons y ys ih =>
    have hy := ih y
    rw [runs_cons] at hy
    rw [runs_cons, descents_cons]
    unfold runFrom
    cases hyx : less y x with
    | false =>
      rw [if_neg Bool.false_ne_true, if_neg Bool.false_ne_true, Nat.zero_add]
      exact hy
    | true =>
      rw [if_pos rfl, if_pos rfl, runs_cons]

/-- There are no more runs than elements. -/
theorem runs_le_length (less : α → α → Bool) (xs : List α) : runs less xs ≤ xs.length := by
  induction xs with
  | nil => exact Nat.le_refl 0
  | cons x xs ih =>
    have hrun := runs_append_le less [x] xs
    have hone : runs less [x] ≤ 1 := runs_le_one (List.isChain_singleton x)
    rw [List.singleton_append] at hrun
    rw [List.length_cons]
    omega

/-! ## Passes -/

/-- A pass over a list, with what it puts out and the number of runs that this takes. -/
inductive Pass (less : α → α → Bool) : List α → List α → ℕ → Prop where
  | done : Pass less [] [] 0
  | single (x : α) (xs : List α) (hlast : (runFrom less x xs).2 = []) : Pass less (x :: xs) (x :: xs) 1
  | pair (x : α) (xs : List α) (y : α) (ys zs : List α) (n : ℕ) (hbehind : (runFrom less x xs).2 = y :: ys)
      (hrest : Pass less (runFrom less y ys).2 zs n) :
      Pass less (x :: xs) (mergeRuns less (x :: (runFrom less x xs).1) (y :: (runFrom less y ys).1) ++ zs) (n + 1)

/-- A pass rearranges the list. -/
theorem WeakOrder.pass_rearranges (hw : WeakOrder less) (hp : Pass less xs ys n) : Rearranges less xs ys := by
  induction hp with
  | done => exact .refl less []
  | single x xs hlast => exact .refl less (x :: xs)
  | pair x xs y ys zs n hbehind _ ih =>
    have hA : InOrder less (x :: (runFrom less x xs).1) := hw.inOrder_of_ascends (ascends_runFrom less x xs)
    have hmerge := (hw.rearranges_mergeRuns (B := y :: (runFrom less y ys).1) hA).append ih
    rwa [List.append_assoc, List.cons_append, List.cons_append, runFrom_append, ← hbehind, runFrom_append] at hmerge

/-- What a pass puts out. -/
theorem WeakOrder.pass_runs_le (hw : WeakOrder less) (hp : Pass less xs ys n) : runs less ys ≤ n := by
  induction hp with
  | done => exact Nat.le_refl 0
  | single x xs hlast =>
    rw [runs_eq_runFrom, hlast]
    exact Nat.le_refl 1
  | pair x xs y ys zs n hbehind _ ih =>
    have hA : InOrder less (x :: (runFrom less x xs).1) := hw.inOrder_of_ascends (ascends_runFrom less x xs)
    have hB : InOrder less (y :: (runFrom less y ys).1) := hw.inOrder_of_ascends (ascends_runFrom less y ys)
    have hone := runs_le_one (Ascends.of_inOrder (hw.inOrder_mergeRuns hA hB))
    have happend := runs_append_le less (mergeRuns less (x :: (runFrom less x xs).1) (y :: (runFrom less y ys).1)) zs
    omega

/-- What a pass takes. -/
theorem Pass.count_le (hp : Pass less xs ys n) : 2 * n ≤ runs less xs + 1 := by
  induction hp with
  | done => exact Nat.zero_le _
  | single x xs hlast => rw [runs_eq_runFrom, hlast]; exact Nat.le_refl 2
  | pair x xs y ys zs n hbehind _ ih =>
    rw [runs_eq_runFrom, hbehind, runs_eq_runFrom]
    omega

/-- After more than one run, the next pass has fewer. -/
theorem WeakOrder.pass_runs_lt (hw : WeakOrder less) (hp : Pass less xs ys n) (hn : 1 < n) :
    runs less ys < runs less xs := by
  have hle := hw.pass_runs_le hp
  have hcount := hp.count_le
  omega

end Pintos.Lib
