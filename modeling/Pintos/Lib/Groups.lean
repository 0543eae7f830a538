import Mathlib.Data.List.Basic
import Mathlib.Order.Bounds.Basic

/-!
# Groups of equal values

`Group xs i cnt v` says that the `cnt` values of `xs` from `i` on are there and all equal to `v`.
`scan` finds the first group at or after a position: `scan_eq_some` gives it as a least position, and
`scan_eq_none` says when there is none. `fill` makes a group.
-/

namespace Pintos.Lib

variable {α : Type} {xs : List α} {i start cnt : Nat} {v : α}

/-- The `cnt` values from `i` on are `v`. -/
def Group (xs : List α) (i cnt : Nat) (v : α) : Prop :=
  i + cnt ≤ xs.length ∧ ∀ j < cnt, xs[i + j]? = some v

instance [DecidableEq α] : Decidable (Group xs i cnt v) := inferInstanceAs (Decidable (_ ∧ _))

/-- The values from `start` on, as many as `cnt`, become `v`. -/
def fill (xs : List α) (start cnt : Nat) (v : α) : List α :=
  xs.mapIdx fun i x => if start ≤ i ∧ i < start + cnt then v else x

/-- The first group of `cnt` values `v` at or after `start`. -/
def scan [DecidableEq α] (xs : List α) (start cnt : Nat) (v : α) : Option Nat :=
  (List.range' start (xs.length + 1 - cnt - start)).find? fun i => Group xs i cnt v

/-! ## Filling -/

@[simp] theorem length_fill (xs : List α) (start cnt : Nat) (v : α) :
    (fill xs start cnt v).length = xs.length := List.length_mapIdx

theorem getElem?_fill (xs : List α) (start cnt : Nat) (v : α) (i : Nat) :
    (fill xs start cnt v)[i]? =
      if start ≤ i ∧ i < start + cnt then xs[i]?.map fun _ => v else xs[i]? := by
  rw [fill, List.getElem?_mapIdx]
  split
  next => rfl
  next => exact Option.map_id'

/-! ## Scanning -/

/-- What a scan finds is the least position of a group. -/
theorem scan_eq_some [DecidableEq α] :
    scan xs start cnt v = some i ↔ IsLeast {k | start ≤ k ∧ Group xs k cnt v} i := by
  rw [scan, List.find?_range'_eq_some]
  constructor
  · rintro ⟨hgroup, hmem, hbefore⟩
    rw [List.mem_range'_1] at hmem
    refine ⟨⟨hmem.1, of_decide_eq_true hgroup⟩, fun k hk => ?_⟩
    by_contra hlt
    have hno := hbefore k hk.1 (by omega)
    rw [decide_eq_true hk.2] at hno
    cases hno
  · rintro ⟨⟨hstart, hgroup⟩, hleast⟩
    have hlen := hgroup.1
    refine ⟨decide_eq_true hgroup, ?_, fun k hk hki => ?_⟩
    · rw [List.mem_range'_1]
      omega
    · by_contra hno
      have hk' : Group xs k cnt v := by simpa using hno
      have hle : i ≤ k := hleast ⟨hk, hk'⟩
      omega

/-- A scan fails when there is no group. -/
theorem scan_eq_none [DecidableEq α] :
    scan xs start cnt v = none ↔ ∀ k, start ≤ k → ¬ Group xs k cnt v := by
  rw [scan, List.find?_eq_none]
  constructor
  · intro h k hk hgroup
    have hlen := hgroup.1
    exact h k (List.mem_range'_1.mpr (by omega)) (decide_eq_true hgroup)
  · intro h k hk hgroup
    exact h k (List.mem_range'_1.mp hk).1 (of_decide_eq_true hgroup)

end Pintos.Lib
