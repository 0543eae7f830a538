import Mathlib.Data.List.Nodup
import Pintos.Lib.Scan

/-!
# Queues in order of arrival

A queue whose elements carry the time they joined. `Stamped stamp clock l` says that the list is
in that order and that the clock is ahead of every stamp. Joining at the back with the current
time and leaving from anywhere keep it, and then the first maximum of a scan is, among the
elements of largest key, the one that has waited longest.
-/

namespace Pintos.Lib

variable {α : Type*} [DecidableEq α]

/-- In order of arrival. -/
structure Stamped (stamp : α → Nat) (clock : Nat) (l : List α) : Prop where
  sorted : l.Pairwise fun a b => stamp a < stamp b
  past : ∀ a ∈ l, stamp a < clock

variable {stamp : α → Nat} {clock : Nat} {l : List α}

/-- Joining at the back. -/
theorem Stamped.push {t : α} (h : Stamped stamp clock l) (ht : t ∉ l) :
    Stamped (Function.update stamp t clock) (clock + 1) (l ++ [t]) := by
  have hold : ∀ a ∈ l, Function.update stamp t clock a = stamp a := by
    intro a ha
    have hne : a ≠ t := fun he => ht (he ▸ ha)
    exact Function.update_of_ne hne _ _
  constructor
  · refine List.pairwise_append.mpr ⟨?_, List.pairwise_singleton _ _, ?_⟩
    · refine h.sorted.imp_of_mem fun ha hb hab => ?_
      rw [hold _ ha, hold _ hb]
      exact hab
    · intro a ha b hb
      rw [List.mem_singleton.mp hb, hold a ha, Function.update_self]
      exact h.past a ha
  · intro a ha
    rcases List.mem_append.mp ha with ha | ha
    · rw [hold a ha]
      exact Nat.lt_succ_of_lt (h.past a ha)
    · rw [List.mem_singleton.mp ha, Function.update_self]
      exact Nat.lt_succ_self clock

/-- Leaving. -/
theorem Stamped.erase (h : Stamped stamp clock l) (t : α) : Stamped stamp clock (l.erase t) :=
  ⟨h.sorted.sublist List.erase_sublist, fun a ha => h.past a (List.mem_of_mem_erase ha)⟩

/-- The first maximum is the oldest maximum. -/
theorem Stamped.oldest {key : α → Int} {t : α} (h : Stamped stamp clock l)
    (hmax : IsFirstMax key l t) :
    ∀ x ∈ l.erase t, key x < key t ∨ (key x = key t ∧ stamp t < stamp x) := by
  obtain ⟨before, after, rfl, hb, ha⟩ := hmax
  have hnot : t ∉ before := fun hm => lt_irrefl _ (hb t hm)
  intro x hx
  rw [List.erase_append_right _ hnot, List.erase_cons_head] at hx
  rcases List.mem_append.mp hx with hx | hx
  · exact .inl (hb x hx)
  · rcases lt_or_eq_of_le (ha x hx) with hlt | heq
    · exact .inl hlt
    · have hpair := (List.pairwise_append.mp h.sorted).2.1
      exact .inr ⟨heq, (List.pairwise_cons.mp hpair).1 x hx⟩

end Pintos.Lib
