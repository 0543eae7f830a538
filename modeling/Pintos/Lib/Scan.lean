import Mathlib.Algebra.Order.Ring.Int
import Mathlib.Data.List.Basic

/-!
# Scanning a list for a maximum

Two loops over a list that keep a running maximum. `scanMax` keeps the element as
well and replaces it only by a STRICTLY larger one, so it answers the first element
with the largest key, and nothing when no key beats the starting bound. `foldMax`
keeps only the number.
-/

namespace Pintos.Lib

variable {α : Type*} (key : α → Int)

/-- The scan: `bound` is the largest key so far and `top` the element it came from. -/
def scanMax (bound : Int) (top : Option α) : List α → Option α
  | [] => top
  | x :: xs => if key x > bound then scanMax (key x) (some x) xs else scanMax bound top xs

/-- The first element of largest key: strictly larger than everything before it, at
least as large as everything after it. -/
def IsFirstMax (l : List α) (t : α) : Prop :=
  ∃ before after, l = before ++ t :: after ∧
    (∀ x ∈ before, key x < key t) ∧ ∀ x ∈ after, key x ≤ key t

variable {key}

theorem IsFirstMax.mem {l : List α} {t : α} (h : IsFirstMax key l t) : t ∈ l := by
  obtain ⟨before, after, rfl, _, _⟩ := h
  simp

theorem IsFirstMax.le {l : List α} {t : α} (h : IsFirstMax key l t) :
    ∀ x ∈ l, key x ≤ key t := by
  obtain ⟨before, after, rfl, hb, ha⟩ := h
  intro x hx
  rcases List.mem_append.mp hx with hx | hx
  · exact le_of_lt (hb x hx)
  · rcases List.mem_cons.mp hx with rfl | hx
    · exact le_refl _
    · exact ha x hx

/-- The first maximum reads the keys of the listed elements only. -/
theorem IsFirstMax.congr {key' : α → Int} {l : List α} {t : α} (h : IsFirstMax key l t)
    (hk : ∀ x ∈ l, key' x = key x) : IsFirstMax key' l t := by
  obtain ⟨before, after, rfl, hb, ha⟩ := h
  have ht : key' t = key t := hk t (by simp)
  refine ⟨before, after, rfl, fun x hx => ?_, fun x hx => ?_⟩
  · rw [ht, hk x (by simp [hx])]
    exact hb x hx
  · rw [ht, hk x (by simp [hx])]
    exact ha x hx

/-- With an incumbent, the scan answers the incumbent when nothing beats it, and else the
first maximum of the rest. -/
theorem scanMax_some (l : List α) (bound : Int) (c t : α) (h : scanMax key bound (some c) l = some t) :
    (t = c ∧ ∀ x ∈ l, key x ≤ bound) ∨ (IsFirstMax key l t ∧ bound < key t) := by
  induction l generalizing bound c with
  | nil =>
    left
    exact ⟨(Option.some.inj h).symm, by simp⟩
  | cons x xs ih =>
    unfold scanMax at h
    split at h
    next hgt =>
      right
      rcases ih (key x) x h with ⟨rfl, hle⟩ | ⟨⟨before, after, rfl, hb, ha⟩, hlt⟩
      · exact ⟨⟨[], xs, rfl, by simp, hle⟩, hgt⟩
      · refine ⟨⟨x :: before, after, rfl, ?_, ha⟩, by omega⟩
        intro y hy
        rcases List.mem_cons.mp hy with rfl | hy
        · exact hlt
        · exact hb y hy
    next hle =>
      rcases ih bound c h with ⟨rfl, hall⟩ | ⟨⟨before, after, rfl, hb, ha⟩, hlt⟩
      · left
        refine ⟨rfl, fun y hy => ?_⟩
        rcases List.mem_cons.mp hy with rfl | hy
        · omega
        · exact hall y hy
      · right
        refine ⟨⟨x :: before, after, rfl, ?_, ha⟩, hlt⟩
        intro y hy
        rcases List.mem_cons.mp hy with rfl | hy
        · omega
        · exact hb y hy

/-- What a scan that starts empty finds is the first maximum, and it beats the bound. -/
theorem scanMax_spec {l : List α} {bound : Int} {t : α} (h : scanMax key bound none l = some t) :
    IsFirstMax key l t ∧ bound < key t := by
  induction l with
  | nil => cases h
  | cons x xs ih =>
    unfold scanMax at h
    split at h
    next hgt =>
      rcases scanMax_some xs (key x) x t h with ⟨rfl, hle⟩ | ⟨⟨before, after, rfl, hb, ha⟩, hlt⟩
      · exact ⟨⟨[], xs, rfl, by simp, hle⟩, hgt⟩
      · refine ⟨⟨x :: before, after, rfl, ?_, ha⟩, by omega⟩
        intro y hy
        rcases List.mem_cons.mp hy with rfl | hy
        · exact hlt
        · exact hb y hy
    next hle =>
      obtain ⟨⟨before, after, rfl, hb, ha⟩, hlt⟩ := ih h
      refine ⟨⟨x :: before, after, rfl, ?_, ha⟩, hlt⟩
      intro y hy
      rcases List.mem_cons.mp hy with rfl | hy
      · omega
      · exact hb y hy

theorem scanMax_some_ne_none (l : List α) (bound : Int) (c : α) :
    scanMax key bound (some c) l ≠ none := by
  induction l generalizing bound c with
  | nil => simp [scanMax]
  | cons x xs ih =>
    unfold scanMax
    split
    · exact ih _ _
    · exact ih _ _

/-- A scan that starts empty stays empty exactly when no key beats the bound. -/
theorem scanMax_eq_none_iff {l : List α} {bound : Int} :
    scanMax key bound none l = none ↔ ∀ x ∈ l, key x ≤ bound := by
  induction l with
  | nil => simp [scanMax]
  | cons x xs ih =>
    unfold scanMax
    split
    next hgt =>
      constructor
      · intro h
        exact absurd h (scanMax_some_ne_none xs (key x) x)
      · intro h
        have := h x List.mem_cons_self
        omega
    next hle =>
      rw [ih, List.forall_mem_cons]
      exact ⟨fun h => ⟨by omega, h⟩, fun h => h.2⟩

/-- With all keys above the bound, the scan of a list with a member finds one. -/
theorem exists_scanMax (key : α → Int) (bound : Int) {l : List α} (hne : l ≠ [])
    (h : ∀ x ∈ l, bound < key x) : ∃ t ∈ l, scanMax key bound none l = some t := by
  cases hs : scanMax key bound none l with
  | some t => exact ⟨t, (scanMax_spec hs).1.mem, rfl⟩
  | none =>
    obtain ⟨x, hx⟩ := List.exists_mem_of_ne_nil l hne
    have := scanMax_eq_none_iff.mp hs x hx
    have := h x hx
    omega

/-- The running maximum of the keys, from `bound` up. -/
def foldMax (key : α → Int) (bound : Int) (l : List α) : Int :=
  l.foldl (fun m x => if m > key x then m else key x) bound

theorem foldMax_cons (bound : Int) (x : α) (xs : List α) :
    foldMax key bound (x :: xs) = foldMax key (if bound > key x then bound else key x) xs := rfl

/-- The running maximum is a maximum: no key and not the bound exceeds it, and one of them
is it. -/
theorem foldMax_spec (l : List α) (bound : Int) :
    bound ≤ foldMax key bound l ∧ (∀ x ∈ l, key x ≤ foldMax key bound l) ∧
      (foldMax key bound l = bound ∨ ∃ x ∈ l, key x = foldMax key bound l) := by
  induction l generalizing bound with
  | nil => exact ⟨le_refl _, by simp, .inl rfl⟩
  | cons x xs ih =>
    rw [foldMax_cons]
    obtain ⟨hb, hall, hex⟩ := ih (if bound > key x then bound else key x)
    have hmax : bound ≤ (if bound > key x then bound else key x) ∧
        key x ≤ (if bound > key x then bound else key x) := by
      split <;> omega
    refine ⟨by omega, ?_, ?_⟩
    · intro y hy
      rcases List.mem_cons.mp hy with rfl | hy
      · omega
      · exact hall y hy
    · rcases hex with hex | ⟨y, hy, hkey⟩
      · rw [hex]
        split
        · exact .inl rfl
        · exact .inr ⟨x, List.mem_cons_self, rfl⟩
      · exact .inr ⟨y, List.mem_cons_of_mem _ hy, hkey⟩

/-- A number that bounds the keys and the start, and is attained, is the running maximum. -/
theorem foldMax_eq {l : List α} {bound m : Int} (hb : bound ≤ m) (hall : ∀ x ∈ l, key x ≤ m)
    (hex : m = bound ∨ ∃ x ∈ l, key x = m) : foldMax key bound l = m := by
  obtain ⟨h1, h2, h3⟩ := @foldMax_spec α key l bound
  apply le_antisymm
  · rcases h3 with h3 | ⟨x, hx, hk⟩
    · omega
    · have := hall x hx
      omega
  · rcases hex with rfl | ⟨x, hx, rfl⟩
    · exact h1
    · exact h2 x hx

/-- The running maximum reads the keys of the listed elements only. -/
theorem foldMax_congr {key' : α → Int} {l : List α} {bound : Int}
    (h : ∀ x ∈ l, key x = key' x) : foldMax key bound l = foldMax key' bound l := by
  induction l generalizing bound with
  | nil => rfl
  | cons x xs ih =>
    rw [foldMax_cons, foldMax_cons, h x List.mem_cons_self]
    exact ih fun y hy => h y (List.mem_cons_of_mem _ hy)

/-- Keys may grow up to the running maximum without changing it. -/
theorem foldMax_of_le {key' : α → Int} {l : List α} {bound : Int}
    (hmono : ∀ x ∈ l, key x ≤ key' x) (hcap : ∀ x ∈ l, key' x ≤ foldMax key bound l) :
    foldMax key' bound l = foldMax key bound l := by
  obtain ⟨hb, _, hex⟩ := @foldMax_spec α key l bound
  apply foldMax_eq hb hcap
  rcases hex with hex | ⟨x, hx, hk⟩
  · exact .inl hex
  · right
    refine ⟨x, hx, le_antisymm (hcap x hx) ?_⟩
    rw [← hk]
    exact hmono x hx

end Pintos.Lib
