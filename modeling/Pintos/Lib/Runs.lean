import Mathlib.Order.Basic
import Pintos.Lib.Words

/-!
# Runs

The runs of a list are its longest parts without a separator, each given by where it starts and where
it ends. `RunsFrom` finds them one by one from the front; the lists it builds are the runs in order
(`RunsFrom.mem_iff`, `RunsFrom.pairwise`), and there always is one (`exists_runsFrom`). What is in the
runs are the words (`RunsFrom.words_eq`).
-/

namespace Pintos.Lib

variable {α : Type*} {p : α → Prop} {l : List α} {a i j k : Nat} {rs : List (Nat × Nat)}

/-- What the elements from `i` on and before `j` are. -/
def AllIn (p : α → Prop) (l : List α) (i j : Nat) : Prop :=
  ∀ k c, i ≤ k → k < j → l[k]? = some c → p c

/-- A longest part without a separator, from `i` on and before `j`. -/
structure IsRun (p : α → Prop) (l : List α) (i j : Nat) : Prop where
  lt : i < j
  le : j ≤ l.length
  inside : AllIn (fun c => ¬p c) l i j
  before : ∀ k c, k + 1 = i → l[k]? = some c → p c
  after : ∀ c, l[j]? = some c → p c

/-- The runs from a position on, each found behind the separators that come first. -/
inductive RunsFrom (p : α → Prop) (l : List α) : Nat → List (Nat × Nat) → Prop
  | done {a : Nat} (h : AllIn p l a l.length) : RunsFrom p l a []
  | run {a i j : Nat} {rs : List (Nat × Nat)} (hai : a ≤ i) (hskip : AllIn p l a i) (hlt : i < j)
      (hle : j ≤ l.length) (hin : AllIn (fun c => ¬p c) l i j) (hafter : ∀ c, l[j]? = some c → p c)
      (hrest : RunsFrom p l (min (j + 1) l.length) rs) : RunsFrom p l a ((i, j) :: rs)

/-- No run goes on at this position. -/
def IsBoundary (p : α → Prop) (l : List α) (a : Nat) : Prop :=
  ∀ k c, k + 1 = a → a < l.length → l[k]? = some c → p c

theorem isBoundary_zero : IsBoundary p l 0 := fun k _ h => absurd h (Nat.succ_ne_zero k)

theorem isBoundary_after (hafter : ∀ c, l[j]? = some c → p c) : IsBoundary p l (min (j + 1) l.length) := by
  intro k c hk hlt hc
  have heq : k = j := by omega
  exact hafter c (heq ▸ hc)

/-- An element is a separator or not. -/
theorem AllIn.absurd (h : AllIn p l a j) (h' : AllIn (fun c => ¬p c) l i k) {b : Nat} (hb : b < l.length)
    (hin : a ≤ b ∧ b < j) (hin' : i ≤ b ∧ b < k) : False :=
  h' b l[b] hin'.1 hin'.2 (List.getElem?_eq_getElem hb) (h b l[b] hin.1 hin.2 (List.getElem?_eq_getElem hb))

theorem allIn_single (h : ∀ c, l[j]? = some c → p c) : AllIn p l j (j + 1) := by
  intro k c hk hlt hc
  have heq : k = j := by omega
  exact h c (heq ▸ hc)

/-- A run ends where another would that starts there. -/
theorem IsRun.end_le {j' : Nat} (h : IsRun p l i j) (hin : AllIn (fun c => ¬p c) l i j') (hle : j' ≤ l.length) :
    j' ≤ j := by
  by_contra hgt
  exact (allIn_single h.after).absurd hin (show j < l.length by omega) ⟨Nat.le_refl j, by omega⟩
    ⟨Nat.le_of_lt h.lt, by omega⟩

/-- The runs that start at the position or behind it. -/
theorem RunsFrom.mem_iff (h : RunsFrom p l a rs) : IsBoundary p l a →
    ∀ i j, (i, j) ∈ rs ↔ IsRun p l i j ∧ a ≤ i := by
  induction h with
  | done hall =>
    refine fun _ i j => iff_of_false List.not_mem_nil fun ⟨hrun, hai⟩ => ?_
    have hlt := hrun.lt
    have hle := hrun.le
    exact hall.absurd hrun.inside (show i < _ by omega) ⟨hai, by omega⟩ ⟨Nat.le_refl i, hlt⟩
  | @run a i₀ j₀ rs hai hskip hlt hle hin hafter hrest ih =>
    intro hb i j
    have hfirst : IsRun p l i₀ j₀ := by
      refine ⟨hlt, hle, hin, fun k c hk hc => ?_, hafter⟩
      by_cases hka : a ≤ k
      · exact hskip k c hka (by omega) hc
      · exact hb k c (by omega) (by omega) hc
    rw [List.mem_cons, ih (isBoundary_after hafter)]
    constructor
    · rintro (heq | ⟨hrun, hij⟩)
      · obtain ⟨rfl, rfl⟩ := Prod.mk.inj heq
        exact ⟨hfirst, hai⟩
      · exact ⟨hrun, by omega⟩
    · rintro ⟨hrun, hij⟩
      have hlt' := hrun.lt
      have hle' := hrun.le
      rcases Nat.lt_trichotomy i i₀ with hbefore | rfl | hbehind
      · -- Between the position and the first run there are separators only.
        exact (hskip.absurd hrun.inside (show i < l.length by omega) ⟨hij, hbefore⟩
          ⟨Nat.le_refl i, hlt'⟩).elim
      · exact .inl (congrArg _ (Nat.le_antisymm (hfirst.end_le hrun.inside hle') (hrun.end_le hin hle)))
      · -- A run does not start inside another, nor where that ends.
        refine .inr ⟨hrun, ?_⟩
        by_contra hsmall
        have hij₀ : i ≤ j₀ := by omega
        rcases Nat.lt_or_eq_of_le hij₀ with hin₀ | rfl
        · have hbefore : AllIn p l (i - 1) i := fun k c hk hki hc => hrun.before k c (by omega) hc
          exact hbefore.absurd hin (show i - 1 < l.length by omega) ⟨Nat.le_refl _, by omega⟩
            ⟨by omega, by omega⟩
        · exact (allIn_single hafter).absurd hrun.inside (show i < l.length by omega)
            ⟨Nat.le_refl i, by omega⟩ ⟨Nat.le_refl i, hlt'⟩

/-- They are in order, with a separator between them. -/
theorem RunsFrom.pairwise (h : RunsFrom p l a rs) : rs.Pairwise fun r r' => r.2 < r'.1 := by
  induction h with
  | done => exact List.Pairwise.nil
  | run hai hskip hlt hle hin hafter hrest ih =>
    refine List.pairwise_cons.mpr ⟨fun r hr => ?_, ih⟩
    obtain ⟨hrun, hle'⟩ := (hrest.mem_iff (isBoundary_after hafter) r.1 r.2).mp hr
    have hlt' := hrun.lt
    have hend := hrun.le
    dsimp only
    omega

/-- The elements of a kind from a position on. -/
theorem exists_allIn (p : α → Prop) (l : List α) (ha : a ≤ l.length) :
    ∃ i, a ≤ i ∧ i ≤ l.length ∧ AllIn p l a i ∧ ∀ c, l[i]? = some c → ¬p c := by
  induction hn : l.length - a generalizing a with
  | zero =>
    refine ⟨a, Nat.le_refl a, ha, fun k c hk hlt => absurd hk (by omega), fun c hc => ?_⟩
    have hlt := (List.getElem?_eq_some_iff.mp hc).1
    omega
  | succ n ih =>
    by_cases hp : p l[a]
    · obtain ⟨i, hai, hil, hall, hstop⟩ := ih (a := a + 1) (by omega) (by omega)
      refine ⟨i, by omega, hil, fun k c hk hlt hc => ?_, hstop⟩
      by_cases hka : k = a
      · subst hka
        rw [List.getElem?_eq_getElem (by omega)] at hc
        exact Option.some.inj hc ▸ hp
      · exact hall k c (by omega) hlt hc
    · refine ⟨a, Nat.le_refl a, ha, fun k c hk hlt => absurd hk (by omega), fun c hc => ?_⟩
      rw [List.getElem?_eq_getElem (by omega)] at hc
      exact Option.some.inj hc ▸ hp

theorem exists_runsFrom (p : α → Prop) (l : List α) (a : Nat) (ha : a ≤ l.length) :
    ∃ rs, RunsFrom p l a rs := by
  induction hn : l.length - a using Nat.strongRecOn generalizing a with
  | _ n ih =>
    obtain ⟨i, hai, hil, hskip, hstart⟩ := exists_allIn p l ha
    by_cases hend : i = l.length
    · exact ⟨[], .done (hend ▸ hskip)⟩
    · obtain ⟨j, hij, hjl, hin, hafter⟩ := exists_allIn (fun c => ¬p c) l hil
      have hlt : i < j := by
        by_contra hle
        have heq : j = i := by omega
        obtain ⟨c, hc⟩ : ∃ c, l[i]? = some c := ⟨_, List.getElem?_eq_getElem (show i < l.length by omega)⟩
        exact hafter c (heq ▸ hc) (hstart c hc)
      obtain ⟨rs, hrs⟩ := ih (l.length - min (j + 1) l.length) (by omega) (min (j + 1) l.length)
        (Nat.min_le_right _ _) rfl
      exact ⟨(i, j) :: rs, .run hai hskip hlt hjl hin (fun c hc => not_not.mp (hafter c hc)) hrs⟩

/-! ## Words -/

/-- The elements from `i` on and before `j`. -/
def between (l : List α) (i j : Nat) : List α := (l.drop i).take (j - i)

theorem AllIn.of_mem_between (h : AllIn p l i j) : ∀ c ∈ between l i j, p c := by
  intro c hc
  obtain ⟨k, hk⟩ := List.mem_iff_getElem?.mp hc
  unfold between at hk
  rw [List.getElem?_take] at hk
  split at hk
  next hlt =>
    rw [List.getElem?_drop] at hk
    exact h (i + k) c (by omega) (by omega) hk
  next => cases hk

theorem between_append_drop (hij : i ≤ j) : between l i j ++ l.drop j = l.drop i := by
  unfold between
  have hsum : j = i + (j - i) := by omega
  rw [hsum, ← List.drop_drop, Nat.add_sub_cancel_left, List.take_append_drop]

/-- The words are what is in the runs. -/
theorem RunsFrom.words_eq {p : α → Bool} (h : RunsFrom (fun c => p c = true) l a rs) :
    rs.map (fun r => between l r.1 r.2) = words p (l.drop a) := by
  induction h with
  | @done a hall =>
    have hall_eq : between l a l.length = l.drop a := List.take_of_length_le (by rw [List.length_drop])
    have hwords := words_seps_append (hall_eq ▸ hall.of_mem_between) []
    rw [List.append_nil, words_nil] at hwords
    exact hwords.symm
  | @run a i j rs hai hskip hlt hle hin hafter hrest ih =>
    have hne : between l i j ≠ [] := by
      refine List.ne_nil_of_length_pos ?_
      unfold between
      rw [List.length_take, List.length_drop]
      omega
    have hhead : ∀ x ∈ (l.drop j).head?, p x = true := by
      rw [List.head?_drop]
      exact hafter
    have htail : (l.drop j).tail = l.drop (min (j + 1) l.length) := by
      rw [List.tail_drop]
      rcases Nat.lt_or_eq_of_le hle with hjlt | rfl
      · rw [Nat.min_eq_left hjlt]
      · rw [Nat.min_eq_right (by omega), List.drop_eq_nil_of_le (by omega), List.drop_length]
    rw [List.map_cons, ih, ← between_append_drop hai, words_seps_append hskip.of_mem_between,
      ← between_append_drop (Nat.le_of_lt hlt), words_word_append hne
        (fun x hx => Bool.eq_false_iff.mpr (hin.of_mem_between x hx)) hhead, htail]

end Pintos.Lib
