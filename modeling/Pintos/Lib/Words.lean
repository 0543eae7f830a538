import Mathlib.Algebra.Ring.Nat
import Mathlib.Data.List.TakeWhile

/-!
# Words

The words of a list: its longest runs without a separator. They are found from the front
(`words_eq`), and their number can be told from where a separator follows another element.
-/

namespace Pintos.Lib

variable {α : Type*} {p : α → Bool} {l t r : List α} {a c sep : α}

/-- The longest runs of elements that are no separators. -/
def words (p : α → Bool) (l : List α) : List (List α) := (l.splitOnP p).filter fun w => !w.isEmpty

@[simp] theorem words_nil : words p ([] : List α) = [] := by simp [words]

theorem words_append_sep (hsep : p sep = true) (l r : List α) :
    words p (l ++ sep :: r) = words p l ++ words p r := by
  unfold words
  rw [List.splitOnP_append_cons l r hsep, List.filter_append]

/-- Separators in front do not count. -/
theorem words_sep_cons (hsep : p sep = true) (l : List α) : words p (sep :: l) = words p l := by
  have h := words_append_sep hsep [] l
  rwa [words_nil, List.nil_append, List.nil_append] at h

theorem words_seps_append (h : ∀ x ∈ t, p x = true) (l : List α) : words p (t ++ l) = words p l := by
  induction t with
  | nil => rfl
  | cons a t ih =>
    rw [List.cons_append, words_sep_cons (h a List.mem_cons_self)]
    exact ih fun x hx => h x (List.mem_cons_of_mem a hx)

theorem words_dropWhile (l : List α) : words p (l.dropWhile p) = words p l := by
  induction l with
  | nil => rfl
  | cons a l ih =>
    rw [List.dropWhile_cons]
    split
    next ha => rw [ih, words_sep_cons ha]
    next => rfl

/-- A list without separators is one word. -/
theorem words_word (ht : t ≠ []) (h : ∀ x ∈ t, p x = false) : words p t = [t] := by
  unfold words
  rw [List.splitOnP_eq_singleton h]
  simp [ht]

/-- What follows the first word. -/
theorem words_word_append (ht : t ≠ []) (h : ∀ x ∈ t, p x = false)
    (hr : ∀ x ∈ r.head?, p x = true) : words p (t ++ r) = t :: words p r.tail := by
  cases r with
  | nil => rw [List.append_nil, words_word ht h, List.tail_nil, words_nil]
  | cons sep r =>
    rw [words_append_sep (hr sep rfl), words_word ht h]
    rfl

/-- The head of what is left when elements are dropped. -/
theorem head_dropWhile_not (l : List α) : ∀ x ∈ (l.dropWhile fun x => !p x).head?, p x = true := by
  induction l with
  | nil => simp
  | cons a l ih =>
    rw [List.dropWhile_cons]
    split
    next => exact ih
    next ha => simpa using ha

/-- The words of a list that starts with one. -/
theorem words_cons (ha : p a = false) (l : List α) :
    words p (a :: l) = (a :: l.takeWhile fun x => !p x) ::
      words p (l.dropWhile fun x => !p x).tail := by
  have h : ∀ x ∈ a :: l.takeWhile fun x => !p x, p x = false := by
    intro x hx
    rcases List.mem_cons.mp hx with rfl | hx
    · exact ha
    · simpa using List.mem_takeWhile_imp hx
  have hwords := words_word_append (List.cons_ne_nil _ _) h (head_dropWhile_not l)
  rwa [List.cons_append, List.takeWhile_append_dropWhile] at hwords

/-- A list that is not all separators has a word. -/
theorem words_ne_nil (h : ∃ x ∈ l, p x = false) : words p l ≠ [] := by
  induction l with
  | nil =>
    obtain ⟨x, hx, _⟩ := h
    cases hx
  | cons a l ih =>
    by_cases ha : p a = true
    · rw [words_sep_cons ha]
      apply ih
      obtain ⟨x, hx, hpx⟩ := h
      rcases List.mem_cons.mp hx with rfl | hx
      · rw [hpx] at ha
        cases ha
      · exact ⟨x, hx, hpx⟩
    · rw [words_cons (by simpa using ha)]
      exact List.cons_ne_nil _ _

/-- A word that is one element longer is still one word. -/
theorem length_words_cons_cons (ha : p a = false) (hc : p c = false) (l : List α) :
    (words p (a :: c :: l)).length = (words p (c :: l)).length := by
  rw [words_cons ha, words_cons hc]
  simp [hc]

theorem words_cons_sep (ha : p a = false) (hsep : p sep = true) (l : List α) :
    words p (a :: sep :: l) = [a] :: words p l := by
  rw [words_cons ha]
  simp [hsep]

/-- All the words together are no longer than the list, one separator for each being counted. -/
theorem sum_length_words (l : List α) :
    ((words p l).map fun w => w.length + 1).sum ≤ l.length + 1 := by
  induction hn : l.length using Nat.strongRecOn generalizing l with
  | _ n ih =>
    cases l with
    | nil => simp
    | cons a l =>
      rw [List.length_cons] at hn
      by_cases ha : p a = true
      · rw [words_sep_cons ha]
        have := ih l.length (by omega) l rfl
        omega
      · have ha' : p a = false := by simpa using ha
        have hsplit := congrArg List.length
          (List.takeWhile_append_dropWhile (p := fun x => !p x) (l := l))
        rw [List.length_append] at hsplit
        rw [words_cons ha', List.map_cons, List.sum_cons, List.length_cons]
        cases hr : l.dropWhile fun x => !p x with
        | nil =>
          rw [hr] at hsplit
          simp at hsplit ⊢
          omega
        | cons sep r =>
          rw [hr, List.length_cons] at hsplit
          have := ih r.length (by omega) r rfl
          rw [List.tail_cons]
          omega

end Pintos.Lib
