import Mathlib.Data.List.Basic
import Mathlib.Logic.Function.Basic

/-!
# Ring buffers

A buffer of `size` places with a position to write at, `head`, and one to read from, `tail`. The two
are equal when it is empty, so one place always stays free: it is full when the position after `head`
is `tail`. The contents are the places from `tail` up to `head`, around the end. A `put` appends to
them and a `get` takes their first.
-/

namespace Pintos.Lib

variable {α : Type*} {size i : Int}

structure Ring (α : Type*) where
  buf : Int → α
  head : Int
  tail : Int

namespace Ring

/-- The position after `pos`. -/
def next (size pos : Int) : Int := (pos + 1).tmod size

/-- A position counted past the end. -/
def wrap (size i : Int) : Int := if i < size then i else i - size

def Empty (r : Ring α) : Prop := r.head = r.tail

def Full (size : Int) (r : Ring α) : Prop := next size r.head = r.tail

instance (r : Ring α) : Decidable r.Empty := inferInstanceAs (Decidable (_ = _))

instance (r : Ring α) : Decidable (r.Full size) := inferInstanceAs (Decidable (_ = _))

/-- Writes at `head`. -/
def put (size : Int) (x : α) (r : Ring α) : Ring α :=
  { r with buf := Function.update r.buf r.head x, head := next size r.head }

/-- What `tail` reads. -/
def first (r : Ring α) : α := r.buf r.tail

/-- Steps over what `tail` reads. -/
def drop (size : Int) (r : Ring α) : Ring α := { r with tail := next size r.tail }

/-- Both positions are places of the buffer. -/
structure InRange (size : Int) (r : Ring α) : Prop where
  head : 0 ≤ r.head ∧ r.head < size
  tail : 0 ≤ r.tail ∧ r.tail < size

/-- How many places are in use. -/
def count (size : Int) (r : Ring α) : Int :=
  if r.tail ≤ r.head then r.head - r.tail else r.head - r.tail + size

def contents (size : Int) (r : Ring α) : List α :=
  (List.range (r.count size).toNat).map fun j : Nat => r.buf (wrap size (r.tail + j))

variable {r : Ring α}

/-- The next place is one further, round the end. -/
theorem next_eq_wrap (h : 0 ≤ i ∧ i < size) : next size i = wrap size (i + 1) := by
  unfold next wrap
  split
  next hlt => exact Int.tmod_eq_of_lt (by omega) hlt
  next hge =>
    have hend : i + 1 = size := by omega
    rw [hend, Int.tmod_self, Int.sub_self]

/-- A place is in the ring. -/
theorem wrap_range (h : 0 ≤ i ∧ i < 2 * size) : 0 ≤ wrap size i ∧ wrap size i < size := by
  unfold wrap
  split <;> omega

/-- The next place is in the ring, too. -/
theorem next_range (h : 0 ≤ i ∧ i < size) : 0 ≤ next size i ∧ next size i < size := by
  rw [next_eq_wrap h]
  exact wrap_range (by omega)

/-- A ring with one more element is in range. -/
theorem InRange.put {x : α} (h : r.InRange size) : (r.put size x).InRange size :=
  ⟨next_range h.head, h.tail⟩

/-- A ring with one element less is in range. -/
theorem InRange.drop (h : r.InRange size) : (r.drop size).InRange size :=
  ⟨h.head, next_range h.tail⟩

/-- A ring is empty where head and tail meet. -/
theorem InRange.contents_eq_nil (h : r.InRange size) : r.contents size = [] ↔ r.Empty := by
  obtain ⟨hhead, htail⟩ := h
  unfold contents Empty
  rw [List.map_eq_nil_iff, List.range_eq_nil]
  unfold count
  split <;> omega

/-- The places in use before `head` are not `head`. -/
theorem InRange.wrap_ne_head (h : r.InRange size) {j : Nat} (hj : (j : Int) < r.count size) :
    wrap size (r.tail + j) ≠ r.head := by
  obtain ⟨hhead, htail⟩ := h
  unfold count at hj
  unfold wrap
  split at hj <;> split <;> omega

/-- The head is as far from the tail as there are elements. -/
theorem InRange.wrap_count (h : r.InRange size) : wrap size (r.tail + r.count size) = r.head := by
  obtain ⟨hhead, htail⟩ := h
  unfold count wrap
  split <;> split <;> omega

theorem InRange.count_nonneg (h : r.InRange size) : 0 ≤ r.count size := by
  obtain ⟨hhead, htail⟩ := h
  unfold count
  split <;> omega

/-- There are fewer elements than places. -/
theorem InRange.count_lt (h : r.InRange size) : r.count size < size := by
  obtain ⟨hhead, htail⟩ := h
  unfold count
  split <;> omega

/-- Where there is room a `put` uses one more place. -/
theorem InRange.count_put {x : α} (h : r.InRange size) (hf : ¬ r.Full size) :
    (r.put size x).count size = r.count size + 1 := by
  obtain ⟨hhead, htail⟩ := h
  unfold Full at hf
  unfold Ring.put count
  dsimp only
  rw [next_eq_wrap hhead] at hf ⊢
  unfold wrap at hf ⊢
  split at hf <;> split <;> split <;> omega

/-- A `put` appends. -/
theorem InRange.contents_put {x : α} (h : r.InRange size) (hf : ¬ r.Full size) :
    (r.put size x).contents size = r.contents size ++ [x] := by
  have hnn := h.count_nonneg
  have hsucc : (r.count size + 1).toNat = (r.count size).toNat + 1 := by omega
  unfold contents
  rw [h.count_put hf, hsucc, List.range_succ, List.map_append, List.map_singleton]
  congr 1
  · apply List.map_congr_left
    intro j hj
    have hj' := List.mem_range.mp hj
    exact Function.update_of_ne (h.wrap_ne_head (by omega)) _ _
  · have hlast : wrap size (r.tail + ((r.count size).toNat : Int)) = r.head := by
      rw [Int.toNat_of_nonneg hnn]
      exact h.wrap_count
    show [Function.update r.buf r.head x (wrap size (r.tail + ((r.count size).toNat : Int)))] = [x]
    rw [hlast, Function.update_self]

/-- A `get` takes the first. -/
theorem InRange.contents_drop (h : r.InRange size) (he : ¬ r.Empty) :
    r.contents size = r.first :: (r.drop size).contents size := by
  obtain ⟨hhead, htail⟩ := h
  unfold Empty at he
  have hnext : r.tail + 1 = size ∧ next size r.tail = 0 ∨
      r.tail + 1 < size ∧ next size r.tail = r.tail + 1 := by
    rw [next_eq_wrap htail]
    unfold wrap
    split <;> omega
  have hcount : (r.count size).toNat = ((r.drop size).count size).toNat + 1 := by
    unfold Ring.drop count
    dsimp only
    split <;> split <;> omega
  unfold contents
  rw [hcount, List.range_succ_eq_map, List.map_cons, List.map_map]
  congr 1
  · unfold first wrap
    rw [if_pos (by simpa using htail.2)]
    simp
  · apply List.map_congr_left
    intro j hj
    have hj' := List.mem_range.mp hj
    show r.buf (wrap size (r.tail + (j + 1 : Nat))) = r.buf (wrap size (next size r.tail + j))
    congr 1
    unfold Ring.drop count at hj'
    dsimp only at hj'
    unfold wrap
    split at hj' <;> split <;> split <;> omega

/-- After a `put` it is not empty. -/
theorem not_empty_put {x : α} (hf : ¬ r.Full size) : ¬ (r.put size x).Empty := hf

/-- After a `get` it is not full. -/
theorem InRange.not_full_drop (h : r.InRange size) (he : ¬ r.Empty) : ¬ (r.drop size).Full size := by
  obtain ⟨hhead, htail⟩ := h
  unfold Empty at he
  unfold Full Ring.drop
  dsimp only
  rw [next_eq_wrap hhead, next_eq_wrap htail]
  unfold wrap
  split <;> split <;> omega

end Ring

end Pintos.Lib
