import Mathlib.Algebra.Ring.Nat
import Mathlib.Tactic.Ring

/-!
# Bytes

Numbers as bytes, least significant first, and fields of a run of bytes: `slice bs ofs n` is what
stands at `ofs`. A record is written as a sequence of pieces, so its fields are read off with
`slice_append_left` and `slice_append_right`, and a table of records of one length with
`slice_flatMap`.
-/

namespace Pintos.Lib

/-- The low `k` bytes of a number. -/
def leBytes : Nat → Nat → List UInt8
  | 0, _ => []
  | k + 1, n => UInt8.ofNat n :: leBytes k (n / 256)

/-- The number that bytes stand for. -/
def ofLe : List UInt8 → Nat
  | [] => 0
  | b :: bs => b.toNat + 256 * ofLe bs

@[simp] theorem length_leBytes (k n : Nat) : (leBytes k n).length = k := by
  induction k generalizing n with
  | zero => rfl
  | succ k ih => simp only [leBytes, List.length_cons, ih]

theorem ofLe_leBytes (k n : Nat) : ofLe (leBytes k n) = n % 256 ^ k := by
  induction k generalizing n with
  | zero => simp only [leBytes, ofLe, pow_zero, Nat.mod_one]
  | succ k ih => rw [leBytes, ofLe, ih, pow_succ', Nat.mod_mul, UInt8.toNat_ofNat']

/-- A number that fits is read back. -/
theorem ofLe_leBytes_of_lt {k n : Nat} (h : n < 256 ^ k) : ofLe (leBytes k n) = n := by
  rw [ofLe_leBytes, Nat.mod_eq_of_lt h]

/-! ## Fields -/

/-- `n` bytes from `ofs` on. -/
def slice (bs : List UInt8) (ofs n : Nat) : List UInt8 := (bs.drop ofs).take n

theorem length_slice {bs : List UInt8} {ofs n : Nat} (h : ofs + n ≤ bs.length) :
    (slice bs ofs n).length = n := by
  rw [slice, List.length_take, List.length_drop]
  omega

/-- All of a run. -/
theorem slice_self (bs : List UInt8) : slice bs 0 bs.length = bs := by
  rw [slice, List.drop_zero, List.take_length]

/-- A field that ends in the first piece. -/
theorem slice_append_left {bs cs : List UInt8} {ofs n : Nat} (h : ofs + n ≤ bs.length) :
    slice (bs ++ cs) ofs n = slice bs ofs n := by
  rw [slice, slice, List.drop_append_of_le_length (by omega),
    List.take_append_of_le_length (by rw [List.length_drop]; omega)]

/-- A field that starts after the first piece. -/
theorem slice_append_right {bs cs : List UInt8} {ofs n : Nat} (h : bs.length ≤ ofs) :
    slice (bs ++ cs) ofs n = slice cs (ofs - bs.length) n := by
  rw [slice, slice, List.drop_append, List.drop_of_length_le h, List.nil_append]

/-- The piece in front. -/
theorem slice_append_self (bs cs : List UInt8) : slice (bs ++ cs) 0 bs.length = bs := by
  rw [slice_append_left (by omega), slice_self]

/-- The records of a table whose records have one length. -/
theorem slice_flatMap {α : Type} {k : Nat} (f : α → List UInt8) (hf : ∀ x, (f x).length = k) :
    ∀ (xs : List α) (i : Nat) (h : i < xs.length), slice (xs.flatMap f) (k * i) k = f xs[i]
  | x :: xs, 0, _ => by
    rw [List.flatMap_cons, Nat.mul_zero, ← hf x, slice_append_self, List.getElem_cons_zero]
  | x :: xs, i + 1, h => by
    rw [List.flatMap_cons, slice_append_right (by rw [hf, Nat.mul_succ]; omega), hf,
      Nat.mul_succ, Nat.add_sub_cancel, slice_flatMap f hf xs i (by simpa using h),
      List.getElem_cons_succ]

theorem length_flatMap_const {α : Type} {k : Nat} (f : α → List UInt8)
    (hf : ∀ x, (f x).length = k) (xs : List α) : (xs.flatMap f).length = k * xs.length := by
  induction xs with
  | nil => rfl
  | cons x xs ih => rw [List.flatMap_cons, List.length_append, hf, ih, List.length_cons]; ring

/-- Bytes cut to a length, or filled up with zeros. -/
def padTo (n : Nat) (bs : List UInt8) : List UInt8 :=
  bs.take n ++ List.replicate (n - bs.length) 0

@[simp] theorem length_padTo (n : Nat) (bs : List UInt8) : (padTo n bs).length = n := by
  rw [padTo, List.length_append, List.length_take, List.length_replicate]
  omega

theorem padTo_of_le {n : Nat} {bs : List UInt8} (h : bs.length ≤ n) :
    padTo n bs = bs ++ List.replicate (n - bs.length) 0 := by
  rw [padTo, List.take_of_length_le h]

/-- A field of zeros. -/
theorem slice_replicate {ofs n m : Nat} (h : ofs + n ≤ m) :
    slice (List.replicate m 0) ofs n = List.replicate n 0 := by
  rw [slice, List.drop_replicate, List.take_replicate, Nat.min_eq_left (by omega)]

end Pintos.Lib
