import Mathlib.Data.Nat.Digits.Lemmas
import Pintos.Lib.Bytes

/-!
# Octal text

Numbers as octal digits, most significant first: `octalText w n` fills up with zeros to `w` digits,
and `octalValue` reads digits back.
-/

namespace Pintos.Lib

/-- `'0'` to `'7'`. -/
def isOctalDigit (c : UInt8) : Bool := 0x30 ≤ c && c ≤ 0x37

def octalDigit (d : Nat) : UInt8 := UInt8.ofNat (0x30 + d)

/-- `n` in octal, with at least `w` digits. -/
def octalText (w n : Nat) : List UInt8 :=
  List.replicate (w - (Nat.digits 8 n).length) 0x30 ++ (Nat.digits 8 n).reverse.map octalDigit

/-- The number that digits stand for. -/
def octalValue (ds : List UInt8) : Nat := ds.foldl (fun v c => v * 8 + (c.toNat - 0x30)) 0

theorem toNat_octalDigit {d : Nat} (h : d < 8) : (octalDigit d).toNat = 0x30 + d := by
  unfold octalDigit
  rw [UInt8.toNat_ofNat']
  omega

theorem isOctalDigit_iff (c : UInt8) : isOctalDigit c = true ↔ 0x30 ≤ c.toNat ∧ c.toNat ≤ 0x37 := by
  unfold isOctalDigit
  rw [Bool.and_eq_true, decide_eq_true_eq, decide_eq_true_eq, UInt8.le_iff_toNat_le,
    UInt8.le_iff_toNat_le]
  rfl

theorem isOctalDigit_octalDigit {d : Nat} (h : d < 8) : isOctalDigit (octalDigit d) = true := by
  rw [isOctalDigit_iff, toNat_octalDigit h]
  omega

theorem digits_lt {n d : Nat} (h : d ∈ Nat.digits 8 n) : d < 8 := Nat.digits_lt_base (by decide) h

/-- An octal text is all digits. -/
theorem octalText_digits (w n : Nat) : ∀ c ∈ octalText w n, isOctalDigit c = true := by
  intro c hc
  rcases List.mem_append.mp hc with hc | hc
  · rw [List.eq_of_mem_replicate hc]
    decide
  · obtain ⟨d, hd, rfl⟩ := List.mem_map.mp hc
    exact isOctalDigit_octalDigit (digits_lt (List.mem_reverse.mp hd))

/-- An octal text is as wide as its field. -/
theorem length_octalText {w n : Nat} (h : n < 8 ^ w) : (octalText w n).length = w := by
  have hle : (Nat.digits 8 n).length ≤ w := (Nat.digits_length_le_iff (by decide) n).mpr h
  unfold octalText
  rw [List.length_append, List.length_replicate, List.length_map, List.length_reverse]
  omega

/-- More digits go on from the value so far. -/
theorem octalValue_append (ds es : List UInt8) : octalValue (ds ++ es) =
    es.foldl (fun v c => v * 8 + (c.toNat - 0x30)) (octalValue ds) := List.foldl_append

/-- One digit more is eight times the value, and the digit. -/
theorem octalValue_concat (ds : List UInt8) (c : UInt8) :
    octalValue (ds ++ [c]) = octalValue ds * 8 + (c.toNat - 0x30) := by
  rw [octalValue_append]
  rfl

/-- A number is read back. -/
theorem octalValue_octalText (w n : Nat) : octalValue (octalText w n) = n := by
  have hzeros : ∀ k, octalValue (List.replicate k 0x30) = 0 := by
    intro k
    induction k with
    | zero => rfl
    | succ k ih =>
      rw [List.replicate_succ', octalValue_concat, ih]
      rfl
  have hdigits : ∀ ds : List Nat, (∀ d ∈ ds, d < 8) →
      octalValue (ds.reverse.map octalDigit) = Nat.ofDigits 8 ds := by
    intro ds hds
    induction ds with
    | nil => rfl
    | cons d ds ih =>
      rw [List.reverse_cons, List.map_append, List.map_singleton, octalValue_concat,
        ih fun e he => hds e (List.mem_cons_of_mem _ he),
        toNat_octalDigit (hds d List.mem_cons_self), Nat.ofDigits_cons]
      omega
  unfold octalText
  rw [octalValue_append, hzeros]
  exact (hdigits _ fun d => digits_lt).trans (Nat.ofDigits_digits 8 n)

/-- More digits do not make the number smaller. -/
theorem octalValue_le_append (ds es : List UInt8) : octalValue ds ≤ octalValue (ds ++ es) := by
  induction es using List.reverseRecOn with
  | nil => rw [List.append_nil]
  | append_singleton es c ih =>
    rw [← List.append_assoc, octalValue_concat]
    omega

end Pintos.Lib
