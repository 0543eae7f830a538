import Mathlib.Data.Nat.Digits.Lemmas
import Pintos.Libc.Truncation

/-!
# The text of an integer

`integerText` is what C99 prescribes for an integer conversion: a sign, a prefix and at least as many
digits as the precision says, filled up to the width with spaces or with zeros. `format_integer` outputs
this text, less the zeros behind the 63rd digit (`formatInteger_text`).
-/

namespace Pintos.Libc

open Pintos.Lib

variable {σ : Type}

/-! ## What C99 prescribes -/

/-- The character of an integer conversion. -/
inductive IntConv where
  | d | i | o | u | x | upperX
  deriving DecidableEq, Repr

def IntConv.char : IntConv → Char
  | .d => 'd'
  | .i => 'i'
  | .o => 'o'
  | .u => 'u'
  | .x => 'x'
  | .upperX => 'X'

def IntConv.isSigned : IntConv → Bool
  | .d | .i => true
  | .o | .u | .x | .upperX => false

def IntConv.base : IntConv → Nat
  | .d | .i | .u => 10
  | .o => 8
  | .x | .upperX => 16

def IntConv.digit (conv : IntConv) (k : Nat) : Char :=
  match conv with
  | .upperX => k.digitChar.toUpper
  | _ => k.digitChar

/-- The flags, the width and the precision of a conversion. -/
structure Options where
  minus : Bool
  plus : Bool
  space : Bool
  pound : Bool
  zero : Bool
  width : Nat
  precision : Option Nat
  deriving DecidableEq, Repr

/-- The sign. Without a sign there may be a space, but not with the flag `+`. -/
def signText (o : Options) (conv : IntConv) (value : Int) : List Char :=
  if conv.isSigned then
    if value < 0 then ['-'] else if o.plus then ['+'] else if o.space then [' '] else []
  else []

/-- The flag `#` puts `0x` in front of hexadecimal digits, but not of zero. -/
def prefixText (o : Options) (conv : IntConv) (value : Int) : List Char :=
  if o.pound ∧ value ≠ 0 then
    match conv with
    | .x => ['0', 'x']
    | .upperX => ['0', 'X']
    | _ => []
  else []

/-- The digits of a number, of which zero has none. -/
def numeral (conv : IntConv) (n : Nat) : List Char := (Nat.digits conv.base n).reverse.map conv.digit

/-- Zeros in front, up to a number of digits. -/
def padDigits (n : Nat) (ds : List Char) : List Char := List.replicate (n - ds.length) '0' ++ ds

/-- The flag `#` has octal digits begin with a zero. -/
def digitsText (o : Options) (conv : IntConv) (value : Int) : List Char :=
  let ds := padDigits (o.precision.getD 1) (numeral conv value.natAbs)
  if o.pound ∧ conv = .o ∧ ds.head? ≠ some '0' then '0' :: ds else ds

/-- The flag `-` overrides `0`, and so does a precision. -/
def integerText (o : Options) (conv : IntConv) (value : Int) : List Char :=
  let front := signText o conv value ++ prefixText o conv value
  let ds := digitsText o conv value
  let pad := o.width - (front ++ ds).length
  if o.minus then front ++ ds ++ List.replicate pad ' '
  else if o.zero ∧ o.precision = none then front ++ (List.replicate pad '0' ++ ds)
  else List.replicate pad ' ' ++ (front ++ ds)

/-- The text is as long as the width, or as long as it is without one. -/
theorem length_integerText (o : Options) (conv : IntConv) (value : Int) :
    (integerText o conv value).length =
      max o.width (signText o conv value ++ prefixText o conv value ++ digitsText o conv value).length := by
  unfold integerText
  dsimp only
  split
  · rw [List.length_append, List.length_replicate]
    omega
  · split
    · simp only [List.length_append, List.length_replicate]
      omega
    · simp only [List.length_append, List.length_replicate]
      omega

/-- There are as many digits as the precision says, or more. -/
theorem le_length_digitsText (o : Options) (conv : IntConv) (value : Int) :
    o.precision.getD 1 ≤ (digitsText o conv value).length := by
  have hpad : o.precision.getD 1 ≤ (padDigits (o.precision.getD 1) (numeral conv value.natAbs)).length := by
    unfold padDigits
    rw [List.length_append, List.length_replicate]
    omega
  unfold digitsText
  dsimp only
  split
  · exact Nat.le_succ_of_le hpad
  · exact hpad

/-! ## What `format_integer` outputs -/

/-- A character that is repeated is a list of it. -/
theorem outputDup_eq (output : Char → σ → σ) (ch : Char) (cnt : Nat) (aux : σ) :
    outputDup output ch cnt aux = outputAll output (List.replicate cnt ch) aux := by
  induction cnt generalizing aux with
  | zero => rfl
  | succ cnt ih => exact ih (output ch aux)

/-- The table of a conversion. -/
def IntConv.table : IntConv → IntegerBase
  | .d | .i | .u => baseD
  | .o => baseO
  | .x => baseX
  | .upperX => baseUpperX

/-- The table of a conversion has its base. -/
theorem IntConv.table_base (conv : IntConv) : conv.table.base = conv.base := by
  cases conv <;> rfl

/-- The table of a conversion has its digits. -/
theorem IntConv.table_digits (conv : IntConv) {k : Nat} (hk : k < conv.base) :
    conv.table.digits.getD k nul = conv.digit k := by
  revert k
  cases conv <;> decide

/-- No base is less than 8. -/
theorem IntConv.base_bounds (conv : IntConv) : 8 ≤ conv.base := by
  cases conv <;> decide

theorem IntConv.base_eq_eight (conv : IntConv) : conv.base = 8 ↔ conv = .o := by
  cases conv <;> decide

theorem numeral_zero (conv : IntConv) : numeral conv 0 = [] := by
  simp [numeral]

theorem digitLoop_zero (b : IntegerBase) (group : Bool) (n digitCnt : Nat) (buf : List Char) :
    digitLoop b group n 0 digitCnt buf = .ok buf := by
  cases n <;> rfl

/-- Without groups the digits are those of the number. -/
theorem digitLoop_eq (conv : IntConv) (k : Nat) : ∀ (n value digitCnt : Nat) (buf : List Char), value < 8 ^ k →
    k ≤ n → buf.length + k ≤ 64 →
      digitLoop conv.table false n value digitCnt buf = .ok (numeral conv value ++ buf) := by
  induction k with
  | zero =>
    intro n value digitCnt buf hvalue _ _
    obtain rfl : value = 0 := by omega
    rw [digitLoop_zero, numeral_zero, List.nil_append]
  | succ k ih =>
    intro n value digitCnt buf hvalue hn hlen
    cases value with
    | zero => rw [digitLoop_zero, numeral_zero, List.nil_append]
    | succ value =>
      obtain ⟨n, rfl⟩ := Nat.exists_eq_add_of_lt (show 0 < n by omega)
      rw [Nat.zero_add]
      have hbase := conv.base_bounds
      have hdiv : (value + 1) / conv.base < 8 ^ k := by
        have hle : (value + 1) / conv.base ≤ (value + 1) / 8 := Nat.div_le_div_left hbase (by decide)
        have hlt : (value + 1) / 8 < 8 ^ k := by
          rw [Nat.div_lt_iff_lt_mul (by decide), ← Nat.pow_succ]
          exact hvalue
        omega
      have hdigits : numeral conv (value + 1) =
          numeral conv ((value + 1) / conv.base) ++ [conv.digit ((value + 1) % conv.base)] := by
        unfold numeral
        rw [Nat.digits_def' (by omega) (Nat.succ_pos value), List.reverse_cons, List.map_append]
        rfl
      unfold digitLoop pushComma
      rw [if_neg (by simp), bind_ok, push_ok (by omega), bind_ok, conv.table_base,
        conv.table_digits (Nat.mod_lt _ (by omega)), ih n _ _ _ hdiv (by omega) (by rw [List.length_cons]; omega),
        hdigits, List.append_assoc]
      rfl

/-- A number below a power of 8 has no more digits than the power. -/
theorem length_numeral_le (conv : IntConv) {n k : Nat} (hn : n < 8 ^ k) : (numeral conv n).length ≤ k := by
  unfold numeral
  rw [List.length_map, List.length_reverse]
  rw [Nat.digits_length_le_iff (Nat.lt_of_lt_of_le (by decide) conv.base_bounds)]
  exact Nat.lt_of_lt_of_le hn (Nat.pow_le_pow_left conv.base_bounds k)

/-- The options that a conversion stands for. -/
structure Conversion.Means (c : Conversion) (o : Options) : Prop where
  minus : c.flags.minus = o.minus
  plus : c.flags.plus = o.plus
  space : c.flags.space = (o.space && !o.plus)
  pound : c.flags.pound = o.pound
  zero : c.flags.zero = (o.zero && !o.minus && o.precision.isNone)
  group : c.flags.group = false
  width : c.width = o.width
  precision : c.precision = (o.precision.elim (-1) fun p => (p : Int))

/-- The options with as many zeros as the buffer has room for. -/
def Options.capped (o : Options) : Options := { o with precision := o.precision.map (min · 63) }

variable {c : Conversion} {o : Options} {conv : IntConv} {value : Int}

/-- The buffer holds the digits of the text. -/
theorem integerDigits_eq (hc : c.Means o) (hvalue : value.natAbs < 2 ^ 64) :
    integerDigits value.natAbs conv.table c = .ok (digitsText o.capped conv value) := by
  have hlen : (numeral conv value.natAbs).length ≤ 22 := length_numeral_le conv (by omega)
  have hprecision : (if c.precision < 0 then 1 else c.precision) = (o.precision.getD 1 : Nat) := by
    rw [hc.precision]
    cases o.precision with
    | none => rfl
    | some p => exact if_neg (by simp)
  have hcapped : o.capped.precision.getD 1 = min (o.precision.getD 1) 63 := by
    unfold Options.capped
    cases o.precision <;> rfl
  have hzeros : (min ((o.precision.getD 1 : Nat) : Int) 63 - ((numeral conv value.natAbs).length : Nat)).toNat =
      min (o.precision.getD 1) 63 - (numeral conv value.natAbs).length := by omega
  unfold integerDigits digitsText
  rw [hc.group, digitLoop_eq conv 22 64 _ 0 [] (by omega) (by decide) (by decide), bind_ok, List.append_nil]
  dsimp only
  rw [hprecision, zeroLoop_eq _ 64 _ (by decide) (by omega), bind_ok, hzeros, hcapped, hc.pound, conv.table_base]
  change (if o.pound = true ∧ conv.base = 8 ∧ (padDigits (min (o.precision.getD 1) 63) _).head? ≠ some '0' then
    push (padDigits (min (o.precision.getD 1) 63) _) '0' else _) = _
  have hroom : (padDigits (min (o.precision.getD 1) 63) (numeral conv value.natAbs)).length < 64 := by
    unfold padDigits
    rw [List.length_append, List.length_replicate]
    omega
  rw [push_ok hroom]
  simp only [conv.base_eq_eight]
  exact (apply_ite Except.ok ..).symm

/-- Padding goes out where it is asked for. -/
theorem outputAll_replicate_if (output : Char → σ → σ) (c : Prop) [Decidable c] (ch : Char) (cnt : Nat) (aux : σ) :
    (if c then outputDup output ch cnt aux else aux) =
      outputAll output (if c then List.replicate cnt ch else []) aux := by
  rw [outputDup_eq]
  split <;> rfl

/-- The digits of 64 bits are 64 at most. -/
theorem length_digitsText_le (o : Options) (conv : IntConv) (hvalue : value.natAbs < 2 ^ 64) :
    (digitsText o.capped conv value).length ≤ 64 := by
  have hlen : (numeral conv value.natAbs).length ≤ 22 := length_numeral_le conv (by omega)
  have hcapped : o.capped.precision.getD 1 ≤ 63 := by
    unfold Options.capped
    cases o.precision with
    | none => exact (by decide : 1 ≤ 63)
    | some p => exact Nat.min_le_right p 63
  have hpad : (padDigits (o.capped.precision.getD 1) (numeral conv value.natAbs)).length ≤ 63 := by
    unfold padDigits
    rw [List.length_append, List.length_replicate]
    omega
  unfold digitsText
  dsimp only
  split
  · exact Nat.succ_le_succ hpad
  · exact Nat.le_succ_of_le hpad

/-- The sign is the text's. -/
theorem signOf_eq (hc : c.Means o) (conv : IntConv) (value : Int) :
    (signOf conv.isSigned (value < 0) c.flags).toList = signText o conv value := by
  unfold signOf signText
  rw [hc.plus, hc.space]
  by_cases hneg : value < 0
  · cases conv.isSigned <;> cases o.plus <;> cases o.space <;> simp [hneg]
  · cases conv.isSigned <;> cases o.plus <;> cases o.space <;> simp [hneg]

/-- The prefix is the text's. -/
theorem prefix_eq (hc : c.Means o) (conv : IntConv) (value : Int) :
    ((if c.flags.pound ∧ value.natAbs ≠ 0 then conv.table.x else none).elim [] fun x => ['0', x]) =
      prefixText o conv value := by
  unfold prefixText
  simp only [hc.pound, ne_eq, Int.natAbs_eq_zero]
  split
  · cases conv <;> rfl
  · rfl

theorem isSome_one (sign : Option Char) : (if sign.isSome then 1 else 0 : Int) = (sign.toList.length : Nat) := by
  cases sign <;> rfl

theorem isSome_two (x : Option Char) :
    (if x.isSome then 2 else 0 : Int) = ((x.elim [] fun x => ['0', x]).length : Nat) := by
  cases x <;> rfl

/-- The number of pad characters. -/
theorem padCnt_eq {w ds xs sign : Nat} (hw : w < 2 ^ 31) (hds : ds ≤ 64) (hxs : xs ≤ 2) (hsign : sign ≤ 1) :
    (if int32 ((w : Int) - ds - xs - sign) < 0 then 0 else (int32 ((w : Int) - ds - xs - sign)).toNat) =
      w - (sign + xs + ds) := by
  rw [int32_eq (by omega) (by omega)]
  split
  · omega
  · omega

/-- `format_integer` writes the text of the value. -/
theorem formatInteger_text (hc : c.Means o) (conv : IntConv) (hvalue : value.natAbs < 2 ^ 64) (hwidth : o.width < 2 ^ 31)
    (output : Char → σ → σ) (aux : σ) :
    formatInteger value.natAbs conv.isSigned (value < 0) conv.table c output aux =
      .ok (outputAll output (integerText o.capped conv value) aux) := by
  have hxs : (prefixText o conv value).length ≤ 2 := by
    unfold prefixText
    split
    · cases conv <;> simp
    · exact Nat.zero_le 2
  have hsign : (signText o conv value).length ≤ 1 := by
    unfold signText
    split_ifs <;> simp
  have hpad := padCnt_eq hwidth (length_digitsText_le o conv hvalue) hxs hsign
  unfold formatInteger
  rw [integerDigits_eq hc hvalue, bind_ok]
  dsimp only
  simp only [outputAll_replicate_if, ← outputAll_append]
  rw [isSome_one, isSome_two, signOf_eq hc, prefix_eq hc, hc.width, hpad, hc.minus, hc.zero]
  unfold integerText
  have hfront : signText o.capped conv value ++ prefixText o.capped conv value =
    signText o conv value ++ prefixText o conv value := rfl
  have hnone : o.capped.precision = none ↔ o.precision = none := by
    unfold Options.capped
    simp
  dsimp only
  rw [hfront, List.length_append, List.length_append]
  have hminus : o.capped.minus = o.minus := rfl
  have hzero : o.capped.zero = o.zero := rfl
  have hwidth : o.capped.width = o.width := rfl
  simp only [hnone, hminus, hzero, hwidth]
  cases o.minus with
  | true => simp
  | false =>
    cases o.zero with
    | false => simp
    | true =>
      cases o.precision with
      | none => simp
      | some p => simp

end Pintos.Libc
