import Pintos.Libc.IntegerText

/-!
# Integer conversions

An integer conversion is written as flags, a width, a precision, a length modifier and the character of the
conversion (`IntegerSpec.text`), and stands for options and a value (`IntegerSpec.options`,
`IntegerSpec.value`). `__vprintf` outputs the text of the value, with a precision of 63 at most
(`vprintf_integer`). The flag `0` with a width that an argument gives and that is negative is apart: there
the code fills the field twice.
-/

namespace Pintos.Libc

open Pintos.Lib

variable {σ : Type} {mem : UInt32 → Char} {output : Char → σ → σ} {args : VaList} {aux : σ}

/-! ## What is written -/

inductive Flag where
  | minus | plus | space | pound | zero
  deriving DecidableEq, Repr

def Flag.char : Flag → Char
  | .minus => '-'
  | .plus => '+'
  | .space => ' '
  | .pound => '#'
  | .zero => '0'

/-- A width or a precision: digits, or `*` for an argument. -/
inductive Amount where
  | digits (ds : List (Fin 10))
  | star
  deriving DecidableEq, Repr

def digitOf (d : Fin 10) : Char := Char.ofNat (48 + d)

def Amount.text : Amount → List Char
  | .digits ds => ds.map digitOf
  | .star => ['*']

/-- The number that digits denote, behind those of `n`. -/
def decimal (n : Nat) (ds : List (Fin 10)) : Nat := ds.foldl (fun n d => n * 10 + d) n

/-- What the amount is, and the arguments that are left. -/
def Amount.read (amount : Amount) (args : VaList) : Int × VaList :=
  match amount with
  | .digits ds => ((decimal 0 ds : Nat), args)
  | .star => vaInt args

/-- The length modifier. -/
def ArgType.text : ArgType → List Char
  | .char => ['h', 'h']
  | .short => ['h']
  | .int => []
  | .intmax => ['j']
  | .long => ['l']
  | .longlong => ['l', 'l']
  | .ptrdifft => ['t']
  | .sizet => ['z']

structure IntegerSpec where
  flags : List Flag
  width : Amount
  precision : Option Amount
  type : ArgType
  conv : IntConv
  deriving DecidableEq, Repr

namespace IntegerSpec

def precisionText (sp : IntegerSpec) : List Char := sp.precision.elim [] fun p => '.' :: p.text

/-- The conversion in a format, behind the percent sign. -/
def text (sp : IntegerSpec) : List Char :=
  sp.flags.map Flag.char ++ (sp.width.text ++ (sp.precisionText ++ (sp.type.text ++ [sp.conv.char])))

/-- The precision, if there is one that is not negative, and the arguments that are left. -/
def readPrecision (sp : IntegerSpec) (args : VaList) : Option Nat × VaList :=
  match sp.precision with
  | none => (none, args)
  | some p => (if (p.read args).1 < 0 then none else some (p.read args).1.toNat, (p.read args).2)

/-- A width that is negative stands for the flag `-` and a width. -/
def options (sp : IntegerSpec) (args : VaList) : Options where
  minus := .minus ∈ sp.flags ∨ (sp.width.read args).1 < 0
  plus := .plus ∈ sp.flags
  space := .space ∈ sp.flags
  pound := .pound ∈ sp.flags
  zero := .zero ∈ sp.flags
  width := (sp.width.read args).1.natAbs
  precision := (sp.readPrecision (sp.width.read args).2).1

/-- The arguments from the value on. -/
def valueArgs (sp : IntegerSpec) (args : VaList) : VaList := (sp.readPrecision (sp.width.read args).2).2

end IntegerSpec

def ArgType.bits : ArgType → Nat
  | .char => 8
  | .short => 16
  | .int | .long | .ptrdifft | .sizet => 32
  | .intmax | .longlong => 64

/-- The words of an argument. -/
def ArgType.words (type : ArgType) : Nat := if type.bits = 64 then 2 else 1

def ArgType.raw (type : ArgType) (args : VaList) : Nat :=
  if type.bits = 64 then (args 0).toNat + 2 ^ 32 * (args 1).toNat else (args 0).toNat

/-- The value of an argument of a type, with a sign or without one. -/
def ArgType.value (type : ArgType) (isSigned : Bool) (args : VaList) : Int :=
  if isSigned then Int.bmod (type.raw args) (2 ^ type.bits) else (type.raw args % 2 ^ type.bits : Nat)

namespace IntegerSpec

def value (sp : IntegerSpec) (args : VaList) : Int := sp.type.value sp.conv.isSigned (sp.valueArgs args)

/-- The arguments behind the value. -/
def argsLeft (sp : IntegerSpec) (args : VaList) : VaList := vaSkip (sp.valueArgs args) sp.type.words

/-- Width and precision are numbers of type `int`, and the width is not `INT_MIN`. A zero in front of the
width would be a flag. -/
structure Fits (sp : IntegerSpec) (args : VaList) : Prop where
  width : (sp.width.read args).1.natAbs < 2 ^ 31
  widthDigits : ∀ ds, sp.width = .digits ds → ds.head? ≠ some 0
  precision : ∀ ds, sp.precision = some (.digits ds) → decimal 0 ds < 2 ^ 31

/-- The flag `0` is in effect where a negative width turns `-` on. -/
def ZeroOverridden (sp : IntegerSpec) (args : VaList) : Prop :=
  .zero ∈ sp.flags ∧ .minus ∉ sp.flags ∧ (sp.width.read args).1 < 0 ∧ (sp.options args).precision = none

end IntegerSpec

/-! ## Values -/

/-- A `size_t` as a signed number. -/
theorem size_signed {word : Nat} (h : word < 2 ^ 32) :
    (if word > (2 ^ 32 - 1) / 2 then (word : Int) - (2 ^ 32 - 1) - 1 else word : Int) = Int.bmod word (2 ^ 32) := by
  rw [Int.bmod_def]
  split
  · rw [if_neg (by omega)]
    omega
  · rw [if_pos (by omega)]
    omega

/-- A `ptrdiff_t` as an unsigned number. -/
theorem ptrdiff_unsigned {word : Nat} (h : word < 2 ^ 32) :
    (int32 word % 2 ^ 64).toNat &&& (((2 ^ 31 - 1) <<< 1) ||| 1) = word := by
  have hmask : ((2 ^ 31 - 1) <<< 1) ||| 1 = 2 ^ 32 - 1 := by decide
  rw [hmask, Nat.and_two_pow_sub_one_eq_mod]
  unfold int32
  rw [Int.bmod_def]
  split
  · omega
  · omega

/-- A signed conversion takes the value of its type. -/
theorem signedArg_eq (type : ArgType) (args : VaList) :
    signedArg type args = (type.value true args, vaSkip args type.words) := by
  unfold ArgType.value
  rw [if_pos rfl]
  cases type with
  | sizet => exact congrArg (·, vaSkip args 1) (size_signed (args 0).toNat_lt)
  | _ => rfl

/-- An unsigned conversion takes the value of its type. -/
theorem unsignedArg_eq (type : ArgType) (args : VaList) :
    (((unsignedArg type args).1 : Nat) : Int) = type.value false args ∧
      (unsignedArg type args).2 = vaSkip args type.words := by
  have hlow := (args 0).toNat_lt
  have hhigh := (args 1).toNat_lt
  have hword : (args 0).toNat % 2 ^ 32 = (args 0).toNat := Nat.mod_eq_of_lt hlow
  have hlong : ((args 0).toNat + 2 ^ 32 * (args 1).toNat) % 2 ^ 64 = (args 0).toNat + 2 ^ 32 * (args 1).toNat :=
    Nat.mod_eq_of_lt (by omega)
  unfold ArgType.value
  rw [if_neg Bool.false_ne_true]
  cases type with
  | char => exact ⟨rfl, rfl⟩
  | short => exact ⟨rfl, rfl⟩
  | ptrdifft => exact ⟨congrArg _ ((ptrdiff_unsigned hlow).trans hword.symm), rfl⟩
  | intmax => exact ⟨congrArg _ hlong.symm, rfl⟩
  | longlong => exact ⟨congrArg _ hlong.symm, rfl⟩
  | _ => exact ⟨congrArg _ hword.symm, rfl⟩

/-- The value has at most 64 bits. -/
theorem ArgType.natAbs_value (type : ArgType) (isSigned : Bool) (args : VaList) :
    (type.value isSigned args).natAbs < 2 ^ 64 := by
  have hbits : 2 ^ type.bits ≤ 2 ^ 64 := by
    cases type <;> decide
  have hpos : 0 < 2 ^ type.bits := Nat.two_pow_pos type.bits
  unfold ArgType.value
  split
  · have hlow := Int.le_bmod (x := type.raw args) hpos
    have hhigh := Int.bmod_lt (x := type.raw args) hpos
    omega
  · have hlt := Nat.mod_lt (type.raw args) hpos
    omega

/-- An integer conversion outputs the text of its value. -/
theorem convert_integer (conv : IntConv) {c : Conversion} {o : Options} (hc : c.Means o) (hwidth : o.width < 2 ^ 31)
    (args : VaList) (aux : σ) :
    convert mem output conv.char c args aux = .ok (some (vaSkip args c.type.words,
      outputAll output (integerText o.capped conv (c.type.value conv.isSigned args)) aux)) := by
  have hunsigned : conv.isSigned = false → convertUnsigned conv.table c output args aux =
      .ok (some (vaSkip args c.type.words,
        outputAll output (integerText o.capped conv (c.type.value conv.isSigned args)) aux)) := by
    intro hsign
    obtain ⟨hvalue, hrest⟩ := unsignedArg_eq c.type args
    have hformat := formatInteger_text hc conv (c.type.natAbs_value false args) hwidth output aux
    rw [← hvalue, Int.natAbs_natCast, hsign] at hformat
    have hneg : decide ((((unsignedArg c.type args).1 : Nat) : Int) < 0) = false := decide_eq_false (by omega)
    rw [hneg] at hformat
    unfold convertUnsigned
    dsimp only
    rw [hformat, bind_ok, hrest, hsign, hvalue]
  have hsigned : conv.isSigned = true → conv.table = baseD → convert mem output 'd' c args aux =
      .ok (some (vaSkip args c.type.words,
        outputAll output (integerText o.capped conv (c.type.value conv.isSigned args)) aux)) := by
    intro hsign htable
    have hlt := c.type.natAbs_value true args
    have habs : ((if c.type.value true args < 0 then -c.type.value true args else c.type.value true args) %
        2 ^ 64).toNat = (c.type.value true args).natAbs := by
      split
      · omega
      · omega
    have hformat := formatInteger_text hc conv hlt hwidth output aux
    rw [hsign, htable] at hformat
    unfold convert
    dsimp only
    rw [signedArg_eq, habs, hformat, bind_ok, hsign]
    rfl
  cases conv with
  | d => exact hsigned rfl rfl
  | i => exact hsigned rfl rfl
  | o => exact hunsigned rfl
  | u => exact hunsigned rfl
  | x => exact hunsigned rfl
  | upperX => exact hunsigned rfl

/-! ## What is read -/

/-- A prefix of the one kind before something of another is taken as a whole. -/
theorem takeWhile_dropWhile {p : Char → Bool} {s t : List Char} (hs : ∀ ch ∈ s, p ch = true)
    (ht : ∀ ch ∈ t.head?, p ch = false) : (s ++ t).takeWhile p = s ∧ (s ++ t).dropWhile p = t := by
  rw [List.takeWhile_append_of_pos hs, List.dropWhile_append_of_pos hs]
  cases t with
  | nil => exact ⟨List.append_nil s, rfl⟩
  | cons ch t =>
    have hch : ¬ p ch = true := Bool.eq_false_iff.mp (ht ch rfl)
    rw [List.takeWhile_cons_of_neg hch, List.dropWhile_cons_of_neg hch, List.append_nil]
    exact ⟨rfl, rfl⟩

/-- More digits make no smaller number. -/
theorem le_decimal (n : Nat) (ds : List (Fin 10)) : n ≤ decimal n ds := by
  induction ds generalizing n with
  | nil => exact Nat.le_refl n
  | cons d ds ih =>
    have := ih (n * 10 + d)
    change n ≤ decimal (n * 10 + d) ds
    omega

/-- The digits are in order from '0'. -/
theorem toNat_digitOf (d : Fin 10) : (digitOf d).toNat = 48 + d := by
  revert d
  decide

/-- Digits are added up as they denote, if the number is an `int`. -/
theorem digitsValue_eq (n : Nat) (ds : List (Fin 10)) (h : decimal n ds < 2 ^ 31) :
    digitsValue n (ds.map digitOf) = (decimal n ds : Nat) := by
  induction ds generalizing n with
  | nil => rfl
  | cons d ds ih =>
    have hle := le_decimal (n * 10 + d) ds
    have hfits : decimal (n * 10 + d) ds < 2 ^ 31 := h
    have hstep : int32 ((n : Int) * 10 + (digitOf d).toNat - 48) = ((n * 10 + d : Nat) : Int) := by
      rw [toNat_digitOf, int32_eq (by omega) (by omega)]
      omega
    change digitsValue (int32 ((n : Int) * 10 + (digitOf d).toNat - 48)) (ds.map digitOf) = _
    rw [hstep, ih _ hfits]
    rfl

theorem isdigit_digitOf (d : Fin 10) : isdigit (digitOf d) = true := by
  revert d
  decide

theorem digitOf_ne_star (d : Fin 10) : digitOf d ≠ '*' := by
  revert d
  decide

/-- A number in front of something that is not a digit and not a star. -/
theorem numberOf_eq {amount : Amount} {t : List Char} (args : VaList)
    (hfits : ∀ ds, amount = .digits ds → decimal 0 ds < 2 ^ 31)
    (ht : ∀ ch ∈ t.head?, isdigit ch = false ∧ ch ≠ '*') :
    numberOf (amount.text ++ t) args = amount.read args ∧ skipNumber (amount.text ++ t) = t := by
  cases amount with
  | star => exact ⟨rfl, rfl⟩
  | digits ds =>
    have hall : ∀ ch ∈ ds.map digitOf, isdigit ch = true := by
      intro ch hch
      obtain ⟨d, -, rfl⟩ := List.mem_map.mp hch
      exact isdigit_digitOf d
    have hstar : (ds.map digitOf ++ t).head? ≠ some '*' := by
      cases ds with
      | nil => exact fun heq => (ht '*' heq).2 rfl
      | cons d ds => exact fun heq => digitOf_ne_star d (Option.some.inj heq)
    obtain ⟨htake, hdrop⟩ := takeWhile_dropWhile hall fun ch hch => (ht ch hch).1
    unfold numberOf skipNumber Amount.read Amount.text
    dsimp only
    rw [if_neg hstar, if_neg hstar, htake, hdrop]
    exact ⟨congrArg (·, args) (digitsValue_eq 0 ds (hfits ds rfl)), rfl⟩

/-- A length modifier and the character of the conversion. -/
theorem typeOf_eq (type : ArgType) (conv : IntConv) (t : List Char) :
    typeOf (type.text ++ conv.char :: t) = type ∧ skipType (type.text ++ conv.char :: t) = conv.char :: t := by
  cases type <;> cases conv <;> exact ⟨rfl, rfl⟩

/-- A type or a conversion starts with none of what comes before it. -/
theorem head_type (type : ArgType) (conv : IntConv) (t : List Char) :
    ∀ ch ∈ (type.text ++ conv.char :: t).head?, isdigit ch = false ∧ ch ≠ '*' ∧ ch ≠ '.' ∧ isFlag ch = false := by
  have hall : ∀ ch ∈ ['h', 'j', 'l', 't', 'z', 'd', 'i', 'o', 'u', 'x', 'X'],
      isdigit ch = false ∧ ch ≠ '*' ∧ ch ≠ '.' ∧ isFlag ch = false := by
    simp [isdigit, isFlag, groupFlag]
  intro ch hch
  refine hall ch ?_
  cases type <;> cases conv <;> cases hch <;> decide

variable {sp : IntegerSpec} {t : List Char}

/-- What follows the flags and the width of a conversion. -/
def IntegerSpec.behindWidth (sp : IntegerSpec) (t : List Char) : List Char :=
  sp.precisionText ++ (sp.type.text ++ sp.conv.char :: t)

/-- The text is flags, width, precision, type and conversion. -/
theorem IntegerSpec.text_append (sp : IntegerSpec) (t : List Char) :
    sp.text ++ t = sp.flags.map Flag.char ++ (sp.width.text ++ sp.behindWidth t) := by
  simp [IntegerSpec.text, IntegerSpec.behindWidth]

/-- The precision is read as it is written, if it is an `int`. -/
theorem precisionOf_eq (hprecision : ∀ ds, sp.precision = some (.digits ds) → decimal 0 ds < 2 ^ 31)
    (args : VaList) (t : List Char) :
    precisionOf (sp.behindWidth t) args =
        ((sp.readPrecision args).1.elim (-1) (fun p => (p : Int)), (sp.readPrecision args).2) ∧
      skipPrecision (sp.behindWidth t) = sp.type.text ++ sp.conv.char :: t := by
  have hhead := head_type sp.type sp.conv t
  cases hp : sp.precision with
  | none =>
    have htext : sp.behindWidth t = sp.type.text ++ sp.conv.char :: t := by
      simp [IntegerSpec.behindWidth, IntegerSpec.precisionText, hp]
    have hread : sp.readPrecision args = (none, args) := by
      simp [IntegerSpec.readPrecision, hp]
    have hpoint : (sp.type.text ++ sp.conv.char :: t).head? ≠ some '.' := fun heq => (hhead '.' heq).2.2.1 rfl
    rw [htext, hread]
    exact ⟨if_neg hpoint, if_neg hpoint⟩
  | some p =>
    have htext : sp.behindWidth t = '.' :: (p.text ++ (sp.type.text ++ sp.conv.char :: t)) := by
      simp [IntegerSpec.behindWidth, IntegerSpec.precisionText, hp]
    have hread : sp.readPrecision args =
        (if (p.read args).1 < 0 then none else some (p.read args).1.toNat, (p.read args).2) := by
      simp [IntegerSpec.readPrecision, hp]
    obtain ⟨hnumber, hskip⟩ := numberOf_eq args (fun ds hds => hprecision ds (hds ▸ hp))
      fun ch hch => ⟨(hhead ch hch).1, (hhead ch hch).2.1⟩
    rw [htext, hread]
    refine ⟨(if_pos rfl).trans ?_, (if_pos rfl).trans hskip⟩
    rw [List.tail_cons, hnumber]
    dsimp only
    by_cases hneg : (p.read args).1 < 0
    · rw [if_pos hneg, if_pos hneg]
      rfl
    · rw [if_neg hneg, if_neg hneg]
      exact congrArg (·, (p.read args).2) (Int.toNat_of_nonneg (Int.le_of_not_gt hneg)).symm

/-- The head of what follows the width. -/
theorem head_behindWidth (sp : IntegerSpec) (t : List Char) :
    ∀ ch ∈ (sp.behindWidth t).head?, isdigit ch = false ∧ ch ≠ '*' ∧ isFlag ch = false := by
  unfold IntegerSpec.behindWidth IntegerSpec.precisionText
  cases sp.precision with
  | none =>
    intro ch hch
    obtain ⟨hdigit, hstar, -, hflag⟩ := head_type sp.type sp.conv t ch hch
    exact ⟨hdigit, hstar, hflag⟩
  | some p =>
    intro ch hch
    cases hch
    decide

/-- A width does not begin with a flag. -/
theorem head_width (hdigits : ∀ ds, sp.width = .digits ds → ds.head? ≠ some 0) (t : List Char) :
    ∀ ch ∈ (sp.width.text ++ sp.behindWidth t).head?, isFlag ch = false := by
  have hdigit : ∀ d : Fin 10, d ≠ 0 → isFlag (digitOf d) = false := by decide
  cases hwidth : sp.width with
  | star =>
    intro ch hch
    cases hch
    decide
  | digits ds =>
    cases ds with
    | nil => exact fun ch hch => (head_behindWidth sp t ch hch).2.2
    | cons d ds =>
      intro ch hch
      cases hch
      exact hdigit d fun heq => hdigits (d :: ds) hwidth (congrArg some heq)

/-- A flag's character is a flag. -/
theorem isFlag_char (f : Flag) : isFlag f.char = true := by
  cases f <;> decide

/-- The flags that are set are those that are written. -/
theorem add_flags (flags : List Flag) (fl : Flags) : (flags.map Flag.char).foldl Flags.add fl =
    { minus := fl.minus || decide (.minus ∈ flags), plus := fl.plus || decide (.plus ∈ flags),
      space := fl.space || decide (.space ∈ flags), pound := fl.pound || decide (.pound ∈ flags),
      zero := fl.zero || decide (.zero ∈ flags), group := fl.group } := by
  induction flags generalizing fl with
  | nil => simp
  | cons f flags ih =>
    rw [List.map_cons, List.foldl_cons, ih]
    cases f <;> simp [Flag.char, Flags.add]

/-- '-' takes '0' away, and '+' takes ' '. -/
theorem Flags.resolve_eq (fl : Flags) : fl.resolve =
    { fl with zero := fl.zero && !fl.minus, space := fl.space && !fl.plus } := by
  obtain ⟨minus, plus, space, pound, zero, group⟩ := fl
  cases minus <;> cases plus <;> simp [Flags.resolve]

theorem ite_minus (c : Prop) [Decidable c] (fl : Flags) :
    (if c then { fl with minus := true } else fl) = { fl with minus := fl.minus || decide c } := by
  by_cases h : c <;> simp [h]

theorem ite_zero (c : Prop) [Decidable c] (fl : Flags) :
    (if c then { fl with zero := false } else fl) = { fl with zero := fl.zero && !decide c } := by
  by_cases h : c <;> simp [h]

/-- `parse_conversion` reads the conversion as it is meant, unless the flag `0` is overridden. -/
theorem conversionOf_means (hfits : sp.Fits args) (hzero : ¬ sp.ZeroOverridden args) (t : List Char) :
    (conversionOf (sp.text ++ t) args).1.Means (sp.options args) ∧
      (conversionOf (sp.text ++ t) args).1.type = sp.type ∧
      (conversionOf (sp.text ++ t) args).2 = sp.valueArgs args ∧
      skipOptions (sp.text ++ t) = sp.conv.char :: t := by
  have hflags : ∀ ch ∈ sp.flags.map Flag.char, isFlag ch = true := by
    intro ch hch
    obtain ⟨f, -, rfl⟩ := List.mem_map.mp hch
    exact isFlag_char f
  obtain ⟨htake, hdrop⟩ := takeWhile_dropWhile hflags (head_width hfits.widthDigits t)
  have hwidth : ∀ ds, sp.width = .digits ds → decimal 0 ds < 2 ^ 31 := by
    intro ds hds
    have hlt := hfits.width
    rw [hds] at hlt
    exact hlt
  obtain ⟨hnumber, hskip⟩ := numberOf_eq args hwidth fun ch hch =>
    ⟨(head_behindWidth sp t ch hch).1, (head_behindWidth sp t ch hch).2.1⟩
  obtain ⟨hprecision, hskip'⟩ := precisionOf_eq hfits.precision (sp.width.read args).2 t
  obtain ⟨htype, hskip''⟩ := typeOf_eq sp.type sp.conv t
  refine ⟨?_, ?_, ?_, ?_⟩
  · unfold conversionOf
    dsimp only
    rw [sp.text_append, htake, hdrop, hskip, hnumber, hprecision, add_flags]
    rw [Flags.resolve_eq, ite_minus, ite_zero]
    have hnone : decide ((0 : Int) ≤ (sp.options args).precision.elim (-1) (fun p => (p : Int))) =
        !(sp.options args).precision.isNone := by
      cases (sp.options args).precision <;> simp
    constructor
    case minus => simp [IntegerSpec.options]
    case plus => simp [IntegerSpec.options]
    case space => simp [IntegerSpec.options]
    case pound => simp [IntegerSpec.options]
    case zero =>
      change ((false || decide (.zero ∈ sp.flags)) && !(false || decide (.minus ∈ sp.flags)) &&
        !decide ((0 : Int) ≤ (sp.options args).precision.elim (-1) (fun p => (p : Int)))) = _
      change _ = (decide (.zero ∈ sp.flags) && !decide (.minus ∈ sp.flags ∨ (sp.width.read args).1 < 0) &&
        (sp.options args).precision.isNone)
      rw [hnone, Bool.eq_iff_iff]
      unfold IntegerSpec.ZeroOverridden at hzero
      simp only [Bool.and_eq_true, Bool.not_eq_true', Bool.false_or, decide_eq_true_eq, decide_eq_false_iff_not,
        Bool.not_not, Option.isNone_iff_eq_none]
      tauto
    case group => rfl
    case width =>
      have hlt := hfits.width
      change (if (sp.width.read args).1 < 0 then int32 (-(sp.width.read args).1) else (sp.width.read args).1) =
        ((sp.width.read args).1.natAbs : Int)
      split
      · rw [int32_eq (by omega) (by omega)]
        omega
      · omega
    case precision => rfl
  · unfold conversionOf
    dsimp only
    rw [sp.text_append, hdrop, hskip, hskip', htype]
  · unfold conversionOf
    dsimp only
    rw [sp.text_append, hdrop, hskip, hnumber, hprecision]
    rfl
  · unfold skipOptions
    rw [sp.text_append, hdrop, hskip, hskip', hskip'']

/-- A specification does not start with a second '%'. -/
theorem head_text (sp : IntegerSpec) (t : List Char) : (sp.text ++ t).head? ≠ some '%' := by
  have hdigit : ∀ d : Fin 10, digitOf d ≠ '%' := by decide
  obtain ⟨flags, width, precision, type, conv⟩ := sp
  unfold IntegerSpec.text IntegerSpec.precisionText
  cases flags with
  | cons f flags => cases f <;> simp [Flag.char]
  | nil =>
    cases width with
    | star => simp [Amount.text]
    | digits ds =>
      cases ds with
      | cons d ds => exact fun heq => hdigit d (Option.some.inj heq)
      | nil =>
        cases precision with
        | some p => simp [Amount.text]
        | none => cases type <;> cases conv <;> simp [Amount.text, ArgType.text, IntConv.char]

/-! ## What is output -/

/-- `__vprintf` outputs what C99 prescribes for the precision, or for 63 if that is less, and goes on behind
the conversion; and `format_integer` writes to its buffer only, whatever the flags are. -/
theorem vprintf_integer (mem : UInt32 → Char) (output : Char → σ → σ) (sp : IntegerSpec) (args : VaList)
    (hfits : sp.Fits args) (hzero : ¬ sp.ZeroOverridden args) (t : List Char) (n : Nat) (aux : σ) :
    vprintf mem output (n + 1) ('%' :: (sp.text ++ t) ++ [nul]) args aux =
        vprintf mem output n (t ++ [nul]) (sp.argsLeft args)
          (outputAll output (integerText (sp.options args).capped sp.conv (sp.value args)) aux) ∧
      ∀ (c : Conversion) (value : Nat), value < 2 ^ 64 → ∃ buf, integerDigits value sp.conv.table c = .ok buf := by
  obtain ⟨hmeans, htype, hargs, hskip⟩ := conversionOf_means hfits hzero t
  have hbase : 8 ≤ sp.conv.table.base := sp.conv.table_base ▸ sp.conv.base_bounds
  refine ⟨?_, fun c value hvalue => integerDigits_ok hbase hvalue c⟩
  have hpercent : (sp.text ++ t).head?.getD nul ≠ '%' := by
    rw [Ne, head?_getD_eq (by decide)]
    exact head_text sp t
  rw [List.cons_append, vprintf, deref_cons, bind_ok, if_neg (by decide), if_neg (by decide)]
  dsimp only
  rw [List.tail_cons, deref_append, bind_ok, if_neg hpercent, parseConversion_eq, bind_ok]
  dsimp only
  rw [hskip, List.cons_append, deref_cons, bind_ok, convert_integer sp.conv hmeans hfits.width, htype, hargs]
  rfl

/-- A precision of 64, for zero. -/
def zeros64 : IntegerSpec :=
  { flags := [], width := .digits [], precision := some (.digits [6, 4]), type := .int, conv := .d }

/-- The flag `0` with a width that is given by an argument. -/
def zeroStar : IntegerSpec := { flags := [.zero], width := .star, precision := none, type := .int, conv := .d }

/-- The arguments -5 and 42. -/
def minusFive : VaList := fun i => if i = 0 then 4294967291 else 42

set_option maxRecDepth 4000 in
/-- `"%.64d"` outputs 63 zeros for zero, and `"%0*d"` outputs six zeros and spaces for the width -5. -/
theorem vprintf_not_c99 :
    vprintf (fun _ => nul) collect 2 ('%' :: zeros64.text ++ [nul]) (fun _ => 0) [] =
        .ok ([nul], List.replicate 63 '0') ∧
      integerText (zeros64.options fun _ => 0) .d (zeros64.value fun _ => 0) = List.replicate 64 '0' ∧
      vprintf (fun _ => nul) collect 2 ('%' :: zeroStar.text ++ [nul]) minusFive [] =
        .ok ([nul], ['0', '0', '0', '4', '2', ' ', ' ', ' ']) ∧
      integerText (zeroStar.options minusFive) .d (zeroStar.value minusFive) = ['4', '2', ' ', ' ', ' '] := by
  refine ⟨rfl, ?_, rfl, ?_⟩
  · have hvalue : zeros64.value (fun _ => 0) = 0 := rfl
    have hnumeral : numeral .d 0 = [] := numeral_zero .d
    rw [hvalue]
    unfold integerText digitsText
    rw [Int.natAbs_zero, hnumeral]
    rfl
  · have hvalue : zeroStar.value minusFive = 42 := rfl
    have hnumeral : numeral .d 42 = ['4', '2'] := by
      norm_num [numeral, IntConv.base, IntConv.digit, Nat.digitChar]
    have habs : (42 : Int).natAbs = 42 := rfl
    rw [hvalue]
    unfold integerText digitsText
    rw [habs, hnumeral]
    rfl

/-- `"%#010x"` of 255. -/
def hexSpec : IntegerSpec :=
  { flags := [.pound, .zero], width := .digits [1, 0], precision := none, type := .int, conv := .x }

/-- 255 in hexadecimal. -/
theorem vprintf_integer_hex :
    vprintf (fun _ => nul) collect 2 ('%' :: (hexSpec.text ++ []) ++ [nul]) (fun _ => 255) [] =
        vprintf (fun _ => nul) collect 1 ([] ++ [nul]) (hexSpec.argsLeft fun _ => 255)
          (outputAll collect (integerText (hexSpec.options fun _ => 255).capped .x
            (hexSpec.value fun _ => 255)) []) ∧
      ∀ (c : Conversion) (value : Nat), value < 2 ^ 64 → ∃ buf, integerDigits value baseX c = .ok buf :=
  vprintf_integer (fun _ => nul) collect hexSpec (fun _ => 255)
    ⟨by decide, fun ds hds => by cases hds; decide, fun ds hds => by cases hds⟩
    (fun hover => absurd hover.2.2.1 (by decide)) [] 1 []

end Pintos.Libc
