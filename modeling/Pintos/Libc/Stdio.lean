import Mathlib.Algebra.Group.Int.Defs
import Mathlib.Algebra.Group.Nat.Defs
import Mathlib.Logic.Function.Basic
import Pintos.Lib.Fallible

/-!
# Formatted output

`__vprintf` of `lib/stdio.c` and the functions under it, and `vsnprintf`. A pointer into a format is
what is left of it, with the zero at its end; to look behind that is a fault, `pastEnd`. The arguments
are the words on the stack, of which a `long long` takes two. `output` is any function on the
auxiliary data. Signed numbers of 32 bits wrap around.

The rounds of a loop and the calls of `__vprintf` that are nested count down the fuel.
-/

namespace Pintos.Libc

open Pintos.Lib

inductive PrintfFault where
  /-- A character behind the end of the format. -/
  | pastEnd
  /-- A character behind the end of `buf` in `format_integer`. -/
  | buffer
  /-- The fuel is not enough. -/
  | notDone
  deriving DecidableEq, Repr

def nul : Char := Char.ofNat 0

/-- `*format`. -/
def deref : List Char → Except PrintfFault Char
  | [] => .error .pastEnd
  | ch :: _ => .ok ch

/-- The value of an `int`. -/
def int32 (x : Int) : Int := x.bmod (2 ^ 32)

/-! ## Arguments -/

/-- The words of the arguments that are left. -/
abbrev VaList := Nat → UInt32

def vaSkip (args : VaList) (n : Nat) : VaList := fun i => args (i + n)

/-- `va_arg (args, int)`. -/
def vaInt (args : VaList) : Int × VaList := (int32 (args 0).toNat, vaSkip args 1)

/-- `va_arg (args, long long)`, without a sign. -/
def vaLongLong (args : VaList) : Nat × VaList :=
  ((args 0).toNat + 2 ^ 32 * (args 1).toNat, vaSkip args 2)

/-! ## `parse_conversion` -/

structure Flags where
  minus : Bool := false
  plus : Bool := false
  space : Bool := false
  pound : Bool := false
  zero : Bool := false
  group : Bool := false
  deriving DecidableEq, Repr

/-- The type of the argument. -/
inductive ArgType where
  | char | short | int | intmax | long | longlong | ptrdifft | sizet
  deriving DecidableEq, Repr

/-- `struct printf_conversion`. -/
structure Conversion where
  flags : Flags
  width : Int
  precision : Int
  type : ArgType
  deriving DecidableEq, Repr

/-- The flag `'`. -/
def groupFlag : Char := Char.ofNat 39

/-- The loop over the flag characters. -/
def parseFlags : List Char → Flags → Except PrintfFault (Flags × List Char)
  | [], _ => .error .pastEnd
  | ch :: format, flags =>
    match ch with
    | '-' => parseFlags format { flags with minus := true }
    | '+' => parseFlags format { flags with plus := true }
    | ' ' => parseFlags format { flags with space := true }
    | '#' => parseFlags format { flags with pound := true }
    | '0' => parseFlags format { flags with zero := true }
    | _ =>
      if ch = groupFlag then parseFlags format { flags with group := true }
      else .ok (flags, ch :: format)

/-- `isdigit`. -/
def isdigit (c : Char) : Bool := '0' ≤ c ∧ c ≤ '9'

/-- The loop over digits. -/
def parseDigits : List Char → Int → Except PrintfFault (Int × List Char)
  | [], _ => .error .pastEnd
  | ch :: format, n =>
    if isdigit ch then parseDigits format (int32 (n * 10 + ch.toNat - 48)) else .ok (n, ch :: format)

/-- A number, or `*` for an argument. -/
def parseNumber (format : List Char) (args : VaList) :
    Except PrintfFault (Int × List Char × VaList) := do
  let ch ← deref format
  if ch = '*' then .ok ((vaInt args).1, format.tail, (vaInt args).2)
  else
    let r ← parseDigits format 0
    .ok (r.1, r.2, args)

/-- The precision. -/
def parsePrecision (format : List Char) (args : VaList) :
    Except PrintfFault (Int × List Char × VaList) := do
  let ch ← deref format
  if ch = '.' then
    let r ← parseNumber format.tail args
    .ok (if r.1 < 0 then -1 else r.1, r.2)
  else .ok (-1, format, args)

/-- The type. -/
def parseType (format : List Char) : Except PrintfFault (ArgType × List Char) := do
  let ch ← deref format
  match ch with
  | 'h' =>
    let next ← deref format.tail
    if next = 'h' then .ok (.char, format.tail.tail) else .ok (.short, format.tail)
  | 'j' => .ok (.intmax, format.tail)
  | 'l' =>
    let next ← deref format.tail
    if next = 'l' then .ok (.longlong, format.tail.tail) else .ok (.long, format.tail)
  | 't' => .ok (.ptrdifft, format.tail)
  | 'z' => .ok (.sizet, format.tail)
  | _ => .ok (.int, format)

/-- `-` overrides `0`, and `+` overrides a space. -/
def Flags.resolve (flags : Flags) : Flags :=
  let flags := if flags.minus then { flags with zero := false } else flags
  if flags.plus then { flags with space := false } else flags

/-- `parse_conversion`. -/
def parseConversion (format : List Char) (args : VaList) :
    Except PrintfFault (Conversion × List Char × VaList) := do
  let f ← parseFlags format {}
  let flags := f.1.resolve
  let w ← parseNumber f.2 args
  let flags := if w.1 < 0 then { flags with minus := true } else flags
  let width := if w.1 < 0 then int32 (-w.1) else w.1
  let p ← parsePrecision w.2.1 w.2.2
  let flags := if 0 ≤ p.1 then { flags with zero := false } else flags
  let t ← parseType p.2.1
  .ok ({ flags := flags, width := width, precision := p.1, type := t.1 }, t.2, p.2.2)

/-! ## Output -/

variable {σ : Type}

/-- Characters one by one. -/
def outputAll (output : Char → σ → σ) : List Char → σ → σ
  | [], aux => aux
  | ch :: chs, aux => outputAll output chs (output ch aux)

/-- `output_dup`. -/
def outputDup (output : Char → σ → σ) (ch : Char) : Nat → σ → σ
  | 0, aux => aux
  | cnt + 1, aux => outputDup output ch cnt (output ch aux)

/-- `struct integer_base`; without an `x` character `x` is `none`. -/
structure IntegerBase where
  base : Nat
  digits : List Char
  x : Option Char
  group : Nat
  deriving DecidableEq, Repr

def baseD : IntegerBase :=
  { base := 10, digits := ['0', '1', '2', '3', '4', '5', '6', '7', '8', '9'], x := none, group := 3 }

def baseO : IntegerBase :=
  { base := 8, digits := ['0', '1', '2', '3', '4', '5', '6', '7'], x := none, group := 3 }

def baseX : IntegerBase :=
  { base := 16, digits := ['0', '1', '2', '3', '4', '5', '6', '7', '8', '9', 'a', 'b', 'c', 'd', 'e', 'f'],
    x := some 'x', group := 4 }

/-- `base_X`. -/
def baseUpperX : IntegerBase :=
  { base := 16, digits := ['0', '1', '2', '3', '4', '5', '6', '7', '8', '9', 'A', 'B', 'C', 'D', 'E', 'F'],
    x := some 'X', group := 4 }

/-- `*cp++ = ch`. The buffer is the list of what has been written, the last first. -/
def push (buf : List Char) (ch : Char) : Except PrintfFault (List Char) :=
  if buf.length < 64 then .ok (ch :: buf) else .error .buffer

/-- The comma after a group of digits. -/
def pushComma (b : IntegerBase) (group : Bool) (digitCnt : Nat) (buf : List Char) :
    Except PrintfFault (List Char) :=
  if group ∧ digitCnt > 0 ∧ digitCnt % b.group = 0 then push buf ',' else .ok buf

/-- The loop that accumulates the digits. -/
def digitLoop (b : IntegerBase) (group : Bool) :
    Nat → Nat → Nat → List Char → Except PrintfFault (List Char)
  | _, 0, _, buf => .ok buf
  | 0, _ + 1, _, _ => .error .notDone
  | n + 1, value + 1, digitCnt, buf => do
    let buf ← pushComma b group digitCnt buf
    let buf ← push buf (b.digits.getD ((value + 1) % b.base) nul)
    digitLoop b group n ((value + 1) / b.base) (digitCnt + 1) buf

/-- The loop that appends zeros. -/
def zeroLoop (precision : Int) : Nat → List Char → Except PrintfFault (List Char)
  | 0, _ => .error .notDone
  | n + 1, buf =>
    if buf.length < precision ∧ buf.length < 64 - 1 then do
      let buf ← push buf '0'
      zeroLoop precision n buf
    else .ok buf

/-- The sign character. -/
def signOf (isSigned negative : Bool) (flags : Flags) : Option Char :=
  if isSigned then
    if flags.plus then some (if negative then '-' else '+')
    else if flags.space then some (if negative then '-' else ' ')
    else if negative then some '-'
    else none
  else none

/-- The characters for the digits of an integer, the last first. -/
def integerDigits (value : Nat) (b : IntegerBase) (c : Conversion) : Except PrintfFault (List Char) := do
  let buf ← digitLoop b c.flags.group 64 value 0 []
  let precision := if c.precision < 0 then 1 else c.precision
  let buf ← zeroLoop precision 64 buf
  if c.flags.pound ∧ b.base = 8 ∧ buf.head? ≠ some '0' then push buf '0' else .ok buf

/-- `format_integer`. -/
def formatInteger (value : Nat) (isSigned negative : Bool) (b : IntegerBase) (c : Conversion)
    (output : Char → σ → σ) (aux : σ) : Except PrintfFault σ := do
  let sign := signOf isSigned negative c.flags
  let x := if c.flags.pound ∧ value ≠ 0 then b.x else none
  let buf ← integerDigits value b c
  let padCnt := int32 (c.width - buf.length - (if x.isSome then 2 else 0) - if sign.isSome then 1 else 0)
  let padCnt := if padCnt < 0 then 0 else padCnt.toNat
  let aux := if ¬ c.flags.minus ∧ ¬ c.flags.zero then outputDup output ' ' padCnt aux else aux
  let aux := outputAll output sign.toList aux
  let aux := outputAll output (x.elim [] fun x => ['0', x]) aux
  let aux := if c.flags.zero then outputDup output '0' padCnt aux else aux
  let aux := outputAll output buf aux
  let aux := if c.flags.minus then outputDup output ' ' padCnt aux else aux
  .ok aux

/-- `strnlen`. -/
def strnlen (string : Nat → Char) : Nat → Nat → Nat
  | 0, length => length
  | n + 1, length => if string length = nul then length else strnlen string n (length + 1)

/-- `format_string`. -/
def formatString (string : Nat → Char) (length : Int) (c : Conversion) (output : Char → σ → σ)
    (aux : σ) : σ :=
  let pad := ((c.width - length) % 2 ^ 32).toNat
  let aux := if c.width > length ∧ ¬ c.flags.minus then outputDup output ' ' pad aux else aux
  let aux := outputAll output ((List.range length.toNat).map string) aux
  if c.width > length ∧ c.flags.minus then outputDup output ' ' pad aux else aux

/-! ## `__vprintf` -/

/-- The argument of a signed conversion. -/
def signedArg (type : ArgType) (args : VaList) : Int × VaList :=
  let word := (args 0).toNat
  let longLong := vaLongLong args
  match type with
  | .char => (Int.bmod word (2 ^ 8), vaSkip args 1)
  | .short => (Int.bmod word (2 ^ 16), vaSkip args 1)
  | .int | .long | .ptrdifft => (int32 word, vaSkip args 1)
  | .intmax | .longlong => (Int.bmod longLong.1 (2 ^ 64), longLong.2)
  | .sizet => (if word > (2 ^ 32 - 1) / 2 then (word : Int) - (2 ^ 32 - 1) - 1 else word, vaSkip args 1)

/-- The argument of an unsigned conversion. -/
def unsignedArg (type : ArgType) (args : VaList) : Nat × VaList :=
  let word := (args 0).toNat
  match type with
  | .char => (word % 2 ^ 8, vaSkip args 1)
  | .short => (word % 2 ^ 16, vaSkip args 1)
  | .int | .long | .sizet => (word, vaSkip args 1)
  | .intmax | .longlong => vaLongLong args
  | .ptrdifft => ((int32 word % 2 ^ 64).toNat &&& (((2 ^ 31 - 1) <<< 1) ||| 1), vaSkip args 1)

/-- `"(null)"`. -/
def nullString : Nat → Char := fun i => ['(', 'n', 'u', 'l', 'l', ')'].getD i nul

/-- A conversion of an unsigned integer. -/
def convertUnsigned (b : IntegerBase) (c : Conversion) (output : Char → σ → σ) (args : VaList)
    (aux : σ) : Except PrintfFault (Option (VaList × σ)) := do
  let value := unsignedArg c.type args
  let aux ← formatInteger value.1 false false b c output aux
  .ok (some (value.2, aux))

/-- The conversions that are supported. `mem` is the memory that strings are in. -/
def convert (mem : UInt32 → Char) (output : Char → σ → σ) (ch : Char) (c : Conversion) (args : VaList)
    (aux : σ) : Except PrintfFault (Option (VaList × σ)) :=
  match ch with
  | 'd' | 'i' => do
    let value := signedArg c.type args
    let abs := (if value.1 < 0 then -value.1 else value.1) % 2 ^ 64
    let aux ← formatInteger abs.toNat true (value.1 < 0) baseD c output aux
    .ok (some (value.2, aux))
  | 'o' => convertUnsigned baseO c output args aux
  | 'u' => convertUnsigned baseD c output args aux
  | 'x' => convertUnsigned baseX c output args aux
  | 'X' => convertUnsigned baseUpperX c output args aux
  | 'c' =>
    let ch := Char.ofNat ((args 0).toNat % 256)
    .ok (some (vaSkip args 1, formatString (fun _ => ch) 1 c output aux))
  | 's' =>
    let s := args 0
    let string := if s = 0 then nullString else fun i => mem (s + UInt32.ofNat i)
    let length := int32 (strnlen string (c.precision % 2 ^ 32).toNat 0)
    .ok (some (vaSkip args 1, formatString string length c output aux))
  | 'p' => do
    let c := { c with flags := { pound := true } }
    let aux ← formatInteger (args 0).toNat false false baseX c output aux
    .ok (some (vaSkip args 1, aux))
  | _ => .ok none

/-- The format that says that a conversion is not supported. -/
def unsupported (ch : Char) : List Char :=
  match ch with
  | 'f' | 'e' | 'E' | 'g' | 'G' | 'n' =>
    ['<', '<', 'n', 'o', ' ', '%', '%', '%', 'c', ' ', 'i', 'n', ' ', 'k', 'e', 'r', 'n', 'e', 'l',
      '>', '>', nul]
  | _ =>
    ['<', '<', 'n', 'o', ' ', '%', '%', '%', 'c', ' ', 'c', 'o', 'n', 'v', 'e', 'r', 's', 'i', 'o', 'n',
      '>', '>', nul]

/-- `__vprintf`: what is left of the format, and the auxiliary data. -/
def vprintf (mem : UInt32 → Char) (output : Char → σ → σ) :
    Nat → List Char → VaList → σ → Except PrintfFault (List Char × σ)
  | 0, _, _, _ => .error .notDone
  | n + 1, format, args, aux => do
    let ch ← deref format
    if ch = nul then .ok (format, aux)
    else if ch ≠ '%' then vprintf mem output n format.tail args (output ch aux)
    else
      let format := format.tail
      let ch ← deref format
      if ch = '%' then vprintf mem output n format.tail args (output '%' aux)
      else
        let r ← parseConversion format args
        let format := r.2.1
        let ch ← deref format
        match ← convert mem output ch r.1 r.2.2 aux with
        | some (args, aux) => vprintf mem output n format.tail args aux
        | none =>
          -- `__printf` of the conversion character
          let s ← vprintf mem output n (unsupported ch) (fun _ => UInt32.ofNat ch.toNat) aux
          vprintf mem output n format.tail r.2.2 s.2

/-! ## `vsnprintf` -/

/-- `struct vsnprintf_aux`, with the memory that the buffer is in. -/
structure VsnprintfAux where
  p : Nat
  length : Int
  maxLength : Int
  mem : Nat → Char

/-- `vsnprintf_helper`. -/
def vsnprintfHelper (ch : Char) (aux : VsnprintfAux) : VsnprintfAux :=
  let length := int32 (aux.length + 1)
  if aux.length < aux.maxLength then
    { aux with length := length, mem := Function.update aux.mem aux.p ch, p := aux.p + 1 }
  else { aux with length := length }

/-- `vsnprintf`: what it returns, and the memory. The strings that it prints are in other memory than the
buffer. -/
def vsnprintf (mem : UInt32 → Char) (n buffer bufSize : Nat) (format : List Char) (args : VaList)
    (m : Nat → Char) : Except PrintfFault (Int × (Nat → Char)) := do
  let maxLength := if bufSize > 0 then int32 (bufSize - 1) else 0
  let aux := { p := buffer, length := 0, maxLength := maxLength, mem := m }
  let r ← vprintf mem vsnprintfHelper n format args aux
  .ok (r.2.length, if bufSize > 0 then Function.update r.2.mem r.2.p nul else r.2.mem)

end Pintos.Libc
