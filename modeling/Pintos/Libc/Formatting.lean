import Pintos.Libc.Stdio

/-!
# Conversions

What the functions under `__vprintf` do. The characters that are output do not depend on `output`
(`vprintf_text`). `parse_conversion` stops at the character of the conversion or at the end of the
format (`parseConversion_eq`), and `format_integer` stays inside its buffer (`formatInteger_ok`).
-/

namespace Pintos.Libc

open Pintos.Lib

variable {σ τ : Type} {mem : UInt32 → Char} {output : Char → σ → σ} {output' : Char → τ → τ}
  {φ : σ → τ}

/-! ## The callback -/

/-- The callback that keeps all characters. -/
def collect (ch : Char) (text : List Char) : List Char := text ++ [ch]

/-- A map of `aux` that commutes with `output` commutes with writing a text. -/
theorem outputAll_map (h : ∀ ch aux, φ (output ch aux) = output' ch (φ aux)) : ∀ (chs : List Char) (aux : σ),
    φ (outputAll output chs aux) = outputAll output' chs (φ aux)
  | [], _ => rfl
  | ch :: chs, aux => by
    rw [outputAll, outputAll, outputAll_map h chs, h]

/-- It commutes with writing a character several times. -/
theorem outputDup_map (h : ∀ ch aux, φ (output ch aux) = output' ch (φ aux)) (ch : Char) :
    ∀ (cnt : Nat) (aux : σ), φ (outputDup output ch cnt aux) = outputDup output' ch cnt (φ aux)
  | 0, _ => rfl
  | cnt + 1, aux => by
    rw [outputDup, outputDup, outputDup_map h ch cnt, h]

/-- It commutes with `format_integer`. -/
theorem formatInteger_map (h : ∀ ch aux, φ (output ch aux) = output' ch (φ aux)) (value : Nat)
    (isSigned negative : Bool) (b : IntegerBase) (c : Conversion) (aux : σ) :
    formatInteger value isSigned negative b c output' (φ aux) =
      (formatInteger value isSigned negative b c output aux).map φ := by
  unfold formatInteger
  cases integerDigits value b c with
  | error e => rfl
  | ok buf =>
    rw [bind_ok, bind_ok]
    simp only [Except.map, apply_ite φ, outputAll_map h, outputDup_map h]

/-- It commutes with `format_string`. -/
theorem formatString_map (h : ∀ ch aux, φ (output ch aux) = output' ch (φ aux)) (string : Nat → Char)
    (length : Int) (c : Conversion) (aux : σ) :
    formatString string length c output' (φ aux) = φ (formatString string length c output aux) := by
  unfold formatString
  simp only [apply_ite φ, outputAll_map h, outputDup_map h]

/-- A conversion that has been formatted. -/
theorem bind_map (x : Except PrintfFault σ) (args : VaList) :
    (x.map φ >>= fun aux => .ok (some (args, aux)) : Except PrintfFault (Option (VaList × τ))) =
      (x >>= fun aux => .ok (some (args, aux))).map (Option.map (Prod.map id φ)) := by
  cases x <;> rfl

/-- It commutes with an unsigned conversion. -/
theorem convertUnsigned_map (h : ∀ ch aux, φ (output ch aux) = output' ch (φ aux)) (b : IntegerBase)
    (c : Conversion) (args : VaList) (aux : σ) :
    convertUnsigned b c output' args (φ aux) =
      (convertUnsigned b c output args aux).map (Option.map (Prod.map id φ)) := by
  unfold convertUnsigned
  dsimp only
  rw [formatInteger_map h, bind_map]

/-- A map of `aux` that commutes with `output` commutes with every conversion. -/
theorem convert_map (h : ∀ ch aux, φ (output ch aux) = output' ch (φ aux)) (ch : Char) (c : Conversion)
    (args : VaList) (aux : σ) :
    convert mem output' ch c args (φ aux) =
      (convert mem output ch c args aux).map (Option.map (Prod.map id φ)) := by
  unfold convert
  split
  · dsimp only
    rw [formatInteger_map h, bind_map]
  · dsimp only
    rw [formatInteger_map h, bind_map]
  · exact convertUnsigned_map h baseO c args aux
  · exact convertUnsigned_map h baseD c args aux
  · exact convertUnsigned_map h baseX c args aux
  · exact convertUnsigned_map h baseUpperX c args aux
  · dsimp only
    rw [formatString_map h]
    rfl
  · dsimp only
    rw [formatString_map h]
    rfl
  · dsimp only
    rw [formatInteger_map h, bind_map]
  · rfl

/-- What `__vprintf` does to other data. -/
theorem vprintf_map (h : ∀ ch aux, φ (output ch aux) = output' ch (φ aux)) : ∀ (n : Nat)
    (format : List Char) (args : VaList) (aux : σ),
    vprintf mem output' n format args (φ aux) =
      (vprintf mem output n format args aux).map (Prod.map id φ) := by
  intro n
  induction n with
  | zero => intros; rfl
  | succ n ih =>
    intro format args aux
    unfold vprintf
    cases hch : deref format with
    | error e => rfl
    | ok ch =>
      rw [bind_ok, bind_ok]
      by_cases hnul : ch = nul
      · rw [if_pos hnul, if_pos hnul]
        rfl
      rw [if_neg hnul, if_neg hnul]
      by_cases hlit : ch ≠ '%'
      · rw [if_pos hlit, if_pos hlit, ← h, ih]
      rw [if_neg hlit, if_neg hlit]
      dsimp only
      cases hch' : deref format.tail with
      | error e => rfl
      | ok ch' =>
        rw [bind_ok, bind_ok]
        by_cases hpercent : ch' = '%'
        · rw [if_pos hpercent, if_pos hpercent, ← h, ih]
        rw [if_neg hpercent, if_neg hpercent]
        cases parseConversion format.tail args with
        | error e => rfl
        | ok r =>
          rw [bind_ok, bind_ok]
          cases deref r.2.1 with
          | error e => rfl
          | ok conv =>
            rw [bind_ok, bind_ok, convert_map h]
            cases convert mem output conv r.1 r.2.2 aux with
            | error e => rfl
            | ok o =>
              cases o with
              | some x => exact ih _ _ _
              | none =>
                show (vprintf mem output' n (unsupported conv) _ (φ aux) >>= _) = _
                rw [ih]
                show _ = (vprintf mem output n (unsupported conv) _ aux >>= _).map _
                cases vprintf mem output n (unsupported conv) (fun _ => UInt32.ofNat conv.toNat) aux with
                | error e => rfl
                | ok s => exact ih _ _ _

/-- Characters go out in order. -/
theorem outputAll_append (output : Char → σ → σ) : ∀ (chs chs' : List Char) (aux : σ),
    outputAll output (chs ++ chs') aux = outputAll output chs' (outputAll output chs aux)
  | [], _, _ => rfl
  | ch :: chs, chs', aux => outputAll_append output chs chs' (output ch aux)

/-- `__vprintf` outputs the same characters to every callback. -/
theorem vprintf_text (output : Char → σ → σ) (n : Nat) (format : List Char) (args : VaList) (aux : σ) :
    vprintf mem output n format args aux =
      (vprintf mem collect n format args []).map (Prod.map id fun text => outputAll output text aux) := by
  refine vprintf_map (φ := fun text => outputAll output text aux) (fun ch text => ?_) n format args []
  exact outputAll_append output text [ch] aux

/-! ## `parse_conversion` -/

/-- A flag character. -/
def isFlag (ch : Char) : Bool :=
  ch == '-' || ch == '+' || ch == ' ' || ch == '#' || ch == '0' || ch == groupFlag

/-- The flags with one more. -/
def Flags.add (flags : Flags) (ch : Char) : Flags :=
  match ch with
  | '-' => { flags with minus := true }
  | '+' => { flags with plus := true }
  | ' ' => { flags with space := true }
  | '#' => { flags with pound := true }
  | '0' => { flags with zero := true }
  | _ => { flags with group := true }

/-- `parseFlags` reads the flags in front. -/
theorem parseFlags_eq : ∀ (s : List Char) (flags : Flags), parseFlags (s ++ [nul]) flags =
    .ok ((s.takeWhile isFlag).foldl Flags.add flags, s.dropWhile isFlag ++ [nul])
  | [], flags => rfl
  | ch :: s, flags => by
    rw [List.cons_append, List.takeWhile_cons, List.dropWhile_cons]
    by_cases h : isFlag ch = true
    · have hflag := h
      unfold isFlag at hflag
      simp only [Bool.or_eq_true, beq_iff_eq] at hflag
      rw [if_pos h, if_pos h, List.foldl_cons, ← parseFlags_eq s]
      rcases hflag with ((((rfl | rfl) | rfl) | rfl) | rfl) | rfl <;> rfl
    · have hno := h
      unfold isFlag at hno
      simp only [Bool.or_eq_true, beq_iff_eq, not_or] at hno
      rw [if_neg h, if_neg h]
      unfold parseFlags
      split
      all_goals first
        | exact if_neg hno.2
        | simp at hno

/-- The number that digits make, as the code adds it up. -/
def digitsValue (n : Int) (ds : List Char) : Int :=
  ds.foldl (fun n ch => int32 (n * 10 + ch.toNat - 48)) n

/-- `parseDigits` reads the digits in front, as a number. -/
theorem parseDigits_eq : ∀ (s : List Char) (n : Int), parseDigits (s ++ [nul]) n =
    .ok (digitsValue n (s.takeWhile isdigit), s.dropWhile isdigit ++ [nul])
  | [], n => rfl
  | ch :: s, n => by
    rw [List.cons_append, parseDigits, List.takeWhile_cons, List.dropWhile_cons]
    split
    next h => rw [parseDigits_eq s]; rfl
    next h => rfl

/-- What is left after a number. -/
def skipNumber (s : List Char) : List Char :=
  if s.head? = some '*' then s.tail else s.dropWhile isdigit

/-- After a precision. -/
def skipPrecision (s : List Char) : List Char :=
  if s.head? = some '.' then skipNumber s.tail else s

/-- After a length modifier. -/
def skipType (s : List Char) : List Char :=
  match s.head? with
  | some 'h' => if s.tail.head? = some 'h' then s.tail.tail else s.tail
  | some 'l' => if s.tail.head? = some 'l' then s.tail.tail else s.tail
  | some 'j' | some 't' | some 'z' => s.tail
  | _ => s

/-- After the flags, the width, the precision and the length modifier of a conversion: what begins with
the character of the conversion. -/
def skipOptions (s : List Char) : List Char :=
  skipType (skipPrecision (skipNumber (s.dropWhile isFlag)))

/-- What `parse_conversion` makes of a number, and the arguments that are left. -/
def numberOf (s : List Char) (args : VaList) : Int × VaList :=
  if s.head? = some '*' then vaInt args else (digitsValue 0 (s.takeWhile isdigit), args)

/-- Of a precision. -/
def precisionOf (s : List Char) (args : VaList) : Int × VaList :=
  if s.head? = some '.' then
    let r := numberOf s.tail args
    (if r.1 < 0 then -1 else r.1, r.2)
  else (-1, args)

/-- Of a length modifier. -/
def typeOf (s : List Char) : ArgType :=
  match s.head? with
  | some 'h' => if s.tail.head? = some 'h' then .char else .short
  | some 'j' => .intmax
  | some 'l' => if s.tail.head? = some 'l' then .longlong else .long
  | some 't' => .ptrdifft
  | some 'z' => .sizet
  | _ => .int

theorem deref_cons (ch : Char) (s : List Char) : deref (ch :: s) = .ok ch := rfl

/-- A string has a character or its end. -/
theorem deref_append (s : List Char) : deref (s ++ [nul]) = .ok (s.head?.getD nul) := by
  cases s <;> rfl

theorem head?_getD_eq {s : List Char} {ch : Char} (h : ch ≠ nul) :
    s.head?.getD nul = ch ↔ s.head? = some ch := by
  cases s with
  | nil => exact iff_of_false (Ne.symm h) (by simp)
  | cons ch' s => simp

/-- Behind it the string goes on to its end. -/
theorem tail_append {s : List Char} {ch : Char} (h : s.head? = some ch) :
    (s ++ [nul]).tail = s.tail ++ [nul] := by
  cases s with
  | nil => cases h
  | cons ch' s => rfl

/-- A field width is `*` or digits. -/
theorem parseNumber_eq (s : List Char) (args : VaList) : parseNumber (s ++ [nul]) args =
    .ok ((numberOf s args).1, skipNumber s ++ [nul], (numberOf s args).2) := by
  unfold parseNumber numberOf skipNumber
  rw [deref_append, bind_ok]
  simp only [head?_getD_eq (show '*' ≠ nul by decide)]
  split
  next h => rw [tail_append h]
  next h =>
    rw [parseDigits_eq]
    rfl

/-- A precision is one of the two behind a point. -/
theorem parsePrecision_eq (s : List Char) (args : VaList) : parsePrecision (s ++ [nul]) args =
    .ok ((precisionOf s args).1, skipPrecision s ++ [nul], (precisionOf s args).2) := by
  unfold parsePrecision precisionOf skipPrecision
  rw [deref_append, bind_ok]
  simp only [head?_getD_eq (show '.' ≠ nul by decide)]
  split
  next h =>
    rw [tail_append h, parseNumber_eq]
    rfl
  next h => rfl

/-- A modifier that may be doubled. -/
theorem parseTwice (s : List Char) {ch : Char} (hch : ch ≠ nul) (x y : ArgType) :
    (do
      let next ← deref (s ++ [nul])
      if next = ch then .ok (x, (s ++ [nul]).tail) else .ok (y, s ++ [nul]) :
        Except PrintfFault (ArgType × List Char)) =
      .ok (if s.head? = some ch then x else y,
        (if s.head? = some ch then s.tail else s) ++ [nul]) := by
  rw [deref_append, bind_ok]
  simp only [head?_getD_eq hch]
  split
  next h => rw [tail_append h]
  next => rfl

/-- A type is one or two letters. -/
theorem parseType_eq (s : List Char) :
    parseType (s ++ [nul]) = .ok (typeOf s, skipType s ++ [nul]) := by
  unfold parseType typeOf skipType
  rw [deref_append, bind_ok]
  cases s with
  | nil => rfl
  | cons ch s =>
    rw [List.head?_cons, Option.getD_some, List.cons_append, List.tail_cons, List.tail_cons]
    split
    · exact parseTwice s (by decide) .char .short
    · rfl
    · exact parseTwice s (by decide) .longlong .long
    · rfl
    · rfl
    · split <;> simp_all

/-- What `parse_conversion` makes of the options of a conversion, and the arguments that are left. -/
def conversionOf (s : List Char) (args : VaList) : Conversion × VaList :=
  let flags := ((s.takeWhile isFlag).foldl Flags.add {}).resolve
  let s := s.dropWhile isFlag
  let w := numberOf s args
  let flags := if w.1 < 0 then { flags with minus := true } else flags
  let width := if w.1 < 0 then int32 (-w.1) else w.1
  let q := precisionOf (skipNumber s) w.2
  let flags := if 0 ≤ q.1 then { flags with zero := false } else flags
  ({ flags := flags, width := width, precision := q.1, type := typeOf (skipPrecision (skipNumber s)) }, q.2)

/-- `parse_conversion` stops at the character of the conversion, or at the end. -/
theorem parseConversion_eq (s : List Char) (args : VaList) : parseConversion (s ++ [nul]) args =
    .ok ((conversionOf s args).1, skipOptions s ++ [nul], (conversionOf s args).2) := by
  unfold parseConversion
  rw [parseFlags_eq, bind_ok]
  dsimp only
  rw [parseNumber_eq, bind_ok]
  dsimp only
  rw [parsePrecision_eq, bind_ok]
  dsimp only
  rw [parseType_eq, bind_ok]
  rfl

/-! ## `format_integer` -/

/-- There is room in the buffer of 64 bytes. -/
theorem push_ok {buf : List Char} (h : buf.length < 64) (ch : Char) : push buf ch = .ok (ch :: buf) :=
  if_pos h

/-- A comma takes one byte of it at most. -/
theorem pushComma_ok (b : IntegerBase) (group : Bool) (digitCnt : Nat) {buf : List Char}
    (h : buf.length < 64) : ∃ buf', pushComma b group digitCnt buf = .ok buf' ∧
      buf'.length ≤ buf.length + 1 := by
  unfold pushComma
  split
  · exact ⟨_, push_ok h _, Nat.le_refl _⟩
  · exact ⟨_, rfl, Nat.le_succ _⟩

/-- A round of the loop appends a digit, and a comma at most. -/
theorem digitLoop_ok {b : IntegerBase} (hbase : 8 ≤ b.base) (group : Bool) : ∀ (k n value digitCnt : Nat)
    (buf : List Char), value < 8 ^ k → k ≤ n → buf.length + 2 * k ≤ 64 →
      ∃ buf', digitLoop b group n value digitCnt buf = .ok buf' ∧ buf'.length ≤ buf.length + 2 * k := by
  intro k
  induction k with
  | zero =>
    intro n value digitCnt buf hvalue _ _
    obtain rfl : value = 0 := by omega
    refine ⟨buf, ?_, Nat.le_refl _⟩
    cases n <;> rfl
  | succ k ih =>
    intro n value digitCnt buf hvalue hn hlen
    cases value with
    | zero =>
      refine ⟨buf, ?_, by omega⟩
      cases n <;> rfl
    | succ value =>
      obtain ⟨n, rfl⟩ := Nat.exists_eq_add_of_lt (show 0 < n by omega)
      rw [Nat.zero_add]
      have hdiv : (value + 1) / b.base < 8 ^ k := by
        have hle : (value + 1) / b.base ≤ (value + 1) / 8 := Nat.div_le_div_left hbase (by decide)
        have hlt : (value + 1) / 8 < 8 ^ k := by
          rw [Nat.div_lt_iff_lt_mul (by decide), ← Nat.pow_succ]
          exact hvalue
        omega
      obtain ⟨buf₁, hcomma, hlen₁⟩ := pushComma_ok b group digitCnt (show buf.length < 64 by omega)
      obtain ⟨buf', hloop, hlen'⟩ := ih n ((value + 1) / b.base) (digitCnt + 1)
        (b.digits.getD ((value + 1) % b.base) nul :: buf₁) hdiv (by omega)
        (by rw [List.length_cons]; omega)
      rw [List.length_cons] at hlen'
      refine ⟨buf', ?_, by omega⟩
      unfold digitLoop
      rw [hcomma, bind_ok, push_ok (by omega), bind_ok]
      exact hloop

/-- Zeros are appended up to the precision, and up to one less than the buffer holds. -/
theorem zeroLoop_eq (precision : Int) : ∀ (n : Nat) (buf : List Char), 0 < n → 63 < buf.length + n →
    zeroLoop precision n buf =
      .ok (List.replicate (min precision 63 - buf.length).toNat '0' ++ buf)
  | n + 1, buf, _, h => by
    unfold zeroLoop
    split
    next hmore =>
      obtain ⟨cnt, hcnt⟩ : ∃ cnt, (min precision 63 - buf.length).toNat = cnt + 1 :=
        Nat.exists_eq_succ_of_ne_zero (by omega)
      have hrest : (min precision 63 - ('0' :: buf).length).toNat = cnt := by
        rw [List.length_cons]
        omega
      rw [push_ok (by omega), bind_ok, zeroLoop_eq precision n _ (by omega)
        (by rw [List.length_cons]; omega), hrest, hcnt, List.replicate_succ', List.append_assoc]
      rfl
    next hmore =>
      have hzero : (min precision 63 - buf.length).toNat = 0 := by omega
      rw [hzero]
      rfl

/-- `format_integer` writes to its buffer only. -/
theorem integerDigits_ok {value : Nat} {b : IntegerBase} (hbase : 8 ≤ b.base) (hvalue : value < 2 ^ 64)
    (c : Conversion) : ∃ buf, integerDigits value b c = .ok buf := by
  obtain ⟨buf, hloop, hlen⟩ := digitLoop_ok hbase c.flags.group 22 64 value 0 [] (by omega) (by decide)
    (by decide)
  rw [List.length_nil] at hlen
  unfold integerDigits
  rw [hloop, bind_ok]
  dsimp only
  generalize (if c.precision < 0 then 1 else c.precision) = precision
  rw [zeroLoop_eq precision 64 buf (by decide) (by omega), bind_ok]
  split
  next =>
    refine ⟨_, push_ok ?_ '0'⟩
    rw [List.length_append, List.length_replicate]
    omega
  next => exact ⟨_, rfl⟩

/-- The digits of 64 bits with their commas have room in every base of the table. -/
theorem formatInteger_ok {value : Nat} {b : IntegerBase} (hbase : 8 ≤ b.base) (hvalue : value < 2 ^ 64)
    (isSigned negative : Bool) (c : Conversion) (output : Char → σ → σ) (aux : σ) :
    ∃ aux', formatInteger value isSigned negative b c output aux = .ok aux' := by
  obtain ⟨buf, hdigits⟩ := integerDigits_ok hbase hvalue c
  unfold formatInteger
  rw [hdigits]
  exact ⟨_, rfl⟩

/-! ## Conversions -/

variable {args : VaList} {aux : σ} {ch : Char} {s t : List Char} {n : Nat}

/-- An argument has at most 64 bits. -/
theorem unsignedArg_lt (type : ArgType) (args : VaList) : (unsignedArg type args).1 < 2 ^ 64 := by
  have hlow := (args 0).toNat_lt
  have hhigh := (args 1).toNat_lt
  have hmask : ∀ x : Nat, x &&& (((2 ^ 31 - 1) <<< 1) ||| 1) ≤ 2 ^ 32 - 1 := fun x => Nat.and_le_right
  unfold unsignedArg vaLongLong
  cases type
  case ptrdifft => exact Nat.lt_of_le_of_lt (hmask _) (by decide)
  all_goals
    dsimp only
    omega

/-- No unsigned conversion runs out of the buffer. -/
theorem convertUnsigned_ok {b : IntegerBase} (hbase : 8 ≤ b.base) (c : Conversion)
    (output : Char → σ → σ) (args : VaList) (aux : σ) :
    ∃ o, convertUnsigned b c output args aux = .ok o := by
  obtain ⟨aux', hformat⟩ := formatInteger_ok hbase (unsignedArg_lt c.type args) false false c output aux
  unfold convertUnsigned
  dsimp only
  rw [hformat]
  exact ⟨_, rfl⟩

/-- Every conversion is done or not supported. -/
theorem convert_ok (mem : UInt32 → Char) (output : Char → σ → σ) (ch : Char) (c : Conversion)
    (args : VaList) (aux : σ) : ∃ o, convert mem output ch c args aux = .ok o := by
  have hsigned : ∃ o, convert mem output 'd' c args aux = .ok o := by
    have hlt : ((if (signedArg c.type args).1 < 0 then -(signedArg c.type args).1
        else (signedArg c.type args).1) % 2 ^ 64).toNat < 2 ^ 64 := by omega
    obtain ⟨aux', hformat⟩ := formatInteger_ok (show 8 ≤ baseD.base by decide) hlt true
      ((signedArg c.type args).1 < 0) c output aux
    unfold convert
    dsimp only
    rw [hformat]
    exact ⟨_, rfl⟩
  unfold convert
  split
  · exact hsigned
  · exact hsigned
  · exact convertUnsigned_ok (by decide) c output args aux
  · exact convertUnsigned_ok (by decide) c output args aux
  · exact convertUnsigned_ok (by decide) c output args aux
  · exact convertUnsigned_ok (by decide) c output args aux
  · exact ⟨_, rfl⟩
  · exact ⟨_, rfl⟩
  · obtain ⟨aux', hformat⟩ := formatInteger_ok (show 8 ≤ baseX.base by decide)
      (Nat.lt_trans (args 0).toNat_lt (by decide : 2 ^ 32 < 2 ^ 64)) false false
      { c with flags := { pound := true } } output aux
    dsimp only
    rw [hformat]
    exact ⟨_, rfl⟩
  · exact ⟨_, rfl⟩

/-- What is output for a conversion that is not supported. -/
theorem vprintf_unsupported (mem : UInt32 → Char) (output : Char → σ → σ) (hn : 21 ≤ n) (ch : Char)
    (args : VaList) (aux : σ) :
    ∃ aux', vprintf mem output n (unsupported ch) args aux = .ok ([nul], aux') := by
  obtain ⟨m, rfl⟩ := Nat.exists_eq_add_of_le hn
  rw [Nat.add_comm]
  unfold unsupported
  split <;> exact ⟨_, rfl⟩

end Pintos.Libc
