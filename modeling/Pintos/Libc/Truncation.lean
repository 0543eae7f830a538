import Pintos.Libc.FormatReading

/-!
# `vsnprintf`

`vsnprintf` counts all the characters that `__vprintf` outputs and stores those that fit, with a zero
behind them (`vsnprintf_truncates`).
-/

namespace Pintos.Libc

open Pintos.Lib

variable {mem : UInt32 → Char} {text : List Char} {buffer bufSize : Nat} {m : Nat → Char}

/-- Characters stored at an address. -/
def stored (m : Nat → Char) (p : Nat) (text : List Char) : Nat → Char := fun i =>
  if p ≤ i then text.getD (i - p) (m i) else m i

theorem stored_nil (m : Nat → Char) (p : Nat) : stored m p [] = m := by
  funext i
  exact ite_self (m i)

theorem stored_cons (m : Nat → Char) (p : Nat) (ch : Char) (text : List Char) :
    stored (Function.update m p ch) (p + 1) text = stored m p (ch :: text) := by
  funext i
  unfold stored
  by_cases hp : i = p
  · subst hp
    rw [if_neg (by omega), if_pos (Nat.le_refl _), Nat.sub_self, Function.update_self]
    rfl
  · rw [Function.update_of_ne hp]
    by_cases hlt : p ≤ i
    · have hsub : i - p = (i - (p + 1)) + 1 := by omega
      rw [if_pos (by omega), if_pos hlt, hsub]
      rfl
    · rw [if_neg (by omega), if_neg hlt]

theorem int32_eq {x : Int} (h : -2 ^ 31 ≤ x) (h' : x < 2 ^ 31) : int32 x = x := by
  unfold int32
  rw [Int.bmod_eq_of_le] <;> omega

/-- After `length` characters of output, of which at most `maxLength` are stored. -/
def auxAfter (buffer length maxLength : Nat) (m : Nat → Char) : VsnprintfAux :=
  { p := buffer + min length maxLength, length := length, maxLength := maxLength, mem := m }

/-- The helper stores a character while there is room, and counts it. -/
theorem vsnprintfHelper_eq {length maxLength : Nat} (h : length + 1 < 2 ^ 31) (ch : Char) :
    vsnprintfHelper ch (auxAfter buffer length maxLength m) = auxAfter buffer (length + 1) maxLength
      (if length < maxLength then Function.update m (buffer + length) ch else m) := by
  have hcount : int32 ((length : Int) + 1) = ((length + 1 : Nat) : Int) := int32_eq (by omega) (by omega)
  unfold vsnprintfHelper auxAfter
  dsimp only
  rw [hcount]
  by_cases hroom : length < maxLength
  · have hmin : min length maxLength = length := by omega
    have hmin' : min (length + 1) maxLength = length + 1 := by omega
    rw [if_pos (by omega), if_pos hroom, hmin, hmin', Nat.add_assoc]
  · have hmin : min length maxLength = maxLength := by omega
    have hmin' : min (length + 1) maxLength = maxLength := by omega
    rw [if_neg (by omega), if_neg hroom, hmin, hmin']

/-- And so for any sequence of characters. -/
theorem outputAll_vsnprintf (maxLength : Nat) : ∀ (text : List Char) (length : Nat) (m : Nat → Char),
    length + text.length < 2 ^ 31 →
      outputAll vsnprintfHelper text (auxAfter buffer length maxLength m) =
        auxAfter buffer (length + text.length) maxLength
          (stored m (buffer + length) (text.take (maxLength - length)))
  | [], length, m, _ => by rw [List.take_nil, stored_nil]; rfl
  | ch :: text, length, m, h => by
    rw [List.length_cons] at h ⊢
    rw [outputAll, vsnprintfHelper_eq (by omega), outputAll_vsnprintf maxLength text _ _ (by omega),
      Nat.add_assoc, Nat.add_comm 1]
    by_cases hroom : length < maxLength
    · have hleft : maxLength - length = maxLength - (length + 1) + 1 := by omega
      rw [if_pos hroom, hleft, List.take_succ_cons, ← stored_cons]
      rfl
    · have hleft : maxLength - (length + 1) = 0 := by omega
      have hleft' : maxLength - length = 0 := by omega
      rw [if_neg hroom, hleft, hleft', List.take_zero, List.take_zero, stored_nil, stored_nil]

/-- The memory `m'` has in the buffer what fits of the text, and a zero behind it; elsewhere it is `m`. -/
structure Truncated (text : List Char) (buffer bufSize : Nat) (m m' : Nat → Char) : Prop where
  outside : ∀ i, ¬ (buffer ≤ i ∧ i < buffer + bufSize) → m' i = m i
  kept : ∀ i (h : i < text.length), i < bufSize - 1 → m' (buffer + i) = text[i]
  zero : 0 < bufSize → m' (buffer + min text.length (bufSize - 1)) = nul

theorem truncated_final (text : List Char) (buffer bufSize : Nat) (m : Nat → Char) :
    Truncated text buffer bufSize m
      (if bufSize > 0 then
        Function.update (stored m buffer (text.take (bufSize - 1)))
          (buffer + min text.length (bufSize - 1)) nul
      else stored m buffer (text.take (bufSize - 1))) := by
  have hstored : ∀ i, stored m buffer (text.take (bufSize - 1)) i =
      if h : buffer ≤ i ∧ i - buffer < min text.length (bufSize - 1) then text[i - buffer] else m i := by
    intro i
    unfold stored
    by_cases hlow : buffer ≤ i
    · rw [if_pos hlow, List.getD_eq_getElem?_getD]
      by_cases hin : i - buffer < min text.length (bufSize - 1)
      · rw [dif_pos ⟨hlow, hin⟩, List.getElem?_take_of_lt (by omega),
          List.getElem?_eq_getElem (by omega), Option.getD_some]
      · rw [dif_neg (fun h => hin h.2), List.getElem?_eq_none (by rw [List.length_take]; omega),
          Option.getD_none]
    · rw [if_neg hlow, dif_neg fun h => hlow h.1]
  by_cases hpos : bufSize > 0
  · rw [if_pos hpos]
    refine ⟨fun i hi => ?_, fun i hi hlt => ?_, fun _ => Function.update_self _ _ _⟩
    · rw [Function.update_of_ne (by omega), hstored, dif_neg (by omega)]
    · rw [Function.update_of_ne (by omega), hstored, dif_pos (by omega)]
      congr 1
      omega
  · rw [if_neg hpos]
    refine ⟨fun i hi => ?_, fun i hi hlt => ?_, fun h => absurd h hpos⟩
    · rw [hstored, dif_neg (by omega)]
    · omega

theorem vsnprintf_eq {n : Nat} {format rest : List Char} {args : VaList}
    (hfull : vprintf mem collect n format args [] = .ok (rest, text)) (hlen : text.length < 2 ^ 31 - 1)
    (hsize : bufSize ≤ 2 ^ 31 - 1) (buffer : Nat) (m : Nat → Char) :
    ∃ m', vsnprintf mem n buffer bufSize format args m = .ok (text.length, m') ∧
      Truncated text buffer bufSize m m' := by
  have hmax : (if bufSize > 0 then int32 (bufSize - 1) else 0) = ((bufSize - 1 : Nat) : Int) := by
    split
    next hpos =>
      rw [int32_eq (by omega) (by omega)]
      omega
    next hpos =>
      have hzero : bufSize - 1 = 0 := by omega
      rw [hzero]
      rfl
  have hstart : (⟨buffer, 0, ((bufSize - 1 : Nat) : Int), m⟩ : VsnprintfAux) =
      auxAfter buffer 0 (bufSize - 1) m := by
    unfold auxAfter
    rw [Nat.zero_min]
    rfl
  have hrun : vprintf mem vsnprintfHelper n format args (auxAfter buffer 0 (bufSize - 1) m) =
      .ok (rest, auxAfter buffer text.length (bufSize - 1)
        (stored m buffer (text.take (bufSize - 1)))) := by
    rw [vprintf_text, hfull]
    show Except.ok (rest, outputAll vsnprintfHelper text _) = _
    rw [outputAll_vsnprintf (bufSize - 1) text 0 m (by omega), Nat.zero_add]
    rfl
  refine ⟨_, ?_, truncated_final text buffer bufSize m⟩
  unfold vsnprintf
  dsimp only
  rw [hmax, hstart, hrun]
  rfl

/-- The result does not depend on how large the buffer is, as far as it goes. -/
theorem Truncated.extends {bufSize' : Nat} {m₁ m₂ : Nat → Char} (h : Truncated text buffer bufSize m m₁)
    (h' : Truncated text buffer bufSize' m m₂) (hle : bufSize ≤ bufSize') :
    ∀ i < min text.length (bufSize - 1), m₂ (buffer + i) = m₁ (buffer + i) := by
  intro i hi
  rw [h.kept i (by omega) (by omega), h'.kept i (by omega) (by omega)]

/-- For a format that does not end inside a conversion `vsnprintf` returns how long the whole output is,
writes to its buffer only, and leaves there as much of the output as fits with a zero behind it. With a
larger buffer there is more of the same. -/
theorem vsnprintf_truncates (mem : UInt32 → Char) (args : VaList) (s : List Char) (n : Nat)
    (hs : ∀ ch ∈ s, ch ≠ nul) (hcomplete : Complete s) (hn : s.length + 22 ≤ n) :
    ∃ text, vprintf mem collect n (s ++ [nul]) args [] = .ok ([nul], text) ∧
      (text.length < 2 ^ 31 - 1 → ∀ (buffer : Nat) (m : Nat → Char),
        (∀ bufSize, bufSize ≤ 2 ^ 31 - 1 → ∃ m',
          vsnprintf mem n buffer bufSize (s ++ [nul]) args m = .ok (text.length, m') ∧
            Truncated text buffer bufSize m m') ∧
        ∀ bufSize bufSize', bufSize ≤ bufSize' → bufSize' ≤ 2 ^ 31 - 1 → ∀ r₁ r₂,
          vsnprintf mem n buffer bufSize (s ++ [nul]) args m = .ok r₁ →
          vsnprintf mem n buffer bufSize' (s ++ [nul]) args m = .ok r₂ →
            ∀ i < min text.length (bufSize - 1), r₂.2 (buffer + i) = r₁.2 (buffer + i)) := by
  obtain ⟨text, hfull⟩ := (vprintf_reads n s args [] hs hn).1 hcomplete
  refine ⟨text, hfull, fun hlen buffer m =>
    ⟨fun bufSize hsize => vsnprintf_eq hfull hlen hsize buffer m, ?_⟩⟩
  intro bufSize bufSize' hle hsize r₁ r₂ h₁ h₂
  obtain ⟨m₁, hm₁, htrunc₁⟩ := vsnprintf_eq hfull hlen (Nat.le_trans hle hsize) buffer m
  obtain ⟨m₂, hm₂, htrunc₂⟩ := vsnprintf_eq hfull hlen hsize buffer m
  cases h₁.symm.trans hm₁
  cases h₂.symm.trans hm₂
  exact htrunc₁.extends htrunc₂ hle

/-- `a%d` with a buffer of three characters. -/
theorem vsnprintf_truncates_three : ∃ m', vsnprintf (fun _ => nul) 25 100 3
      (['a', '%', 'd'] ++ [nul]) (fun _ => 1234) (fun _ => '?') = .ok (5, m') ∧
    m' 101 = '1' ∧ m' 102 = nul ∧ m' 103 = '?' := by
  have hskip : skipOptions ['d'] = ['d'] := by decide
  obtain ⟨text, hfull, htrunc⟩ := vsnprintf_truncates (fun _ => nul) (fun _ => 1234) ['a', '%', 'd'] 25
    (by simp [nul]) (.literal (by decide) (.conversion (by decide) hskip .nil)) (by decide)
  have htext : text = ['a', '1', '2', '3', '4'] := by
    have hrun : vprintf (fun _ => nul) collect 25 (['a', '%', 'd'] ++ [nul]) (fun _ => 1234) [] =
        .ok ([nul], ['a', '1', '2', '3', '4']) := rfl
    rw [hrun] at hfull
    cases hfull
    rfl
  subst htext
  obtain ⟨m', hrun, houtside, hkept, hzero⟩ := (htrunc (by decide) 100 fun _ => '?').1 3 (by decide)
  exact ⟨m', hrun, hkept 1 (by decide) (by decide), hzero (by decide), houtside 103 (by omega)⟩

end Pintos.Libc
