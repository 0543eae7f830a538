import Pintos.Lib.Words
import Pintos.Libc.Strtok

/-!
# The arguments in a command line

`strtok_r` of `lib/string.c`, and the loop of `setup_stack` that counts arguments by the runs of
spaces. A C string is the list of its characters, without the zero at its end: what `strtok_r` leaves
at its saved position is the rest of the string. The two agree on a command line that neither begins
nor ends with a space; otherwise the loop counts an argument more for each (`scanArgs_fst`).
-/

namespace Pintos.Loading

open Pintos.Lib

variable {s rest token : List UInt8} {c : UInt8}

/-- `strtok_r`: the next token, and the string at the saved position. -/
def strtokR (delimiters s : List UInt8) : Option (List UInt8 × List UInt8) :=
  match s.dropWhile fun c => delimiters.contains c with
  | [] => none
  | c :: cs =>
    -- the delimiter after the token is overwritten, and the saved position is behind it
    some ((c :: cs).takeWhile fun c => !delimiters.contains c,
      ((c :: cs).dropWhile fun c => !delimiters.contains c).tail)

def space : UInt8 := 0x20

def isSpace (c : UInt8) : Bool := c == space

/-- The maximal space-free runs of a command line. -/
def tokens (s : List UInt8) : List (List UInt8) := words isSpace s

theorem contains_space (c : UInt8) : [space].contains c = isSpace c := by
  simp [isSpace, Bool.beq_eq_decide_eq]

/-- `strtok_r` with a space as delimiter finds the tokens one by one. -/
theorem tokens_eq (s : List UInt8) : tokens s =
    match strtokR [space] s with
    | none => []
    | some (token, rest) => token :: tokens rest := by
  unfold tokens strtokR
  simp only [contains_space]
  rw [← words_dropWhile s]
  cases h : s.dropWhile fun c => isSpace c with
  | nil => exact words_nil
  | cons c cs =>
    have hc : isSpace c = false := by
      have := List.head?_dropWhile_not isSpace s
      rw [h] at this
      simpa using this
    dsimp only
    rw [words_cons hc]
    simp [hc]

/-- The tokens are what the calls return with pointers into the bytes of the string. -/
theorem exists_tokenizes (hs : 0 ∉ s) :
    ∃ rs, Libc.Tokenizes [space] s rs ∧ tokens s = rs.map fun r => between s r.1 r.2 := by
  obtain ⟨rs, hrs⟩ := exists_runsFrom (· ∈ [space]) s 0 (Nat.zero_le _)
  have hpred : (fun c : UInt8 => c ∈ [space]) = fun c => isSpace c = true := by
    funext c
    rw [← contains_space, List.contains_iff_mem]
  refine ⟨rs, Libc.tokenizes_of_runsFrom (by decide) hs hrs, ?_⟩
  rw [hpred] at hrs
  exact hrs.words_eq.symm

theorem length_rest (h : strtokR [space] s = some (token, rest)) : rest.length < s.length := by
  unfold strtokR at h
  split at h
  next => cases h
  next c cs hs =>
    cases h
    have hdrop := (List.dropWhile_suffix (p := fun c => [space].contains c) (l := s)).length_le
    rw [hs, List.length_cons] at hdrop
    have hc : [space].contains c = false := by
      have := List.head?_dropWhile_not (fun c => [space].contains c) s
      rw [hs] at this
      simpa using this
    have hcs := (List.dropWhile_suffix (p := fun c => !([space].contains c)) (l := cs)).length_le
    rw [List.dropWhile_cons, hc]
    simp only [Bool.not_false, if_true, List.length_tail]
    omega

/-! ## Counting -/

/-- The loop that counts: `argc`, `total_size` and `prevCharWasSpace` over the rest of the command
line. -/
def scanArgs : List UInt8 → Nat → Nat → Bool → Nat × Nat
  | [], argc, totalSize, _ => (argc, totalSize)
  | c :: cs, argc, totalSize, prevCharWasSpace =>
    if c = space ∧ prevCharWasSpace = false then scanArgs cs (argc + 1) (totalSize + 1) true
    else if c ≠ space then scanArgs cs argc (totalSize + 1) false
    else scanArgs cs argc (totalSize + 1) prevCharWasSpace

theorem scanArgs_snd (s : List UInt8) (argc totalSize : Nat) (prev : Bool) :
    (scanArgs s argc totalSize prev).2 = totalSize + s.length := by
  induction s generalizing argc totalSize prev with
  | nil => rfl
  | cons c cs ih =>
    unfold scanArgs
    rw [List.length_cons]
    split
    · rw [ih]
      omega
    · split
      · rw [ih]
        omega
      · rw [ih]
        omega

/-- 1 if the list ends with a space. -/
def endsWithSpace (s : List UInt8) : Nat := if s.getLast? = some space then 1 else 0

/-- 1 if the list begins with a space. -/
def beginsWithSpace (s : List UInt8) : Nat := if s.head? = some space then 1 else 0

theorem endsWithSpace_cons_cons (a c : UInt8) (s : List UInt8) :
    endsWithSpace (a :: c :: s) = endsWithSpace (c :: s) := by
  unfold endsWithSpace
  rw [List.getLast?_cons_cons]

/-- What the loop has still to count, after a space and after another character. -/
theorem scanArgs_after (s : List UInt8) (argc totalSize : Nat) :
    (scanArgs s argc totalSize true).1 + 1 =
        argc + (tokens s).length + endsWithSpace (space :: s) ∧
      ∀ a ≠ space, (scanArgs s argc totalSize false).1 + 1 =
        argc + (tokens (a :: s)).length + endsWithSpace (a :: s) := by
  have hword : ∀ a ≠ space, isSpace a = false := fun a ha => by simpa [isSpace] using ha
  induction s generalizing argc totalSize with
  | nil =>
    refine ⟨by simp [scanArgs, tokens, endsWithSpace], fun a ha => ?_⟩
    have hone : tokens [a] = [[a]] := words_word (List.cons_ne_nil _ _) (by simpa using hword a ha)
    simp [scanArgs, hone, endsWithSpace, ha]
  | cons c cs ih =>
    by_cases hc : c = space
    · subst hc
      have hskip : tokens (space :: cs) = tokens cs := words_sep_cons (by decide) cs
      refine ⟨?_, fun a ha => ?_⟩
      · have h := (ih argc (totalSize + 1)).1
        rw [hskip, endsWithSpace_cons_cons]
        simpa [scanArgs] using h
      · have h := (ih (argc + 1) (totalSize + 1)).1
        have hcons : tokens (a :: space :: cs) = [a] :: tokens cs :=
          words_cons_sep (hword a ha) (by decide) cs
        rw [hcons, endsWithSpace_cons_cons, List.length_cons]
        unfold scanArgs
        rw [if_pos ⟨rfl, rfl⟩, h]
        omega
    · have h := (ih argc (totalSize + 1)).2 c hc
      refine ⟨?_, fun a ha => ?_⟩
      · rw [endsWithSpace_cons_cons]
        simpa [scanArgs, hc] using h
      · have hlen : (tokens (a :: c :: cs)).length = (tokens (c :: cs)).length :=
          length_words_cons_cons (hword a ha) (hword c hc) cs
        rw [hlen, endsWithSpace_cons_cons]
        simpa [scanArgs, hc] using h

/-- `argc` is the number of tokens, and one more for a space at the front and at the end. -/
theorem scanArgs_fst (hs : s ≠ []) : (scanArgs s 1 0 false).1 =
    (tokens s).length + beginsWithSpace s + endsWithSpace s := by
  obtain ⟨c, cs, rfl⟩ := List.exists_cons_of_ne_nil hs
  by_cases hc : c = space
  · subst hc
    have h := (scanArgs_after cs 2 1).1
    have hskip : tokens (space :: cs) = tokens cs := words_sep_cons (by decide) cs
    have hscan : scanArgs (space :: cs) 1 0 false = scanArgs cs 2 1 true := by simp [scanArgs]
    have hbegin : beginsWithSpace (space :: cs) = 1 := by simp [beginsWithSpace]
    rw [hscan, hskip, hbegin]
    omega
  · have h := (scanArgs_after cs 1 1).2 c hc
    have hscan : scanArgs (c :: cs) 1 0 false = scanArgs cs 1 1 false := by simp [scanArgs, hc]
    have hbegin : beginsWithSpace (c :: cs) = 0 := by simp [beginsWithSpace, hc]
    rw [hscan, hbegin]
    omega

end Pintos.Loading
