import Pintos.Libc.Formatting

/-!
# How far `__vprintf` reads

A format is `Complete` if it does not end inside a conversion. `__vprintf` then reads all of it and stops
at the zero. Otherwise it takes the zero for the character of a conversion and steps over it, to read
what is behind the end (`vprintf_reads_iff`).
-/

namespace Pintos.Libc

open Pintos.Lib

variable {σ : Type} {mem : UInt32 → Char} {output : Char → σ → σ} {args : VaList} {aux : σ} {ch : Char}
  {s t : List Char} {n : Nat}

/-- The format does not end inside a conversion. -/
inductive Complete : List Char → Prop
  | nil : Complete []
  | literal {ch : Char} {s : List Char} : ch ≠ '%' → Complete s → Complete (ch :: s)
  | percent {s : List Char} : Complete s → Complete ('%' :: '%' :: s)
  | conversion {ch : Char} {s t : List Char} : s.head? ≠ some '%' → skipOptions s = ch :: t →
      Complete t → Complete ('%' :: s)

/-! ## What is left of a format -/

theorem skipNumber_suffix (s : List Char) : skipNumber s <:+ s := by
  unfold skipNumber
  split
  · exact List.tail_suffix s
  · exact List.dropWhile_suffix _

theorem skipPrecision_suffix (s : List Char) : skipPrecision s <:+ s := by
  unfold skipPrecision
  split
  · exact (skipNumber_suffix s.tail).trans (List.tail_suffix s)
  · exact List.suffix_rfl

theorem skipType_suffix (s : List Char) : skipType s <:+ s := by
  have htail := List.tail_suffix s
  have htwice := (List.tail_suffix s.tail).trans htail
  unfold skipType
  split
  · split
    · exact htwice
    · exact htail
  · split
    · exact htwice
    · exact htail
  · exact htail
  · exact htail
  · exact htail
  · exact List.suffix_rfl

theorem skipOptions_suffix (s : List Char) : skipOptions s <:+ s :=
  (skipType_suffix _).trans <| (skipPrecision_suffix _).trans <|
    (skipNumber_suffix _).trans (List.dropWhile_suffix _)

/-! ## One round -/

theorem vprintf_literal (hnul : ch ≠ nul) (hch : ch ≠ '%') :
    vprintf mem output (n + 1) (ch :: s ++ [nul]) args aux =
      vprintf mem output n (s ++ [nul]) args (output ch aux) := by
  rw [List.cons_append, vprintf, deref_cons, bind_ok, if_neg hnul, if_pos hch, List.tail_cons]

theorem vprintf_percent : vprintf mem output (n + 1) ('%' :: '%' :: s ++ [nul]) args aux =
    vprintf mem output n (s ++ [nul]) args (output '%' aux) := rfl

/-- A conversion goes on behind the character that it has stopped at. -/
theorem vprintf_conversion (mem : UInt32 → Char) (output : Char → σ → σ) (args : VaList) (aux : σ)
    (hn : 21 ≤ n) (hs : s.head? ≠ some '%') : ∃ args' aux',
    vprintf mem output (n + 1) ('%' :: s ++ [nul]) args aux =
      vprintf mem output n (skipOptions s ++ [nul]).tail args' aux' := by
  have hpercent : s.head?.getD nul ≠ '%' := by rwa [Ne, head?_getD_eq (by decide)]
  rw [List.cons_append, vprintf, deref_cons, bind_ok, if_neg (by decide), if_neg (by decide)]
  dsimp only
  rw [List.tail_cons, deref_append, bind_ok, if_neg hpercent, parseConversion_eq, bind_ok]
  dsimp only
  rw [deref_append, bind_ok]
  obtain ⟨o, hconvert⟩ := convert_ok mem output ((skipOptions s).head?.getD nul)
    (conversionOf s args).1 (conversionOf s args).2 aux
  rw [hconvert]
  cases o with
  | some r => exact ⟨r.1, r.2, rfl⟩
  | none =>
    obtain ⟨aux', hunsupported⟩ := vprintf_unsupported mem output hn
      ((skipOptions s).head?.getD nul) (fun _ => UInt32.ofNat ((skipOptions s).head?.getD nul).toNat) aux
    refine ⟨(conversionOf s args).2, aux', ?_⟩
    show (vprintf mem output n (unsupported _) _ aux >>= _) = _
    rw [hunsupported]
    rfl

/-! ## The whole format -/

theorem vprintf_reads (n : Nat) : ∀ (s : List Char) (args : VaList) (aux : σ), (∀ ch ∈ s, ch ≠ nul) →
    s.length + 22 ≤ n →
      (Complete s → ∃ aux', vprintf mem output n (s ++ [nul]) args aux = .ok ([nul], aux')) ∧
        (¬ Complete s → vprintf mem output n (s ++ [nul]) args aux = .error .pastEnd) := by
  induction n with
  | zero =>
    intro s _ _ _ hn
    omega
  | succ n ih =>
    intro s args aux hnul hn
    cases s with
    | nil => exact ⟨fun _ => ⟨aux, rfl⟩, fun h => absurd .nil h⟩
    | cons ch s =>
      have hch := hnul ch List.mem_cons_self
      have hnul' : ∀ ch ∈ s, ch ≠ nul := fun ch hch => hnul ch (List.mem_cons_of_mem _ hch)
      rw [List.length_cons] at hn
      by_cases hlit : ch = '%'
      · subst hlit
        by_cases hpercent : s.head? = some '%'
        · obtain ⟨t, rfl⟩ := List.head?_eq_some_iff.mp hpercent
          rw [List.length_cons] at hn
          obtain ⟨hok, herr⟩ := ih t args (output '%' aux)
            (fun ch hch => hnul' ch (List.mem_cons_of_mem _ hch)) (by omega)
          rw [vprintf_percent]
          refine ⟨fun h => hok ?_, fun h => herr fun ht => h (.percent ht)⟩
          cases h with
          | literal hne _ => exact absurd rfl hne
          | percent ht => exact ht
          | conversion hne _ _ => exact absurd rfl hne
        · obtain ⟨args', aux', hstep⟩ := vprintf_conversion mem output args aux
            (show 21 ≤ n by omega) hpercent
          rw [hstep]
          cases hskip : skipOptions s with
          | nil =>
            have hincomplete : ¬ Complete ('%' :: s) := by
              intro h
              cases h with
              | literal hne _ => exact hne rfl
              | percent ht => exact hpercent rfl
              | conversion _ hskip' _ =>
                rw [hskip] at hskip'
                cases hskip'
            refine ⟨fun h => absurd h hincomplete, fun _ => ?_⟩
            obtain ⟨m, rfl⟩ := Nat.exists_eq_add_of_le' (show 1 ≤ n by omega)
            rfl
          | cons ch t =>
            have hsuffix : ch :: t <:+ s := hskip ▸ skipOptions_suffix s
            have hlen := hsuffix.length_le
            rw [List.length_cons] at hlen
            obtain ⟨hok, herr⟩ := ih t args' aux'
              (fun ch' hch' => hnul' ch' (hsuffix.subset (List.mem_cons_of_mem _ hch'))) (by omega)
            refine ⟨fun h => hok ?_, fun h => herr fun ht => h (.conversion hpercent hskip ht)⟩
            cases h with
            | literal hne _ => exact absurd rfl hne
            | percent ht => exact absurd rfl hpercent
            | conversion _ hskip' ht =>
              rw [hskip] at hskip'
              cases hskip'
              exact ht
      · obtain ⟨hok, herr⟩ := ih s args (output ch aux) hnul' (by omega)
        rw [vprintf_literal hch hlit]
        refine ⟨fun h => hok ?_, fun h => herr fun hs => h (.literal hlit hs)⟩
        cases h with
        | literal _ hs => exact hs
        | percent => exact absurd rfl hlit
        | conversion => exact absurd rfl hlit

/-- `__vprintf` reads its format up to the zero and nothing behind it, if and only if the format does not
end inside a conversion. If it does the character behind the zero is read. -/
theorem vprintf_reads_iff (mem : UInt32 → Char) (output : Char → σ → σ) (args : VaList) (aux : σ)
    (s : List Char) (n : Nat) (hs : ∀ ch ∈ s, ch ≠ nul) (hn : s.length + 22 ≤ n) :
    ((∃ aux', vprintf mem output n (s ++ [nul]) args aux = .ok ([nul], aux')) ↔ Complete s) ∧
      (vprintf mem output n (s ++ [nul]) args aux = .error .pastEnd ↔ ¬ Complete s) := by
  obtain ⟨hok, herr⟩ := vprintf_reads n s args aux hs hn
  constructor
  · refine ⟨fun ⟨aux', hret⟩ => ?_, hok⟩
    by_contra hno
    rw [herr hno] at hret
    cases hret
  · refine ⟨fun hfault hyes => ?_, herr⟩
    obtain ⟨aux', hret⟩ := hok hyes
    rw [hret] at hfault
    cases hfault

/-- `%5ld`. -/
theorem vprintf_reads_iff_ld : ∃ aux', vprintf (fun _ => nul) collect 26
    (['%', '5', 'l', 'd'] ++ [nul]) (fun _ => 7) [] = .ok ([nul], aux') := by
  have hskip : skipOptions ['5', 'l', 'd'] = ['d'] := by decide
  exact (vprintf_reads_iff (fun _ => nul) collect (fun _ => 7) [] ['%', '5', 'l', 'd'] 26 (by simp [nul])
    (by decide)).1.mpr (.conversion (by decide) hskip .nil)

/-- Formats that end behind the percent sign, a flag, a width, a point, a precision and a length
modifier. -/
theorem vprintf_past_end :
    vprintf (fun _ => nul) collect 25 ['%', nul] (fun _ => 0) [] = .error .pastEnd ∧
      vprintf (fun _ => nul) collect 25 ['%', '-', nul] (fun _ => 0) [] = .error .pastEnd ∧
      vprintf (fun _ => nul) collect 25 ['%', '5', nul] (fun _ => 0) [] = .error .pastEnd ∧
      vprintf (fun _ => nul) collect 25 ['%', '.', nul] (fun _ => 0) [] = .error .pastEnd ∧
      vprintf (fun _ => nul) collect 25 ['%', '.', '2', nul] (fun _ => 0) [] = .error .pastEnd ∧
      vprintf (fun _ => nul) collect 25 ['%', 'h', nul] (fun _ => 0) [] = .error .pastEnd :=
  ⟨rfl, rfl, rfl, rfl, rfl, rfl⟩

end Pintos.Libc
