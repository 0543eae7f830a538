import Mathlib.Data.List.Basic
import Mathlib.Data.Nat.Init
import Pintos.Lib.Fallible
import Pintos.Lib.Runs

/-!
# `strtok_r`

The tokenizer of `lib/string.c` on the bytes of a string and of its delimiters, each with the zero at
its end. A pointer into a string is an index; to look at or write to a byte behind the zero is a fault,
`outside`.

The calls one after another find the runs of the string (`strtokCalls_ok`): between two of them the
string from the saved position on is as it was.
-/

namespace Pintos.Libc

open Pintos.Lib

inductive StrtokFault where
  /-- `s != NULL`. -/
  | null
  /-- A byte behind the end of a string. -/
  | outside
  deriving DecidableEq, Repr

/-- `strchr`, on the bytes from the pointer `string` on. -/
def strchr (c : UInt8) : List UInt8 → Nat → Except StrtokFault (Option Nat)
  | [], _ => .error .outside
  | b :: bs, string =>
    if b = c then .ok (some string)
    else if b = 0 then .ok none
    else strchr c bs (string + 1)

/-- The loop of `strtok_r` that skips delimiters, and whether it has come to the end. -/
def skipLoop (delimiters : List UInt8) : List UInt8 → Nat → Except StrtokFault (Nat × Bool)
  | [], _ => .error .outside
  | b :: bs, s => do
    let found ← strchr b delimiters 0
    if found ≠ none then
      if b = 0 then .ok (s, true)
      else skipLoop delimiters bs (s + 1)
    else .ok (s, false)

/-- The loop that skips other characters. -/
def tokenLoop (delimiters : List UInt8) : List UInt8 → Nat → Except StrtokFault Nat
  | [], _ => .error .outside
  | b :: bs, s => do
    let found ← strchr b delimiters 0
    if found = none then tokenLoop delimiters bs (s + 1)
    else .ok s

/-- `*s`. -/
def charAt (string : List UInt8) (s : Nat) : Except StrtokFault UInt8 :=
  match string[s]? with
  | none => .error .outside
  | some c => .ok c

/-- The string that is being tokenized, and `*save_ptr`. -/
structure Tokenizer where
  string : List UInt8
  savePtr : Option Nat
  deriving DecidableEq, Repr

/-- `strtok_r`, from `s` on or from the saved position: the token, and what it leaves. -/
def strtokR (delimiters : List UInt8) (s : Option Nat) (t : Tokenizer) :
    Except StrtokFault (Option Nat × Tokenizer) :=
  match s.or t.savePtr with
  | none => .error .null
  | some s => do
    let skipped ← skipLoop delimiters (t.string.drop s) s
    if skipped.2 then .ok (none, ⟨t.string, some skipped.1⟩)
    else do
      let token := skipped.1
      let s ← tokenLoop delimiters (t.string.drop token) token
      let c ← charAt t.string s
      if c ≠ 0 then .ok (some token, ⟨t.string.set s 0, some (s + 1)⟩)
      else .ok (some token, ⟨t.string, some s⟩)

/-- The string in the first call, and a null pointer then. -/
def strtokCalls (delimiters string : List UInt8) :
    Nat → Except StrtokFault (List (Option Nat) × Tokenizer)
  | 0 => .ok ([], ⟨string, none⟩)
  | n + 1 => do
    let before ← strtokCalls delimiters string n
    let call ← strtokR delimiters (if n = 0 then some 0 else none) before.2
    .ok (before.1 ++ [call.1], call.2)

variable {ds s : List UInt8} {c : UInt8} {a i j k n : Nat} {ends : List Nat} {rs : List (Nat × Nat)}

/-! ## The loops -/

/-- The zero is found in every string. -/
theorem strchr_ok (hds : 0 ∉ ds) (c : UInt8) (k : Nat) :
    ∃ found, strchr c (ds ++ [0]) k = .ok found ∧ (found ≠ none ↔ c ∈ ds ∨ c = 0) := by
  induction ds generalizing k with
  | nil =>
    by_cases hc : 0 = c
    · exact ⟨some k, if_pos hc, iff_of_true (Option.some_ne_none k) (.inr hc.symm)⟩
    · refine ⟨none, (if_neg hc).trans (if_pos rfl), iff_of_false (not_not_intro rfl) ?_⟩
      rintro (hmem | rfl)
      · exact List.not_mem_nil hmem
      · exact hc rfl
  | cons d ds ih =>
    rw [List.mem_cons, not_or] at hds
    rw [List.cons_append]
    unfold strchr
    by_cases hd : d = c
    · exact ⟨some k, if_pos hd, iff_of_true (Option.some_ne_none k) (.inl (hd ▸ List.mem_cons_self))⟩
    · obtain ⟨found, hrun, hiff⟩ := ih hds.2 (k + 1)
      rw [if_neg hd, if_neg (Ne.symm hds.1)]
      refine ⟨found, hrun, hiff.trans (or_congr_left ?_)⟩
      rw [List.mem_cons, or_iff_right (Ne.symm hd)]

/-- From a byte on, the string is the byte and the rest. -/
theorem drop_eq_cons {l : List UInt8} (h : l[k]? = some c) : l.drop k = c :: l.drop (k + 1) := by
  obtain ⟨hlt, rfl⟩ := List.getElem?_eq_some_iff.mp h
  exact List.drop_eq_getElem_cons hlt

variable {l : List UInt8}

/-- A delimiter in front of the token is skipped. -/
theorem skipLoop_step (hds : 0 ∉ ds) (hc : l[a]? = some c) (hmem : c ∈ ds) :
    skipLoop (ds ++ [0]) (l.drop a) a = skipLoop (ds ++ [0]) (l.drop (a + 1)) (a + 1) := by
  obtain ⟨found, hfound, hiff⟩ := strchr_ok hds c 0
  have hne : c ≠ 0 := fun h0 => hds (h0 ▸ hmem)
  rw [drop_eq_cons hc]
  conv_lhs => rw [skipLoop]
  rw [hfound, bind_ok, if_pos (hiff.mpr (.inl hmem)), if_neg hne]

/-- It stops at another character. -/
theorem skipLoop_stop (hds : 0 ∉ ds) (hc : l[a]? = some c) (hmem : c ∉ ds) (hne : c ≠ 0) :
    skipLoop (ds ++ [0]) (l.drop a) a = .ok (a, false) := by
  obtain ⟨found, hfound, hiff⟩ := strchr_ok hds c 0
  rw [drop_eq_cons hc, skipLoop, hfound, bind_ok, if_neg fun h => (hiff.mp h).elim hmem hne]

/-- At the end of the string there is no token. -/
theorem skipLoop_end (hds : 0 ∉ ds) (hc : l[a]? = some 0) :
    skipLoop (ds ++ [0]) (l.drop a) a = .ok (a, true) := by
  obtain ⟨found, hfound, hiff⟩ := strchr_ok hds 0 0
  rw [drop_eq_cons hc, skipLoop, hfound, bind_ok, if_pos (hiff.mpr (.inr rfl)), if_pos rfl]

/-- Another byte is part of the token. -/
theorem tokenLoop_step (hds : 0 ∉ ds) (hc : l[a]? = some c) (hmem : c ∉ ds) (hne : c ≠ 0) :
    tokenLoop (ds ++ [0]) (l.drop a) a = tokenLoop (ds ++ [0]) (l.drop (a + 1)) (a + 1) := by
  obtain ⟨found, hfound, hiff⟩ := strchr_ok hds c 0
  have hnone : found = none := not_not.mp fun h => (hiff.mp h).elim hmem hne
  rw [drop_eq_cons hc]
  conv_lhs => rw [tokenLoop]
  rw [hfound, bind_ok, if_pos hnone]

/-- A delimiter ends it, and so does the end of the string. -/
theorem tokenLoop_stop (hds : 0 ∉ ds) (hc : l[a]? = some c) (hmem : c ∈ ds ∨ c = 0) :
    tokenLoop (ds ++ [0]) (l.drop a) a = .ok a := by
  obtain ⟨found, hfound, hiff⟩ := strchr_ok hds c 0
  rw [drop_eq_cons hc, tokenLoop, hfound, bind_ok, if_neg (hiff.mpr hmem)]

/-- A loop goes on over characters of its kind. -/
theorem loop_run {β : Type} {f : Nat → β} {p : UInt8 → Prop} (hstep : ∀ k c, l[k]? = some c → p c → f k = f (k + 1))
    (hai : a ≤ i) (hil : i ≤ l.length) (hall : AllIn p l a i) : f a = f i := by
  induction i, hai using Nat.le_induction with
  | base => rfl
  | succ i hai ih =>
    have hc : l[i]? = some l[i] := List.getElem?_eq_getElem (by omega)
    rw [ih (by omega) fun k c hk hki => hall k c hk (by omega)]
    exact hstep i _ hc (hall i _ hai (Nat.lt_succ_self i) hc)

/-! ## The string -/

/-- The string with zeroes at some of its positions. -/
def terminated (s : List UInt8) (ends : List Nat) : List UInt8 :=
  (s ++ [0]).mapIdx fun k c => if k ∈ ends then 0 else c

/-- The bytes are the string's, with a null byte at each place that was ended. -/
theorem getElem?_terminated (s : List UInt8) (ends : List Nat) (k : Nat) :
    (terminated s ends)[k]? = (s ++ [0])[k]?.map fun c => if k ∈ ends then 0 else c :=
  List.getElem?_mapIdx

/-- At first there is the one at the end. -/
theorem terminated_nil (s : List UInt8) : terminated s [] = s ++ [0] := by
  refine List.ext_getElem? fun k => ?_
  rw [getElem?_terminated]
  simp

/-- There are as many bytes as before. -/
theorem length_terminated (s : List UInt8) (ends : List Nat) : (terminated s ends).length = s.length + 1 := by
  unfold terminated
  rw [List.length_mapIdx, List.length_append, List.length_singleton]

/-- Bytes that end no token are as they were. -/
theorem terminated_eq (hk : k ∉ ends) (hlt : k < s.length) : (terminated s ends)[k]? = s[k]? := by
  rw [getElem?_terminated, List.getElem?_append_left hlt]
  simp [hk]

/-- The null byte at the end of the string stays. -/
theorem terminated_length (s : List UInt8) (ends : List Nat) : (terminated s ends)[s.length]? = some 0 := by
  rw [getElem?_terminated, List.getElem?_concat_length]
  simp

/-- To write a null byte is to end one token more. -/
theorem terminated_set (hlt : j ≤ s.length) : (terminated s ends).set j 0 = terminated s (ends ++ [j]) := by
  refine List.ext_getElem? fun k => ?_
  rw [List.getElem?_set, length_terminated, getElem?_terminated, getElem?_terminated]
  by_cases hk : j = k
  · subst hk
    rw [if_pos rfl, if_pos (by omega), List.getElem?_eq_getElem (by rw [List.length_append]; simp; omega)]
    simp
  · rw [if_neg hk]
    simp [Ne.symm hk]

/-- At the end of the string it was there already. -/
theorem terminated_concat_length : terminated s (ends ++ [s.length]) = terminated s ends := by
  rw [← terminated_set (Nat.le_refl _)]
  refine List.ext_getElem? fun k => ?_
  rw [List.getElem?_set, length_terminated]
  by_cases hk : s.length = k
  · subst hk
    rw [if_pos rfl, if_pos (by omega), terminated_length]
  · rw [if_neg hk]

/-- The zeroes that have been put in are before a position, or where the string has its own. -/
def EndsBefore (s : List UInt8) (a : Nat) (ends : List Nat) : Prop := ∀ e ∈ ends, e < a ∨ e = s.length

/-- The bytes from here on have not been touched. -/
theorem EndsBefore.getElem? (h : EndsBefore s a ends) (hak : a ≤ k) (hlt : k < s.length) :
    (terminated s ends)[k]? = s[k]? := by
  refine terminated_eq (fun hmem => ?_) hlt
  have := h k hmem
  omega

/-! ## The calls -/

theorem charAt_ok (h : l[k]? = some c) : charAt l k = .ok c := by
  unfold charAt
  rw [h]

/-- What a call returns, given the tokens that are left, and what it leaves. -/
structure Step (ds s : List UInt8) (rs : List (Nat × Nat)) (ends : List Nat) (r : Option Nat × Tokenizer) :
    Prop where
  token : r.1 = rs.head?.map Prod.fst
  string : r.2.string = terminated s (ends ++ (rs.head?.map Prod.snd).toList)
  saved : ∃ a, r.2.savePtr = some a ∧ a ≤ s.length ∧ RunsFrom (· ∈ ds) s a rs.tail ∧
    EndsBefore s a (ends ++ (rs.head?.map Prod.snd).toList)

/-- One call returns the next run, or null after the last. -/
theorem strtokR_ok (hds : 0 ∉ ds) (hs : 0 ∉ s) (h : RunsFrom (· ∈ ds) s a rs) (ha : a ≤ s.length)
    (hends : EndsBefore s a ends) {arg saved : Option Nat} (harg : arg.or saved = some a) :
    ∃ r, strtokR (ds ++ [0]) arg ⟨terminated s ends, saved⟩ = .ok r ∧ Step ds s rs ends r := by
  have hlen := length_terminated s ends
  have hzero := terminated_length s ends
  have hsame : ∀ k c, a ≤ k → k < s.length → (terminated s ends)[k]? = some c → s[k]? = some c :=
    fun k c hk hlt hc => (hends.getElem? hk hlt).symm.trans hc
  have hskip : ∀ i, a ≤ i → i ≤ s.length → AllIn (· ∈ ds) s a i →
      skipLoop (ds ++ [0]) ((terminated s ends).drop a) a =
        skipLoop (ds ++ [0]) ((terminated s ends).drop i) i := fun i hai hil hall =>
    loop_run (f := fun k => skipLoop (ds ++ [0]) ((terminated s ends).drop k) k)
      (fun k c hc hmem => skipLoop_step hds hc hmem) hai (by omega)
      fun k c hk hki hc => hall k c hk hki (hsame k c hk (by omega) hc)
  unfold strtokR
  dsimp only
  rw [harg]
  dsimp only
  cases h with
  | done hall =>
    rw [hskip s.length ha (Nat.le_refl _) hall, skipLoop_end hds hzero, bind_ok, if_pos rfl]
    refine ⟨_, rfl, rfl, (congrArg (terminated s) (List.append_nil ends)).symm, s.length, rfl, Nat.le_refl _,
      .done fun k c hk hlt => absurd hk (by omega), fun e he => ?_⟩
    have := hends e (by simpa using he)
    omega
  | @run _ i j rs hai hall hlt hle hin hafter hrest =>
    have hkind : ∀ k c, i ≤ k → k < j → (terminated s ends)[k]? = some c → c ∉ ds ∧ c ≠ 0 := by
      intro k c hk hkj hc
      have hc := hsame k c (by omega) (by omega) hc
      exact ⟨hin k c hk hkj hc, fun h0 => hs (h0 ▸ List.mem_of_getElem? hc)⟩
    have hi : (terminated s ends)[i]? = some s[i] :=
      (hends.getElem? hai (by omega)).trans (List.getElem?_eq_getElem (by omega))
    obtain ⟨hmem, hne⟩ := hkind i _ (Nat.le_refl i) hlt hi
    have htoken : tokenLoop (ds ++ [0]) ((terminated s ends).drop i) i =
        tokenLoop (ds ++ [0]) ((terminated s ends).drop j) j :=
      loop_run (f := fun k => tokenLoop (ds ++ [0]) ((terminated s ends).drop k) k)
        (fun k c hc hkind => tokenLoop_step hds hc hkind.1 hkind.2) (Nat.le_of_lt hlt) (by omega) hkind
    rw [hskip i hai (by omega) hall, skipLoop_stop hds hi hmem hne, bind_ok, if_neg Bool.false_ne_true]
    dsimp only
    rw [htoken]
    rcases Nat.lt_or_eq_of_le hle with hjlt | rfl
    · -- A delimiter follows the token.
      have hj : (terminated s ends)[j]? = some s[j] :=
        (hends.getElem? (by omega) hjlt).trans (List.getElem?_eq_getElem hjlt)
      have hdelim : s[j] ∈ ds := hafter _ (List.getElem?_eq_getElem hjlt)
      have hnot : s[j] ≠ 0 := fun h0 => hds (h0 ▸ hdelim)
      rw [Nat.min_eq_left (by omega)] at hrest
      rw [tokenLoop_stop hds hj (.inl hdelim), bind_ok, charAt_ok hj, bind_ok, if_pos hnot]
      refine ⟨_, rfl, rfl, terminated_set hle, j + 1, rfl, by omega, hrest, fun e he => ?_⟩
      rcases List.mem_append.mp he with he | he
      · have := hends e he
        omega
      · rw [List.mem_singleton.mp he]
        omega
    · -- The token is the last.
      rw [Nat.min_eq_right (by omega)] at hrest
      rw [tokenLoop_stop hds hzero (.inr rfl), bind_ok, charAt_ok hzero, bind_ok, if_neg (not_not_intro rfl)]
      refine ⟨_, rfl, rfl, terminated_concat_length.symm, _, rfl, Nat.le_refl _, hrest, fun e he => ?_⟩
      rcases List.mem_append.mp he with he | he
      · have := hends e he
        omega
      · exact .inr (List.mem_singleton.mp he)

/-- Any number of calls: the tokens so far, with a zero behind each. -/
theorem strtokCalls_ok (hds : 0 ∉ ds) (hs : 0 ∉ s) (h : RunsFrom (· ∈ ds) s 0 rs) (n : Nat) :
    ∃ saved a, strtokCalls (ds ++ [0]) (s ++ [0]) n = .ok ((List.range n).map fun k => rs[k]?.map Prod.fst,
        ⟨terminated s ((rs.take n).map Prod.snd), saved⟩) ∧
      (if n = 0 then some 0 else none).or saved = some a ∧ a ≤ s.length ∧
      RunsFrom (· ∈ ds) s a (rs.drop n) ∧ EndsBefore s a ((rs.take n).map Prod.snd) := by
  induction n with
  | zero =>
    refine ⟨none, 0, ?_, rfl, Nat.zero_le _, h, fun e he => absurd he List.not_mem_nil⟩
    unfold strtokCalls
    rw [List.take_zero, List.map_nil, terminated_nil]
    rfl
  | succ n ih =>
    obtain ⟨saved, a, hrun, harg, ha, hrest, hends⟩ := ih
    obtain ⟨r, hcall, htoken, hstring, a', hsaved, ha', hrest', hends'⟩ :=
      strtokR_ok hds hs hrest ha hends harg
    have htake : (rs.take n).map Prod.snd ++ ((rs.drop n).head?.map Prod.snd).toList =
        (rs.take (n + 1)).map Prod.snd := by
      rw [List.head?_drop, List.take_add_one, List.map_append, Option.toList_map]
    rw [htake] at hstring hends'
    rw [List.tail_drop] at hrest'
    refine ⟨some a', a', ?_, rfl, ha', hrest', hends'⟩
    unfold strtokCalls
    rw [hrun, bind_ok]
    dsimp only
    rw [hcall, bind_ok, htoken, List.head?_drop, List.range_succ, List.map_append, List.map_singleton, ← hstring,
      ← hsaved]

/-- What a token has in the string: the characters it had from the beginning, and a zero. -/
structure IsToken (l s : List UInt8) (i j : Nat) : Prop where
  chars : ∀ k, i ≤ k → k < j → l[k]? = s[k]?
  zero : l[j]? = some 0

/-- A token that was ended is a string. -/
theorem terminated_zero (hmem : j ∈ ends) (hle : j ≤ s.length) : (terminated s ends)[j]? = some 0 := by
  have hlt : j < (s ++ [0]).length := by
    rw [List.length_append, List.length_singleton]
    omega
  rw [getElem?_terminated, List.getElem?_eq_getElem hlt, Option.map_some, if_pos hmem]

/-- The zeroes behind some of the runs leave each of these as it was. -/
theorem isToken_of_runs {p : UInt8 → Prop} (hrun : IsRun p s i j) (hmem : j ∈ ends)
    (hends : ∀ e ∈ ends, ∃ i', IsRun p s i' e) : IsToken (terminated s ends) s i j where
  chars := fun k hik hkj => by
    have hle := hrun.le
    refine terminated_eq (fun he => ?_) (by omega)
    obtain ⟨i', hrun'⟩ := hends k he
    have hc : s[k]? = some s[k] := List.getElem?_eq_getElem (by omega)
    exact hrun.inside k _ hik hkj hc (hrun'.after _ hc)
  zero := terminated_zero hmem hrun.le

/-- The runs of a string, in order, are what the calls return one by one, and then they return null
pointers. Each token has a zero put behind it, and every other byte is left. -/
structure Tokenizes (ds s : List UInt8) (rs : List (Nat × Nat)) : Prop where
  ordered : rs.Pairwise fun r r' => r.2 < r'.1
  runs : ∀ i j, (i, j) ∈ rs ↔ IsRun (· ∈ ds) s i j
  calls : ∀ n, ∃ saved, strtokCalls (ds ++ [0]) (s ++ [0]) n =
    .ok ((List.range n).map fun k => rs[k]?.map Prod.fst,
      ⟨terminated s ((rs.take n).map Prod.snd), saved⟩)
  tokens : ∀ n, ∀ r ∈ rs.take n, IsToken (terminated s ((rs.take n).map Prod.snd)) s r.1 r.2

/-- The calls return the runs from first to last. -/
theorem tokenizes_of_runsFrom (hds : 0 ∉ ds) (hs : 0 ∉ s) (hrs : RunsFrom (· ∈ ds) s 0 rs) :
    Tokenizes ds s rs := by
  have hmem : ∀ i j, (i, j) ∈ rs ↔ IsRun (· ∈ ds) s i j := fun i j =>
    (hrs.mem_iff isBoundary_zero i j).trans (and_iff_left (Nat.zero_le i))
  refine ⟨hrs.pairwise, hmem, fun n => ?_, fun n r hr => ?_⟩
  · obtain ⟨saved, a, hrun, -⟩ := strtokCalls_ok hds hs hrs n
    exact ⟨saved, hrun⟩
  · refine isToken_of_runs ((hmem r.1 r.2).mp (List.mem_of_mem_take hr)) (List.mem_map_of_mem hr)
      fun e he => ?_
    obtain ⟨r', hr', rfl⟩ := List.mem_map.mp he
    exact ⟨r'.1, (hmem r'.1 r'.2).mp (List.mem_of_mem_take hr')⟩

/-- Every string is tokenized, with every set of delimiters. -/
theorem strtokR_tokenizes (hds : 0 ∉ ds) (hs : 0 ∉ s) : ∃ rs, Tokenizes ds s rs := by
  obtain ⟨rs, hrs⟩ := exists_runsFrom (· ∈ ds) s 0 (Nat.zero_le _)
  exact ⟨rs, tokenizes_of_runsFrom hds hs hrs⟩

/-- " a,b" with spaces and commas as delimiters. -/
theorem strtokR_tokenizes_two : ∃ rs, Tokenizes [0x20, 0x2c] [0x20, 0x61, 0x2c, 0x62] rs :=
  strtokR_tokenizes (by decide) (by decide)

/-- The calls on it. -/
example : strtokCalls [0x20, 0x2c, 0] [0x20, 0x61, 0x2c, 0x62, 0] 3 =
    .ok ([some 1, some 3, none], ⟨[0x20, 0x61, 0, 0x62, 0], some 4⟩) := rfl

end Pintos.Libc
