import Pintos.Utils.Disk

/-!
# The kernel command line

`read_command_line` of `threads/init.c`, on the boot sector that `make_kernel_command_line` has a part
in. Its array has room for 64 arguments and a null pointer, as if each argument had a character: a
command line of 128 bytes has up to 128 arguments.
-/

namespace Pintos.Utils

open Pintos.Lib

/-- `LOADER_ARG_CNT`, from the start of the boot sector. -/
def loaderArgCnt : Nat := 314

/-- `LOADER_ARGS`. -/
def loaderArgs : Nat := 318

/-- `LOADER_ARGS_LEN`. -/
def loaderArgsLen : Nat := 128

inductive ReadFault where
  /-- "command line arguments overflow" -/
  | overflow
  /-- A write outside `argv`. -/
  | argv
  deriving DecidableEq, Repr

/-- `argv[i] = x`, of a pointer or a null pointer. -/
def setArgv (argv : List (Option Nat)) (i : Nat) (x : Option Nat) :
    Except ReadFault (List (Option Nat)) :=
  if i < argv.length then .ok (argv.set i x) else .error .argv

/-- `strnlen`. -/
def strnlen (mem : Bytes) (p n : Nat) : Nat := (((mem.drop p).take n).takeWhile (· != 0)).length

/-- The string that a pointer points to. -/
def cString (mem : Bytes) (p : Nat) : Bytes := (mem.drop p).takeWhile (· != 0)

/-- The loop, with the arguments that are left, and the null pointer behind them. -/
def readArgs (mem : Bytes) (fin : Nat) : Nat → Nat → Nat → List (Option Nat) →
    Except ReadFault (List (Option Nat))
  | 0, i, _, argv => setArgv argv i none
  | n + 1, i, p, argv =>
    if fin ≤ p then .error .overflow
    else do
      let argv ← setArgv argv i (some p)
      readArgs mem fin n (i + 1) (p + (strnlen mem p (fin - p) + 1)) argv

/-- `read_command_line`. A negative `argc` is not an index of `argv` either. -/
def readCommandLine (mem : Bytes) : Except ReadFault (List (Option Nat)) :=
  let argc := Int.bmod (ofLe (slice mem loaderArgCnt 4)) (2 ^ 32)
  if argc < 0 then .error .argv
  else readArgs mem (loaderArgs + loaderArgsLen) argc.toNat 0 loaderArgs
    (List.replicate (loaderArgsLen / 2 + 1) none)

variable {mem rest : Bytes} {fin i p : Nat} {argv : List (Option Nat)} {args : List Bytes}

/-! ## The loop -/

/-- The arguments, with a zero behind each. -/
def argBytes (args : List Bytes) : Bytes := args.flatMap fun arg => arg ++ [0]

/-- Each argument ends with a null byte. -/
theorem argBytes_cons (arg : Bytes) (args : List Bytes) :
    argBytes (arg :: args) = arg ++ 0 :: argBytes args := by
  simp [argBytes]

/-- There are no more arguments than bytes. -/
theorem length_le_argBytes (args : List Bytes) : args.length ≤ (argBytes args).length := by
  induction args with
  | nil => exact Nat.zero_le _
  | cons arg args ih =>
    rw [argBytes_cons, List.length_append, List.length_cons, List.length_cons]
    omega

/-- An argument is read to its null byte. -/
theorem takeWhile_arg {arg : Bytes} (h : 0 ∉ arg) (rest : Bytes) :
    (arg ++ 0 :: rest).takeWhile (· != 0) = arg := by
  rw [List.takeWhile_append_of_pos]
  · simp
  · intro c hc
    simpa using ne_of_mem_of_not_mem hc h

/-- An argument at its place in memory is a string. -/
theorem cString_eq {arg : Bytes} (h : 0 ∉ arg) (hmem : mem.drop p = arg ++ 0 :: rest) :
    cString mem p = arg := by
  unfold cString
  rw [hmem, takeWhile_arg h]

theorem strnlen_eq {arg : Bytes} {n : Nat} (h : 0 ∉ arg) (hmem : mem.drop p = arg ++ 0 :: rest)
    (hn : arg.length < n) : strnlen mem p n = arg.length := by
  obtain ⟨k, rfl⟩ : ∃ k, n = arg.length + (k + 1) := ⟨n - arg.length - 1, by omega⟩
  unfold strnlen
  rw [hmem, List.take_length_add_append, List.take_succ_cons, takeWhile_arg h]

/-- The arguments that are left stand at `p`, and end in the field. -/
structure ArgsAt (mem : Bytes) (fin p : Nat) (args : List Bytes) : Prop where
  bytes : ∃ rest, mem.drop p = argBytes args ++ rest
  inField : p + (argBytes args).length ≤ fin

/-- Behind an argument stands the next. -/
theorem ArgsAt.next {arg : Bytes} (h : ArgsAt mem fin p (arg :: args)) (hzero : 0 ∉ arg) :
    p < fin ∧ cString mem p = arg ∧
      ArgsAt mem fin (p + (strnlen mem p (fin - p) + 1)) args := by
  obtain ⟨⟨rest, hmem⟩, hin⟩ := h
  rw [argBytes_cons] at hmem hin
  rw [List.append_assoc, List.cons_append] at hmem
  rw [List.length_append, List.length_cons] at hin
  refine ⟨by omega, cString_eq hzero hmem, ?_⟩
  rw [strnlen_eq hzero hmem (by omega)]
  refine ⟨⟨rest, ?_⟩, by omega⟩
  rw [← List.drop_drop, hmem, ← List.drop_drop, List.drop_left, List.drop_succ_cons, List.drop_zero]

/-- What is in `argv` after the loop. -/
structure ArgvOf (mem : Bytes) (args : List Bytes) (i : Nat) (argv : List (Option Nat)) : Prop where
  arg : ∀ k (h : k < args.length), ∃ q, argv[i + k]? = some (some q) ∧ cString mem q = args[k]
  null : argv[i + args.length]? = some none

/-- The loop finds the arguments one after the other. -/
theorem readArgs_ok (i : Nat) (argv : List (Option Nat)) (h : ArgsAt mem fin p args)
    (hzero : ∀ arg ∈ args, (0 : UInt8) ∉ arg)
    (hroom : i + args.length < argv.length) :
    ∃ argv', readArgs mem fin args.length i p argv = .ok argv' ∧ ArgvOf mem args i argv' ∧
      ∀ j < i, argv'[j]? = argv[j]? := by
  induction args generalizing i p argv with
  | nil =>
    have hi : i < argv.length := hroom
    refine ⟨argv.set i none, if_pos hi, ⟨fun k hk => by simp at hk, ?_⟩, fun j hj => ?_⟩
    · rw [List.length_nil, Nat.add_zero, List.getElem?_set_self hi]
    · rw [List.getElem?_set_ne (by omega)]
  | cons arg args ih =>
    rw [List.length_cons] at hroom
    obtain ⟨hp, hstring, hnext⟩ := h.next (hzero arg List.mem_cons_self)
    obtain ⟨argv', hrun, ⟨harg, hnull⟩, hbelow⟩ := ih (i + 1) (argv.set i (some p))
      hnext (fun a ha => hzero a (List.mem_cons_of_mem _ ha)) (by rw [List.length_set]; omega)
    have hi : i < argv.length := by omega
    refine ⟨argv', ?_, ⟨fun k hk => ?_, ?_⟩, fun j hj => ?_⟩
    · rw [List.length_cons, readArgs, if_neg (by omega), setArgv, if_pos hi, bind_ok]
      exact hrun
    · cases k with
      | zero =>
        refine ⟨p, ?_, hstring⟩
        rw [Nat.add_zero, hbelow i (by omega), List.getElem?_set_self hi]
      | succ k =>
        obtain ⟨q, hq, hstr⟩ := harg k (by simpa using hk)
        exact ⟨q, by rwa [Nat.add_assoc, Nat.add_comm 1] at hq, hstr⟩
    · rwa [List.length_cons, Nat.add_comm args.length, ← Nat.add_assoc]
    · rw [hbelow j (by omega), List.getElem?_set_ne (by omega)]

/-- Without room for the arguments and the null pointer the loop leaves `argv`. -/
theorem readArgs_argv (i : Nat) (argv : List (Option Nat)) (h : ArgsAt mem fin p args)
    (hzero : ∀ arg ∈ args, (0 : UInt8) ∉ arg)
    (hroom : argv.length ≤ i + args.length) :
    readArgs mem fin args.length i p argv = .error .argv := by
  induction args generalizing i p argv with
  | nil => exact if_neg (by simpa using hroom)
  | cons arg args ih =>
    obtain ⟨hp, _, hnext⟩ := h.next (hzero arg List.mem_cons_self)
    rw [List.length_cons] at hroom ⊢
    rw [readArgs, if_neg (by omega)]
    by_cases hi : i < argv.length
    · rw [setArgv, if_pos hi, bind_ok]
      exact ih _ _ hnext (fun a ha => hzero a (List.mem_cons_of_mem _ ha))
        (by rw [List.length_set]; omega)
    · rw [setArgv, if_neg hi]
      rfl

/-! ## The boot sector -/

/-- The line that is written is their number and their bytes. -/
theorem makeKernelCommandLine_eq_ok {line : Bytes} (h : makeKernelCommandLine args = .ok line) :
    (argBytes args).length ≤ 128 ∧ line = leBytes 4 args.length ++ padTo 128 (argBytes args) := by
  unfold makeKernelCommandLine at h
  dsimp only at h
  split at h
  next => cases h
  next hle =>
    cases h
    exact ⟨Nat.le_of_not_lt hle, rfl⟩

/-- The two fields that `make_kernel_command_line` writes, where `read_command_line` looks for
them. -/
theorem fields_of_line {loader line : Bytes} (hloader : loader.length = loaderArgCnt)
    (h : makeKernelCommandLine args = .ok line) (table : Bytes) :
    ofLe (slice (loader ++ line ++ table) loaderArgCnt 4) = args.length ∧
      ArgsAt (loader ++ line ++ table) (loaderArgs + loaderArgsLen) loaderArgs args := by
  obtain ⟨hle, rfl⟩ := makeKernelCommandLine_eq_ok h
  have hcount := length_le_argBytes args
  constructor
  · rw [List.append_assoc, slice_append_right (by omega), hloader, Nat.sub_self, List.append_assoc,
      slice_append_left (by rw [length_leBytes]), slice, List.drop_zero,
      List.take_of_length_le (by rw [length_leBytes]), ofLe_leBytes_of_lt (by omega)]
  · refine ⟨⟨List.replicate (128 - (argBytes args).length) 0 ++ table, ?_⟩, ?_⟩
    · have hsplit : loaderArgs = (loader ++ leBytes 4 args.length).length := by
        rw [List.length_append, hloader, length_leBytes]
        rfl
      rw [padTo_of_le hle, hsplit, ← List.append_assoc loader, List.append_assoc, List.drop_left,
        List.append_assoc]
    · unfold loaderArgsLen
      omega

/-- `read_command_line` runs its loop over the arguments. -/
theorem readCommandLine_eq {loader line : Bytes} (hloader : loader.length = loaderArgCnt)
    (h : makeKernelCommandLine args = .ok line) (table : Bytes) :
    readCommandLine (loader ++ line ++ table) = readArgs (loader ++ line ++ table)
      (loaderArgs + loaderArgsLen) args.length 0 loaderArgs (List.replicate 65 none) := by
  have hle := (makeKernelCommandLine_eq_ok h).1
  have hlen := length_le_argBytes args
  have hargc : Int.bmod args.length (2 ^ 32) = args.length :=
    Int.bmod_eq_of_le (by omega) (by omega)
  unfold readCommandLine
  rw [(fields_of_line hloader h table).1, hargc]
  exact if_neg (by omega)

/-- The kernel reads the arguments that the disk was built with, and a null pointer behind them:
exactly when there are at most 64. -/
theorem commandLine_read (args : List Bytes) (loader line table : Bytes)
    (hzero : ∀ arg ∈ args, (0 : UInt8) ∉ arg) (hloader : loader.length = loaderArgCnt)
    (hline : makeKernelCommandLine args = .ok line) :
    (∃ argv, readCommandLine (loader ++ line ++ table) = .ok argv ∧
      ArgvOf (loader ++ line ++ table) args 0 argv) ↔ args.length ≤ 64 := by
  have hargs := (fields_of_line hloader hline table).2
  have hslots : (List.replicate 65 (none : Option Nat)).length = 65 := List.length_replicate
  rw [readCommandLine_eq hloader hline]
  constructor
  · rintro ⟨argv, hrun, _⟩
    by_contra hmany
    rw [readArgs_argv 0 _ hargs hzero (by omega)] at hrun
    cases hrun
  · intro hfew
    obtain ⟨argv, hrun, hof, _⟩ :=
      readArgs_ok 0 (List.replicate 65 none) hargs hzero (by omega)
    exact ⟨argv, hrun, hof⟩

/-- `run x`, behind a loader of zeros. -/
theorem commandLine_read_run : ∃ argv,
    readCommandLine (List.replicate 314 0 ++ (leBytes 4 2 ++
      padTo 128 [0x72, 0x75, 0x6e, 0, 0x78, 0]) ++ []) = .ok argv ∧
    ArgvOf (List.replicate 314 0 ++ (leBytes 4 2 ++ padTo 128 [0x72, 0x75, 0x6e, 0, 0x78, 0]) ++ [])
      [[0x72, 0x75, 0x6e], [0x78]] 0 argv :=
  (commandLine_read [[0x72, 0x75, 0x6e], [0x78]] (List.replicate 314 0) _ [] (by decide)
    List.length_replicate rfl).mpr (by decide)

/-- With 65 empty arguments, which make 65 bytes, the null pointer is written behind `argv`. -/
theorem commandLine_not_read : ¬ ∀ (args : List Bytes) (loader line table : Bytes),
    (∀ arg ∈ args, (0 : UInt8) ∉ arg) → loader.length = loaderArgCnt →
      makeKernelCommandLine args = .ok line →
        ∃ argv, readCommandLine (loader ++ line ++ table) = .ok argv ∧
          ArgvOf (loader ++ line ++ table) args 0 argv := by
  intro hall
  have hzero : ∀ arg ∈ List.replicate 65 ([] : Bytes), (0 : UInt8) ∉ arg := by decide
  have hline : makeKernelCommandLine (List.replicate 65 []) =
      .ok (leBytes 4 65 ++ padTo 128 (List.replicate 65 0)) := by decide
  have hloader : (List.replicate 314 (0 : UInt8)).length = loaderArgCnt := List.length_replicate
  obtain ⟨argv, hrun, _⟩ := hall _ _ _ [] hzero hloader hline
  have hargs := (fields_of_line hloader hline []).2
  have hover := readArgs_argv 0 (List.replicate 65 none) hargs hzero (by simp)
  rw [readCommandLine_eq hloader hline, hover] at hrun
  cases hrun

end Pintos.Utils
