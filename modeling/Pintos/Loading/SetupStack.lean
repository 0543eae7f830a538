import Pintos.Loading.AddressSpace
import Pintos.Loading.Strtok

/-!
# The stack of a new process

`setup_stack`. It counts the arguments by their spaces, takes the room for them off the stack
pointer and then copies them with `strtok_r`. It returns `TID_ERROR` where it finds no page for its
copy of the command line, which is true for a `bool`. Where the stack page cannot be mapped it goes
on with the stack pointer it was given.
-/

namespace Pintos.Loading

open Pintos.Lib Pintos.Vm

/-- How the code comes by a page: `palloc_get_page`, and again after `evict_frame`. -/
inductive Grant where
  | granted
  /-- There was no page, and `evict_frame` answered false. -/
  | notEvicted
  /-- There was no page after an eviction either. -/
  | stillNone
  deriving DecidableEq, Repr

/-- What `setup_stack` gets from the rest of the kernel. -/
structure StackEnv where
  faults : Faults
  /-- The page for the stack. -/
  stackPage : Grant
  /-- `pagedir_set_page` has, or gets, a page table for it. -/
  table : Bool
  /-- The page for the copy of the command line. -/
  copyPage : Grant

/-- `a - b` and `a + b`, of addresses. -/
def sub32 (a b : Nat) : Nat := (a + 2 ^ 32 - b) % 2 ^ 32

def add32 (a b : Nat) : Nat := (a + b) % 2 ^ 32

/-- The loop that copies the arguments, with the argument it is at and the rest of the copy of the
command line: each argument, and its address. -/
def copyArgs (faults : Faults) (currArg rest : List UInt8) (bottomForArgs bottomForAddresses : Nat)
    (m : UserSpace) : Except Stop UserSpace := do
  let m ← store faults bottomForArgs (currArg ++ [0]) m
  let m ← store faults bottomForAddresses (leBytes 4 bottomForArgs) m
  match _h : strtokR [space] rest with
  | none => .ok m
  | some (currArg', rest') =>
    copyArgs faults currArg' rest' (add32 bottomForArgs (currArg.length + 1))
      (add32 bottomForAddresses 4) m
termination_by rest.length
decreasing_by exact length_rest _h

/-- The part of `setup_stack` that has its pages. A command line without a token is a read through a
null pointer. -/
def layoutArgs (faults : Faults) (fileName : List UInt8) (esp : Nat) (m : UserSpace) :
    Except Stop (Nat × UserSpace) := do
  let fnCopy := fileName.take 4095
  let (argc, size) := scanArgs fileName 1 0 false
  let totalSize := size + 1
  let esp := sub32 esp totalSize
  let bottomForArgs := esp
  let wordAlign := 4 - totalSize % 4
  let esp := sub32 esp wordAlign
  let m ← store faults esp (List.replicate wordAlign 0) m
  let esp := sub32 esp 4
  let m ← store faults esp (List.replicate 4 0) m
  let esp := sub32 esp (4 * argc)
  let bottomForAddresses := esp
  let esp := sub32 esp 4
  let m ← store faults esp (leBytes 4 bottomForAddresses) m
  let esp := sub32 esp 4
  let m ← store faults esp (leBytes 4 argc) m
  let esp := sub32 esp 4
  let m ← store faults esp (List.replicate 4 0) m
  match strtokR [space] fnCopy with
  | none => .error .panic
  | some (currArg, rest) => do
    let m ← copyArgs faults currArg rest bottomForArgs bottomForAddresses m
    .ok (esp, m)

/-- The stack page is mapped. -/
def UserSpace.withStack (m : UserSpace) : UserSpace :=
  Function.update m (physBase - 1) (some { content := zeros, writable := true })

/-- `setup_stack`, with `*esp` before and after. -/
def setupStack (env : StackEnv) (fileName : List UInt8) (esp : Nat) (m : UserSpace) :
    Except Stop (Bool × Nat × UserSpace) :=
  match env.stackPage with
  | .notEvicted | .stillNone => .ok (false, esp, m)
  | .granted =>
    let success := (m (physBase - 1)).isNone && env.table
    let (esp, m) := if success then (physBaseAddr, m.withStack) else (esp, m)
    match env.copyPage with
    | .notEvicted => .ok (true, esp, m)
    | .stillNone => .error .panic
    | .granted => do
      let (esp, m) ← layoutArgs env.faults fileName esp m
      .ok (success, esp, m)

/-! ## The arguments as a list -/

/-- The arguments copied one after the other. -/
def copyTokens (faults : Faults) : List (List UInt8) → Nat → Nat → UserSpace → Except Stop UserSpace
  | [], _, _, m => .ok m
  | token :: rest, args, addresses, m => do
    let m ← store faults args (token ++ [0]) m
    let m ← store faults addresses (leBytes 4 args) m
    copyTokens faults rest (add32 args (token.length + 1)) (add32 addresses 4) m

/-- The loop copies the tokens. -/
theorem copyArgs_eq (faults : Faults) (currArg rest : List UInt8) (args addresses : Nat)
    (m : UserSpace) : copyArgs faults currArg rest args addresses m =
      copyTokens faults (currArg :: tokens rest) args addresses m := by
  induction hn : rest.length using Nat.strongRecOn generalizing currArg rest args addresses m with
  | _ n ih =>
    unfold copyArgs copyTokens
    congr 1
    funext m₁
    congr 1
    funext m₂
    rw [tokens_eq rest]
    split
    next hnone =>
      rw [hnone]
      rfl
    next token rest' hsome =>
      rw [hsome]
      exact ih rest'.length (hn ▸ length_rest hsome) _ _ _ _ _ rfl

end Pintos.Loading
