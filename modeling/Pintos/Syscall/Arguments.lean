import Pintos.Syscall.Needs

/-!
# What the arguments of a call can do

A call reaches kernel memory exactly when a range that it comes to does: the handler checks the
first byte of a word, a string or a buffer, and works through all of it. A call panics the kernel
exactly when it comes to an assertion that fails, or to a page fault that cannot be served.
-/

namespace Pintos.Syscall

open Pintos.Lib

/-- A call with the words `number` and `arg` at `esp`, where all that is checked is mapped, nothing
faults and the file system does as it is asked. -/
def plainCall (esp : Nat) (number : Int) (arg : Nat → Nat) (elem : Option OpenFile) : Call where
  esp := esp
  number := number
  arg := arg
  mapped := fun _ => true
  faults := fun _ => []
  text := [97]
  elem := elem
  root := true
  sector := true
  created := true
  entries := []
  freeMap := true
  reopened := true
  pages := []
  frame := true
  table := true

/-- The kernel reads and writes through the user's pointers below `PHYS_BASE`, or the process ends
before, exactly when all ranges it comes to stay below. -/
theorem user_memory_only (c : Call) :
    (∀ addr stop, .access addr stop ∈ (syscallHandler c).acts → stop ≤ physBase) ↔
      ∀ n ∈ met c.needs, n.Below physBase := by
  rw [← run_below, ← user_syscallHandler]
  constructor
  · exact fun h addr stop hin => h addr stop (List.mem_filter.mp hin).1
  · exact fun h addr stop hin => h addr stop (List.mem_filter.mpr ⟨hin, rfl⟩)

/-- `SYS_READ` of two bytes into a buffer that starts at the last byte of user memory. -/
theorem read_writes_kernel_memory : ¬ ∀ c addr stop,
    .access addr stop ∈ (syscallHandler c).acts → stop ≤ physBase := by
  intro h
  have hin : .access 0xBFFFFFFF 0xC0000001 ∈ (syscallHandler (plainCall 0xBFFFFF00 8
      (fun i => if i = 1 then 5 else if i = 2 then 0xBFFFFFFF else 2)
      (some { denyWrite := false, moved := 2 }))).acts := by
    decide
  exact absurd (h _ _ _ hin) (by decide)

/-- A call panics the kernel exactly when a need it comes to does. -/
theorem handler_calm (c : Call) :
    (syscallHandler c).result ≠ .error .panic ↔ ∀ n ∈ met c.needs, n.ends ≠ some .panic := by
  have hresult : (syscallHandler c).result = (user (syscallHandler c)).result := rfl
  rw [hresult, user_syscallHandler, ne_eq, run_result]
  simp

/-- `SYS_SEEK` to `2 ^ 31` in an open file. -/
theorem seek_panics : ¬ ∀ c, (syscallHandler c).result ≠ .error .panic := by
  intro h
  exact h (plainCall 0xBFFFFF00 10 (fun i => if i = 1 then 5 else 2 ^ 31)
    (some { denyWrite := false, moved := 0 })) rfl

end Pintos.Syscall
