import Mathlib.Algebra.Order.Ring.Int
import Pintos.Syscall.Fault

/-!
# System calls

`syscall_handler` of `userprog/syscall.c` as a path through the kernel. `Call` is a system call: the
words on the user's stack, and the answers the handler gets on the way from the page directory, the
page fault handler, the file system and the allocator. The words are naturals below `2 ^ 32`.

A word, a string or a buffer that the code goes through more than once is one pass here. The copies
of `process_execute` and the `struct fileListElem` of `SYS_OPEN` are taken to be allocated.
-/

namespace Pintos.Syscall

open Pintos.Lib

/-- What a call checks, or works through: the word at the stack pointer and those after it, and what
its pointer points to. -/
inductive Place where
  | word (i : Nat)
  | pointer
  deriving DecidableEq, Repr

/-- What `getFileWithFd` finds. -/
structure OpenFile where
  denyWrite : Bool
  /-- The bytes that `file_read` or `file_write` moves. -/
  moved : Nat
  deriving DecidableEq, Repr

/-- What `SYS_MMAP` meets on one page. -/
structure MmapPage where
  frame : Bool
  eviction : Eviction
  /-- `file_read` reads all it is asked for. -/
  whole : Bool
  /-- `pagedir_get_page` finds a page there. -/
  mapped : Bool
  /-- `pagedir_set_page` has, or gets, a page table. -/
  table : Bool
  deriving DecidableEq, Repr

structure Call where
  /-- `f->esp`. -/
  esp : Nat
  /-- The word there, as an `int`. -/
  number : Int
  /-- The words after it. -/
  arg : Nat → Nat
  /-- What `pagedir_get_page` answers in `addressCheck`. -/
  mapped : Place → Bool
  /-- The page faults the kernel meets there. -/
  faults : Place → List PageFault
  /-- The string that the pointer points to, without its zero. -/
  text : List UInt8
  elem : Option OpenFile
  /-- `dir_open_root` succeeds. -/
  root : Bool
  /-- `free_map_allocate` finds a sector for the new inode. -/
  sector : Bool
  /-- `inode_create` succeeds. -/
  created : Bool
  /-- The names in use in the root directory. -/
  entries : List (List UInt8)
  /-- The free map has the sectors of the inodes that the call closes for the last time. -/
  freeMap : Bool
  /-- `file_reopen` succeeds. -/
  reopened : Bool
  /-- The pages `SYS_MMAP` goes through. -/
  pages : List MmapPage
  /-- `palloc_get_page` in `SYS_READ` finds a page, and `pagedir_set_page` a page table. -/
  frame : Bool
  table : Bool

/-- `argCounts`. -/
def argCounts : List Nat := [0, 1, 1, 1, 1, 1, 1, 1, 3, 3, 2, 1, 1, 2, 1]

/-! ## Pieces of the handler -/

/-- `doBadExit` unless `ok`. -/
def demand (ok : Bool) : Path Unit := if ok then pure () else Trace.leave .exit

/-- `sema_up (&IOLock)` and `doBadExit` unless `ok`. -/
def demandUp (ok : Bool) : Path Unit :=
  if ok then pure ()
  else do
    Trace.act (.up .io)
    Trace.leave .exit

/-- `ASSERT`, or a `PANIC` behind a test. -/
def assertion (holds : Bool) : Path Unit := if holds then pure () else Trace.leave .panic

/-- `addressCheck`. -/
def Call.addressCheck (c : Call) (addr : Nat) (place : Place) : Bool :=
  addr != 0 && decide (addr < physBase) && c.mapped place

/-- The number, or an argument, is read. -/
def Call.word (c : Call) (i : Nat) : Path Unit :=
  touch (c.esp + 4 * i) (c.esp + 4 * i + 4) (c.faults (.word i))

/-- The kernel goes through `n` bytes from the address in an argument on. -/
def Call.work (c : Call) (i n : Nat) : Path Unit :=
  touch (c.arg i) (c.arg i + n) (c.faults .pointer)

/-- The checks of the argument words. -/
def Call.checkArgs (c : Call) : Nat → Path Unit
  | 0 => pure ()
  | n + 1 => do
    c.checkArgs n
    demand (c.addressCheck (c.esp + 4 * (n + 1)) (.word (n + 1)))

/-- The bytes of `name` that `strcmp` with `entry` finds equal. -/
def common : List UInt8 → List UInt8 → Nat
  | a :: as, b :: bs => if a = b then common as bs + 1 else 0
  | _, _ => 0

/-- The bytes of `name` that `lookup` reads: up to the first that differs from an entry, or to the
zero. -/
def nameRead (name : List UInt8) : List (List UInt8) → Nat
  | [] => 0
  | entry :: rest =>
    if name = entry then name.length + 1 else max (common name entry + 1) (nameRead name rest)

/-- `strtok_r` of the copy that `process_execute` makes finds a token. -/
def Call.token (c : Call) : Bool := (c.text.take 4095).any (· != 32)

/-- `filesys_create`, as far as the user's data goes. -/
def Call.filesysCreate (c : Call) : Path Unit :=
  if c.root && c.sector then do
    -- `length >= 0` in `inode_create`
    assertion (decide (c.arg 2 < 2 ^ 31))
    -- `strlen` in `dir_add`
    if c.created then c.work 1 (c.text.length + 1) else pure ()
  else pure ()

/-- `lookup` in the root directory. -/
def Call.lookup (c : Call) : Path Unit :=
  if c.root then c.work 1 (nameRead c.text c.entries) else pure ()

/-- `write`. -/
def Call.write (c : Call) : Path Unit := do
  Trace.act (.down .io)
  if c.arg 1 = 1 then c.work 2 (c.arg 3)
  else if c.arg 1 = 0 then Trace.leave .exit
  else
    match c.elem with
    | none => Trace.leave .panic
    | some e =>
      if e.denyWrite then Trace.leave .exit else c.work 2 e.moved
  Trace.act (.up .io)

/-- A page of `SYS_MMAP`, at `upage`. -/
def mmapPage (upage : Nat) (pg : MmapPage) : Path Unit := do
  if pg.frame then pure ()
  else do
    let _ ← evictFrame pg.eviction
    demandUp pg.eviction.frame
  demandUp pg.whole
  -- `install_page`
  assertion (decide (upage < physBase))
  demandUp (!pg.mapped)
  assertion (upage % 4096 == 0)
  demandUp pg.table

def mmapPages (upage : Nat) : List MmapPage → Path Unit
  | [] => pure ()
  | pg :: rest => do
    mmapPage upage pg
    mmapPages (upage + 4096) rest

/-! ## The calls -/

def Call.sysExit (c : Call) : Path Unit := do
  c.word 1
  assertion c.freeMap
  Trace.leave .exit

def Call.sysExec (c : Call) : Path Unit := do
  c.word 1
  demand (c.addressCheck (c.arg 1) .pointer)
  c.work 1 (c.text.length + 1)
  -- `name != NULL` in `init_thread`
  assertion c.token

def Call.sysCreate (c : Call) : Path Unit := do
  Trace.act (.down .io)
  c.word 1
  c.word 2
  demandUp (c.addressCheck (c.arg 1) .pointer)
  c.filesysCreate
  Trace.act (.up .io)

def Call.sysRemove (c : Call) : Path Unit := do
  Trace.act (.down .io)
  c.word 1
  demandUp (c.addressCheck (c.arg 1) .pointer)
  c.lookup
  assertion c.freeMap
  Trace.act (.up .io)

def Call.sysOpen (c : Call) : Path Unit := do
  Trace.act (.down .io)
  c.word 1
  demandUp (c.addressCheck (c.arg 1) .pointer)
  c.lookup
  Trace.act (.up .io)

/-- `SYS_FILESIZE` and `SYS_TELL`. -/
def Call.sysAsk (c : Call) : Path Unit := do
  Trace.act (.down .io)
  c.word 1
  demandUp c.elem.isSome
  Trace.act (.up .io)

def Call.sysRead (c : Call) : Path Unit := do
  Trace.act (.down .io)
  c.word 1
  c.word 2
  c.word 3
  demand (c.arg 2 != 0 && decide (c.arg 2 < physBase))
  if c.addressCheck (c.arg 2) .pointer then pure ()
  else do
    demand (decide (c.esp - 32 ≤ c.arg 2))
    assertion c.frame
    assertion c.table
  match c.elem with
  | none => demandUp false
  | some e => do
    if c.arg 1 = 0 then pure () else c.work 2 e.moved
    Trace.act (.up .io)

def Call.sysWrite (c : Call) : Path Unit := do
  c.word 1
  c.word 2
  c.word 3
  demand (c.addressCheck (c.arg 2) .pointer)
  demand (c.elem.isSome || c.arg 1 == 1)
  c.write

def Call.sysSeek (c : Call) : Path Unit := do
  Trace.act (.down .io)
  c.word 1
  c.word 2
  demandUp c.elem.isSome
  -- `new_pos >= 0` in `file_seek`
  assertion (decide (c.arg 2 < 2 ^ 31))
  Trace.act (.up .io)

def Call.sysClose (c : Call) : Path Unit := do
  Trace.act (.down .io)
  c.word 1
  demandUp c.elem.isSome
  assertion c.freeMap
  Trace.act (.up .io)

def Call.sysMmap (c : Call) : Path Unit := do
  Trace.act (.down .io)
  c.word 1
  demandUp c.elem.isSome
  demandUp c.reopened
  -- the address of the argument, not the argument
  mmapPages (c.esp + 8) c.pages
  Trace.act (.up .io)

def Call.sysMunmap (c : Call) : Path Unit := do
  Trace.act (.down .io)
  c.word 1
  Trace.act (.up .io)

/-- The `switch`. -/
def Call.dispatch (c : Call) : Nat → Path Unit
  | 0 => Trace.leave .halt
  | 1 => c.sysExit
  | 2 => c.sysExec
  | 3 => c.word 1
  | 4 => c.sysCreate
  | 5 => c.sysRemove
  | 6 => c.sysOpen
  | 7 => c.sysAsk
  | 8 => c.sysRead
  | 9 => c.sysWrite
  | 10 => c.sysSeek
  | 11 => c.sysAsk
  | 12 => c.sysClose
  | 13 => c.sysMmap
  | 14 => c.sysMunmap
  | _ => pure ()

/-- `syscall_handler`. -/
def syscallHandler (c : Call) : Path Unit := do
  demand (c.addressCheck c.esp (.word 0))
  c.word 0
  demand (decide (0 ≤ c.number ∧ c.number ≤ 14))
  c.checkArgs (argCounts.getD c.number.toNat 0)
  c.dispatch c.number.toNat

end Pintos.Syscall
