import Pintos.Lib.Trace

/-!
# Page faults

`page_fault` of `userprog/exception.c` as a path through the kernel: the global semaphores and the
lock it takes and gives back, and how it ends. What the path depends on is its input, `PageFault`:
the fault, and the answers the handler gets from the allocator, the frame table and the page table
on the way. A path ends by returning, or by a `Leave`.
-/

namespace Pintos.Syscall

open Pintos.Lib

/-- `IOLock`, `exception_lock` and `swap_IO_lock`. -/
inductive Lock where
  | io
  | exception
  | swap
  deriving DecidableEq, Repr

inductive Act where
  | down (l : Lock)
  | up (l : Lock)
  /-- The kernel reads or writes the bytes from `addr` on, below `stop`, through an address it got
  from the user. -/
  | access (addr stop : Nat)
  deriving DecidableEq, Repr

inductive Leave where
  /-- `thread_exit`. -/
  | exit
  /-- A failed `ASSERT`, or a `PANIC`. -/
  | panic
  /-- `shutdown_power_off`. -/
  | halt
  deriving DecidableEq, Repr

abbrev Path := Trace Act Leave

/-- `PHYS_BASE`. -/
def physBase : Nat := 0xC0000000

/-- The lowest address `page_fault` brings in. -/
def codeBase : Nat := 0x08048000

/-- What a call of `evict_frame` meets, and the `palloc_get_page` after it. -/
structure Eviction where
  /-- The frame table has an entry to evict. -/
  victim : Bool
  /-- The swap device has room for it. -/
  room : Bool
  /-- The next `palloc_get_page` finds a page. -/
  frame : Bool
  deriving DecidableEq, Repr

/-- A page fault, and what its handler meets. -/
structure PageFault where
  addr : Nat
  notPresent : Bool
  /-- `palloc_get_page` finds a page at once. -/
  frame : Bool
  eviction : Eviction
  /-- `pagedir_set_page` has, or gets, a page table. -/
  installed : Bool
  /-- The page has an entry in `page_table`, and whether its slot is on the swap device. -/
  slot : Option Bool
  deriving DecidableEq, Repr

/-- `evict_frame`. With no frame to evict it returns without releasing the lock. -/
def evictFrame (e : Eviction) : Path Bool := do
  Trace.act (.down .swap)
  if e.victim then
    if e.room then
      Trace.act (.up .swap)
      pure true
    else Trace.leave .panic
  else pure false

/-- `load_frame_from_block`. -/
def loadFrameFromBlock (onDevice : Bool) : Path Unit := do
  Trace.act (.down .swap)
  if onDevice then Trace.act (.up .swap) else Trace.leave .panic

/-- `kill`, of a process that faulted in user mode or in the kernel. -/
def kill (user : Bool) : Path Unit := Trace.leave (if user then .exit else .panic)

/-- `palloc_get_page` in `page_fault`, with an eviction if there is no page. -/
def getFrame (e : PageFault) : Path Unit :=
  if e.frame then pure ()
  else do
    let _ ← evictFrame e.eviction
    if e.eviction.frame then pure () else Trace.leave .panic

/-- The part of `page_fault` that brings the page in. -/
def bringIn (e : PageFault) : Path Unit := do
  getFrame e
  -- `pagedir_get_page` in `install_page` asserts a user address
  if e.addr < physBase ∧ e.installed then
    match e.slot with
    | none => pure ()
    | some onDevice => loadFrameFromBlock onDevice
  else Trace.leave .panic

/-- `page_fault`. -/
def pageFault (user : Bool) (e : PageFault) : Path Unit := do
  Trace.act (.down .exception)
  if e.addr = 0 then kill user
  else if physBase ≤ e.addr ∧ user then kill user
  else if e.addr < codeBase then kill user
  else if e.notPresent = false ∧ user = false then Trace.leave .exit
  else if e.notPresent = false then kill user
  else do
    bringIn e
    Trace.act (.up .exception)

/-- The kernel works through the user's bytes from `addr` to `stop`, and takes the page faults it
meets there. -/
def touch : Nat → Nat → List PageFault → Path Unit
  | addr, stop, [] => Trace.act (.access addr stop)
  | addr, stop, e :: rest =>
    if addr ≤ e.addr ∧ e.addr < stop then do
      Trace.act (.access addr (e.addr + 1))
      pageFault false e
      touch e.addr stop rest
    else touch addr stop rest

end Pintos.Syscall
