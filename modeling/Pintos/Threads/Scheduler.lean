import Pintos.Lib.Scan
import Pintos.Threads.State

/-!
# `threads/thread.c`: the scheduler

The functions of `thread.c` that decide which thread is in which queue and which one runs,
as state transformers. `schedule` ends where the new thread is on the CPU and enters
`thread_schedule_tail`; the tail itself is a step of its own (`scheduleTail`), because the
source distinguishes the two: the thread switched FROM is still there until the tail, run by
the thread switched TO, frees it.

Every modelled call of these functions is made with interrupts off or turns them off first,
so the assertions about `intr_get_level ()` hold by construction and are left out.
-/

namespace Pintos.Threads

open Pintos.Lib

/-- `PRI_MIN`. -/
def priMin : Int := 0

/-- `PRI_DEFAULT`. -/
def priDefault : Int := 31

/-- `PRI_MAX`. -/
def priMax : Int := 63

/-- `TIME_SLICE`. -/
def timeSlice : Nat := 4

/-- The value an `int64_t` holds after a computation. -/
def toInt64 (x : Int) : Int := Int.bmod x (2 ^ 64)

/-- `thread_current`. -/
def threadCurrent (k : Kernel) : Except Fault ThreadRef := do
  assert .isThread ((k.threads k.current).magic = true)
  assert .currentRunning ((k.threads k.current).status = .running)
  .ok k.current

/-- `thread_unblock`. -/
def threadUnblock (t : ThreadRef) (k : Kernel) : Except Fault Kernel := do
  assert .isThread ((k.threads t).magic = true)
  assert .unblockBlocked ((k.threads t).status = .blocked)
  .ok ((k.pushReady t).setStatus t .ready)

/-- The loop at the head of `schedule`. The next element is read before the current one is
removed, and removals go to another list, so the loop visits the sleepers it started with. -/
def wakeSleepers : List ThreadRef → Kernel → Except Fault Kernel
  | [], k => .ok k
  | t :: rest, k => do
    assert .endTickNonneg (0 ≤ (k.threads t).endTick)
    if (k.threads t).endTick ≤ k.ticks then
      let k ← threadUnblock t
        ({ k with sleepList := k.sleepList.erase t }.modThread t
          fun th => { th with endTick := -1 })
      wakeSleepers rest k
    else
      wakeSleepers rest k

/-- `next_thread_to_run`. With every priority at most `-1` the scan leaves
`max_priority_elem` null and the assertion in `list_remove` fails. -/
def nextThreadToRun (k : Kernel) : Except Fault (ThreadRef × Kernel) :=
  if k.readyList = [] then
    .ok (k.idleThread, k)
  else
    match scanMax k.prio (-1) none k.readyList with
    | some t => .ok (t, { k with readyList := k.readyList.erase t })
    | none => .error (.panic .listRemoveInterior)

/-- `schedule`, to the point where the new thread enters `thread_schedule_tail`. -/
def schedule (k : Kernel) : Except Fault Kernel := do
  let k ← wakeSleepers k.sleepList k
  let cur := k.current
  let (next, k) ← nextThreadToRun k
  assert .scheduleNotRunning ((k.threads cur).status ≠ .running)
  assert .isThread ((k.threads next).magic = true)
  .ok { k with
    current := next
    scheduleTail := some (if cur ≠ next then some cur else none) }

/-- `palloc_free_page` on the page of a thread. -/
def pallocFreePage (t : ThreadRef) (k : Kernel) : Except Fault Kernel := do
  assert .freeUsedPage (k.usedMap t = true)
  .ok ({ k with usedMap := Function.update k.usedMap t false }.modThread t
    fun th => { th with magic := false })

/-- `thread_schedule_tail`. -/
def threadScheduleTail (prev : Option ThreadRef) (k : Kernel) : Except Fault Kernel :=
  let cur := k.current
  let k := { k.setStatus cur .running with threadTicks := 0 }
  match prev with
  | none => .ok k
  | some p =>
    if (k.threads p).status = .dying ∧ p ≠ k.initialThread then do
      assert .tailNotCurrent (p ≠ cur)
      pallocFreePage p k
    else
      .ok k

/-- `thread_block`. -/
def threadBlock (k : Kernel) : Except Fault Kernel := do
  assert .notIntrContext (k.inExternalIntr = false)
  let cur ← threadCurrent k
  schedule (k.setStatus cur .blocked)

/-- `thread_yield`. -/
def threadYield (k : Kernel) : Except Fault Kernel := do
  let cur ← threadCurrent k
  assert .notIntrContext (k.inExternalIntr = false)
  let k := if cur ≠ k.idleThread then k.pushReady cur else k
  schedule (k.setStatus cur .ready)

/-- `thread_yield_for_seconds`. -/
def threadYieldForSeconds (endTick : Int) (k : Kernel) : Except Fault Kernel := do
  let cur ← threadCurrent k
  assert .notIntrContext (k.inExternalIntr = false)
  threadBlock ({ k with sleepList := k.sleepList ++ [cur] }.modThread cur
    fun th => { th with endTick := endTick })

/-- `thread_exit`. -/
def threadExit (k : Kernel) : Except Fault Kernel := do
  assert .notIntrContext (k.inExternalIntr = false)
  let cur ← threadCurrent k
  schedule ({ k with allList := k.allList.erase cur }.setStatus cur .dying)

/-- `thread_set_priority`. -/
def threadSetPriority (newPriority : Int) (k : Kernel) : Except Fault Kernel := do
  let cur ← threadCurrent k
  let t := k.threads cur
  let priority :=
    if t.priority > t.basePriority then
      (if t.priority > newPriority then t.priority else newPriority)
    else newPriority
  threadYield (k.modThread cur
    fun th => { th with priority := priority, basePriority := newPriority })

/-- `init_thread` on a page that `palloc_get_page` has cleared. -/
def initThread (t : ThreadRef) (priority : Int) (k : Kernel) : Except Fault Kernel := do
  assert .priorityRange (priMin ≤ priority ∧ priority ≤ priMax)
  .ok ({ k with allList := k.allList ++ [t] }.modThread t fun _ =>
    { tid := 0, status := .blocked, priority := priority, basePriority := priority
      endTick := 0, heldLocks := [], waitingLock := none, magic := true, frames := [] })

/-- `ticks++` in `timer_interrupt` and `++thread_ticks` in `thread_tick`. -/
def threadTick (k : Kernel) : Kernel :=
  { k with ticks := toInt64 (k.ticks + 1), threadTicks := k.threadTicks + 1 }

/-- `timer_interrupt` under `intr_handler`, which yields on return when the time slice is
over. -/
def timerInterrupt (k : Kernel) : Except Fault Kernel := do
  assert .notIntrContext (k.inExternalIntr = false)
  let _ ← threadCurrent k
  if (threadTick k).threadTicks ≥ timeSlice then threadYield (threadTick k)
  else .ok (threadTick k)

end Pintos.Threads
