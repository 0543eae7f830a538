import Mathlib.Logic.Function.Basic
import Mathlib.Data.List.Basic
import Pintos.Lib.Fallible

/-!
# The kernel state of the threads project

The data of `threads/thread.[ch]` and `threads/synch.[ch]`. A `struct thread` sits at
the bottom of its own page, so a thread IS its page, and `ThreadRef` names both. Reading
through a pointer to a page that has been freed is guarded by `magic`, as `is_thread`
guards it in the source: `palloc_free_page` fills the page with `0xcc`.

The kernel stack of a thread that is not on the CPU is what the thread has still to do
in the kernel. It is kept as data, one `Frame` for each piece of code that runs without a
switch in the middle: a frame is run to its end, or to the `schedule ()` inside it, before
anything else happens. Interrupts are on between two frames, off inside one.

`queuedAt` and `queueClock` are ghosts: they stamp each insertion into `ready_list` and no
definition reads them. Left out of `struct thread`: `name` and `stack` (the saved stack
pointer), which none of the modelled code reads; the initial kernel stack that
`thread_create` lays out is the empty frame list.
-/

namespace Pintos.Threads

open Pintos.Lib

/-- A page of the kernel pool, and the `struct thread` at its bottom. -/
abbrev ThreadRef := Nat

/-- A `struct condition`. -/
abbrev CondRef := Nat

/-- A `struct lock`: the two the thread system takes itself, and all others. -/
inductive LockRef where
  /-- `tid_lock`, taken by `allocate_tid`. -/
  | tidLock
  /-- `kernel_pool.lock`, taken by `palloc_get_multiple`. -/
  | poolLock
  | user (n : Nat)
  deriving DecidableEq, Repr

/-- A `struct semaphore`, by what it is part of. -/
inductive SemaRef where
  | plain (n : Nat)
  /-- `lock->semaphore`. -/
  | lock (l : LockRef)
  /-- The semaphore of the `struct semaphore_elem` on the stack of a thread in `cond_wait`. -/
  | waiter (t : ThreadRef)
  deriving DecidableEq, Repr

/-- `enum thread_status`. -/
inductive ThreadStatus where
  | running
  | ready
  | blocked
  | dying
  deriving DecidableEq, Repr

/-- A piece of kernel code a thread has still to run. -/
inductive Frame where
  | threadYield
  | threadYieldForSeconds (endTick : Int)
  | timerSleep (ticks : Int)
  | threadSetPriority (newPriority : Int)
  | threadExit
  /-- `thread_create` up to its `palloc_get_page`. -/
  | threadCreate (priority : Int)
  /-- `bitmap_scan_and_flip` under `kernel_pool.lock`, for the `thread_create` of a thread. -/
  | bitmapScanAndFlip (priority : Int)
  /-- `init_thread` on a page just allocated. -/
  | initThread (t : ThreadRef) (priority : Int)
  /-- `next_tid++` under `tid_lock`. -/
  | allocateTid (t : ThreadRef)
  /-- The end of `thread_create`: the new thread's `tid` and `endTick`, and `thread_unblock`. -/
  | threadUnblock (t : ThreadRef) (tid : Int)
  | semaInit (s : Nat) (value : Nat)
  | semaDown (s : SemaRef)
  /-- The return from `thread_block` in the loop of `sema_down_internal`. -/
  | semaDownLoop (s : SemaRef) (mLock : Option LockRef)
  | semaTryDown (s : Nat)
  | semaUp (s : SemaRef)
  | lockInit (l : Nat)
  | lockAcquire (l : LockRef)
  | lockTryAcquire (l : Nat)
  /-- `lock->holder = thread_current ()` in `lock_try_acquire`. -/
  | lockTryAcquired (l : LockRef)
  | lockRelease (l : LockRef)
  | condInit (c : CondRef)
  | condWait (c : CondRef) (l : Nat)
  /-- `list_push_back (&cond->waiters, &waiter.elem)` in `cond_wait`. -/
  | condPushBack (c : CondRef)
  | condSignal (c : CondRef) (l : Nat)
  | condBroadcast (c : CondRef) (l : Nat)
  /-- The head of `idle`'s loop: `intr_disable (); thread_block ()`. -/
  | idleBlock
  /-- `sti; hlt` in `idle`'s loop. -/
  | idleHalt
  deriving DecidableEq, Repr

/-- `struct thread`. -/
structure Thread where
  tid : Int
  status : ThreadStatus
  priority : Int
  basePriority : Int
  endTick : Int
  heldLocks : List LockRef
  waitingLock : Option LockRef
  /-- `magic == THREAD_MAGIC`. -/
  magic : Bool
  /-- What the thread has still to run in the kernel; empty while it is in thread code. -/
  frames : List Frame

/-- `struct semaphore`. -/
structure Semaphore where
  value : Nat
  waiters : List ThreadRef

/-- `struct lock`; its semaphore is `SemaRef.lock`. -/
structure Lock where
  maxWaiterPriority : Int
  holder : Option ThreadRef

/-- The `ASSERT`s of the modelled code, by what they check. -/
inductive Assertion where
  /-- `is_thread (t)`. -/
  | isThread
  /-- `t->status == THREAD_RUNNING` in `thread_current`. -/
  | currentRunning
  /-- `t->status == THREAD_BLOCKED` in `thread_unblock`. -/
  | unblockBlocked
  /-- `cur->status != THREAD_RUNNING` in `schedule`. -/
  | scheduleNotRunning
  /-- `t->endTick >= 0` in `schedule`. -/
  | endTickNonneg
  /-- `is_interior (elem)` in `list_remove`. -/
  | listRemoveInterior
  /-- `prev != cur` in `thread_schedule_tail`. -/
  | tailNotCurrent
  /-- `bitmap_all (..)` in `palloc_free_multiple`. -/
  | freeUsedPage
  /-- `PRI_MIN <= priority && priority <= PRI_MAX` in `init_thread`. -/
  | priorityRange
  /-- `!intr_context ()`. -/
  | notIntrContext
  /-- `lock_held_by_current_thread (lock)`. -/
  | lockHeld
  /-- `!lock_held_by_current_thread (lock)`. -/
  | lockNotHeld
  deriving DecidableEq, Repr

/-- How a run of kernel code ends when it does not return. -/
inductive Fault where
  /-- A failed `ASSERT`. -/
  | panic (a : Assertion)
  /-- An endless loop with interrupts off. -/
  | hang
  /-- A read through an uninitialised, null or dangling pointer. -/
  | undefined
  /-- The step cannot be taken in this state; not a fault of the kernel. -/
  | notEnabled
  deriving DecidableEq, Repr

/-- The state of the kernel between two frames. -/
structure Kernel where
  threads : ThreadRef → Thread
  semas : SemaRef → Semaphore
  locks : LockRef → Lock
  /-- `cond->waiters`, each `struct semaphore_elem` named by the thread whose stack it is on. -/
  conds : CondRef → List ThreadRef
  /-- `priority` of the `struct semaphore_elem` on a thread's stack. -/
  elemPriority : ThreadRef → Int
  readyList : List ThreadRef
  sleepList : List ThreadRef
  allList : List ThreadRef
  idleThread : ThreadRef
  initialThread : ThreadRef
  /-- `running_thread ()`. -/
  current : ThreadRef
  /-- The argument of a `thread_schedule_tail` that has been entered and not yet run: the
  thread `switch_threads` came from, or null when no switch was made. -/
  scheduleTail : Option (Option ThreadRef)
  ticks : Int
  threadTicks : Nat
  nextTid : Int
  /-- `kernel_pool.used_map`. -/
  usedMap : ThreadRef → Bool
  inExternalIntr : Bool
  queuedAt : ThreadRef → Nat
  queueClock : Nat

namespace Kernel

variable (k : Kernel)

/-- Changes one `struct thread`. -/
def modThread (t : ThreadRef) (f : Thread → Thread) : Kernel :=
  { k with threads := Function.update k.threads t (f (k.threads t)) }

def setStatus (t : ThreadRef) (s : ThreadStatus) : Kernel :=
  k.modThread t fun th => { th with status := s }

def setPriority (t : ThreadRef) (p : Int) : Kernel :=
  k.modThread t fun th => { th with priority := p }

def setWaitingLock (t : ThreadRef) (l : Option LockRef) : Kernel :=
  k.modThread t fun th => { th with waitingLock := l }

def setFrames (t : ThreadRef) (fs : List Frame) : Kernel :=
  k.modThread t fun th => { th with frames := fs }

/-- Puts code in front of what a thread has still to run. -/
def pushFrames (t : ThreadRef) (fs : List Frame) : Kernel :=
  k.modThread t fun th => { th with frames := fs ++ th.frames }

def setSema (s : SemaRef) (v : Semaphore) : Kernel :=
  { k with semas := Function.update k.semas s v }

def setLock (l : LockRef) (v : Lock) : Kernel :=
  { k with locks := Function.update k.locks l v }

/-- `list_push_back (&ready_list, &t->elem)`. -/
def pushReady (t : ThreadRef) : Kernel :=
  { k with
    readyList := k.readyList ++ [t]
    queuedAt := Function.update k.queuedAt t k.queueClock
    queueClock := k.queueClock + 1 }

/-- The priority of a thread, the key of every scan. -/
def prio (t : ThreadRef) : Int := (k.threads t).priority

/-- The threads queued on the semaphore of a lock. -/
def waiters (l : LockRef) : List ThreadRef := (k.semas (.lock l)).waiters

def holder (l : LockRef) : Option ThreadRef := (k.locks l).holder

end Kernel

/-- `ASSERT`. -/
def assert (a : Assertion) (c : Prop) [Decidable c] : Except Fault Unit :=
  if c then .ok () else .error (.panic a)

@[simp] theorem assert_eq_ok {a : Assertion} {c : Prop} [Decidable c] {u : Unit} :
    assert a c = .ok u ↔ c := by
  unfold assert
  split <;> simp [*]

@[simp] theorem assert_eq_error {a : Assertion} {c : Prop} [Decidable c] {e : Fault} :
    assert a c = .error e ↔ ¬ c ∧ e = .panic a := by
  unfold assert
  split <;> simp [*, eq_comm]

/-- An assertion faults with its own panic only. -/
theorem avoids_assert {a b : Assertion} {c : Prop} [Decidable c] (h : a ≠ b) :
    Avoids (.panic b) (assert a c) := by
  intro he
  have := (assert_eq_error.mp he).2
  cases this
  exact h rfl

end Pintos.Threads
