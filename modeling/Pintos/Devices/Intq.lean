import Mathlib.Algebra.Order.Ring.Int
import Pintos.Lib.Fallible
import Pintos.Lib.Ring

/-!
# The interrupt queue

`devices/intq.[ch]`, with what it uses of `threads/synch.c`. The functions run with interrupts off,
and a thread gives up the CPU only in the `thread_block` of `wait` or of the `sema_down` inside
`lock_acquire`, so what a thread does up to there is one step, and so is what it does when it comes
back from there. Any thread that is not blocked may take the next step, and between two steps an
interrupt handler may put a byte in, which it does only when the queue is not full.

The fields `accepted` and `returned` are ghosts: the bytes `intq_putc` has taken and the bytes
`intq_getc` has answered, and no definition reads them.
-/

namespace Pintos.Devices

open Pintos.Lib

/-- A `struct thread`. -/
abbrev ThreadRef := Nat

/-- `INTQ_BUFSIZE`. -/
def intqBufsize : Int := 64

/-- `struct lock`, with its semaphore. -/
structure Lock where
  holder : Option ThreadRef
  value : Nat
  waiters : List ThreadRef

/-- `struct intq`; the buffer, `head` and `tail` are the ring. -/
structure Intq where
  lock : Lock
  notFull : Option ThreadRef
  notEmpty : Option ThreadRef
  ring : Lib.Ring UInt8

/-- A call of `intq_getc` or `intq_putc`. -/
inductive Op where
  | getc
  | putc (byte : UInt8)
  deriving DecidableEq, Repr

/-- Where in it a thread has called `thread_block`. -/
inductive Place where
  | lockAcquire
  | wait
  deriving DecidableEq, Repr

structure State where
  q : Intq
  /-- `t->status == THREAD_BLOCKED`; else the thread is READY or RUNNING. -/
  blocked : ThreadRef → Bool
  /-- The call a thread is in, and where, once it has called `thread_block`. -/
  inside : ThreadRef → Option (Op × Place)
  accepted : List UInt8
  returned : List UInt8

/-- The `ASSERT`s. -/
inductive Assertion where
  /-- The condition of the waiter in `wait`. -/
  | waitCondition
  /-- The condition of the waiter in `signal`. -/
  | signalCondition
  /-- `t->status == THREAD_BLOCKED` in `thread_unblock`. -/
  | unblockBlocked
  /-- `!lock_held_by_current_thread (lock)` in `lock_acquire`. -/
  | lockNotHeld
  /-- `lock_held_by_current_thread (lock)` in `lock_release`. -/
  | lockHeld
  deriving DecidableEq, Repr

inductive Fault where
  | panic (a : Assertion)
  /-- The step cannot be taken in this state; not a fault of the kernel. -/
  | notEnabled
  deriving DecidableEq, Repr

/-- `ASSERT`. -/
def assert (a : Assertion) (c : Prop) [Decidable c] : Except Fault Unit :=
  if c then .ok () else .error (.panic a)

/-- `intq_empty`. -/
def intqEmpty (q : Intq) : Prop := q.ring.Empty

/-- `intq_full`. -/
def intqFull (q : Intq) : Prop := q.ring.Full intqBufsize

instance (q : Intq) : Decidable (intqEmpty q) := inferInstanceAs (Decidable (Lib.Ring.Empty _))

instance (q : Intq) : Decidable (intqFull q) := inferInstanceAs (Decidable (Lib.Ring.Full _ _))

/-- The condition of the `while` loop of a call. -/
def Op.mustWait (q : Intq) : Op → Prop
  | .getc => intqEmpty q
  | .putc _ => intqFull q

instance (q : Intq) (op : Op) : Decidable (op.mustWait q) := by
  cases op with
  | getc => exact inferInstanceAs (Decidable (intqEmpty q))
  | putc _ => exact inferInstanceAs (Decidable (intqFull q))

/-- Sets the member of `struct intq` a call waits on. -/
def Op.setWaiter (op : Op) (t : Option ThreadRef) (q : Intq) : Intq :=
  match op with
  | .getc => { q with notEmpty := t }
  | .putc _ => { q with notFull := t }

namespace State

variable (σ : State)

def setLock (l : Lock) : State := { σ with q := { σ.q with lock := l } }

/-- `thread_block`. -/
def threadBlock (t : ThreadRef) (op : Op) (p : Place) : State :=
  { σ with
    blocked := Function.update σ.blocked t true
    inside := Function.update σ.inside t (some (op, p)) }

/-- `thread_unblock`. -/
def threadUnblock (t : ThreadRef) : Except Fault State := do
  assert .unblockBlocked (σ.blocked t = true)
  .ok { σ with blocked := Function.update σ.blocked t false }

/-- `thread_block` has returned. -/
def unpark (t : ThreadRef) : State := { σ with inside := Function.update σ.inside t none }

end State

/-! ## The lock -/

/-- `sema_up` on the semaphore of the lock. -/
def semaUp (σ : State) : Except Fault State := do
  let σ ← match σ.q.lock.waiters with
    | [] => .ok σ
    | t :: rest => (σ.setLock { σ.q.lock with waiters := rest }).threadUnblock t
  .ok (σ.setLock { σ.q.lock with value := (σ.q.lock.value + 1) % 2 ^ 32 })

/-- `lock_release`. -/
def lockRelease (t : ThreadRef) (σ : State) : Except Fault State := do
  assert .lockHeld (σ.q.lock.holder = some t)
  semaUp (σ.setLock { σ.q.lock with holder := none })

/-! ## The queue -/

/-- `wait`, on the member the call waits on. -/
def wait (t : ThreadRef) (op : Op) (σ : State) : Except Fault State := do
  assert .waitCondition (op.mustWait σ.q)
  .ok ({ σ with q := op.setWaiter (some t) σ.q }.threadBlock t op .wait)

/-- `signal (q, &q->not_full)`. -/
def signalNotFull (σ : State) : Except Fault State := do
  assert .signalCondition (¬ intqFull σ.q)
  match σ.q.notFull with
  | none => .ok σ
  | some t => do
    let σ ← σ.threadUnblock t
    .ok { σ with q := { σ.q with notFull := none } }

/-- `signal (q, &q->not_empty)`. -/
def signalNotEmpty (σ : State) : Except Fault State := do
  assert .signalCondition (¬ intqEmpty σ.q)
  match σ.q.notEmpty with
  | none => .ok σ
  | some t => do
    let σ ← σ.threadUnblock t
    .ok { σ with q := { σ.q with notEmpty := none } }

/-- `intq_getc` behind its loop. -/
def takeByte (σ : State) : Except Fault State :=
  signalNotFull { σ with
    q := { σ.q with ring := σ.q.ring.drop intqBufsize }
    returned := σ.returned ++ [σ.q.ring.first] }

/-- `intq_putc` behind its loop. -/
def addByte (byte : UInt8) (σ : State) : Except Fault State :=
  signalNotEmpty { σ with
    q := { σ.q with ring := σ.q.ring.put intqBufsize byte }
    accepted := σ.accepted ++ [byte] }

/-- What a call does behind its loop. -/
def Op.finish (σ : State) : Op → Except Fault State
  | .getc => takeByte σ
  | .putc byte => addByte byte σ

/-- The loop of the `sema_down` in `lock_acquire` from one test on, and the `wait` that follows
`lock_acquire`. -/
def acquireLoop (t : ThreadRef) (op : Op) (σ : State) : Except Fault State :=
  let l := σ.q.lock
  if l.value = 0 then
    .ok ((σ.setLock { l with waiters := l.waiters ++ [t] }).threadBlock t op .lockAcquire)
  else
    wait t op (σ.setLock { l with value := l.value - 1, holder := some t })

/-- `intq_getc` or `intq_putc` from one test of its loop on. -/
def loop (t : ThreadRef) (op : Op) (σ : State) : Except Fault State :=
  if op.mustWait σ.q then do
    assert .lockNotHeld (σ.q.lock.holder ≠ some t)
    acquireLoop t op σ
  else op.finish σ

/-- `intq_getc`. -/
def intqGetc (t : ThreadRef) (σ : State) : Except Fault State := loop t .getc σ

/-- `intq_putc`. -/
def intqPutc (t : ThreadRef) (byte : UInt8) (σ : State) : Except Fault State := loop t (.putc byte) σ

/-! ## Steps -/

/-- What can happen next. -/
inductive Event where
  | getc (t : ThreadRef)
  | putc (t : ThreadRef) (byte : UInt8)
  /-- `thread_block` returns. -/
  | resume (t : ThreadRef)
  /-- A handler calls `intq_putc`; its loop is not entered. -/
  | interrupt (byte : UInt8)
  deriving DecidableEq, Repr

/-- The thread runs and is not in a call. -/
def State.calls (σ : State) (t : ThreadRef) : Bool := !σ.blocked t && (σ.inside t).isNone

/-- One event. -/
def step (e : Event) (σ : State) : Except Fault State :=
  match e with
  | .getc t => if σ.calls t then intqGetc t σ else .error .notEnabled
  | .putc t byte => if σ.calls t then intqPutc t byte σ else .error .notEnabled
  | .resume t =>
    if σ.blocked t then .error .notEnabled
    else match σ.inside t with
      | none => .error .notEnabled
      | some (op, .lockAcquire) => acquireLoop t op (σ.unpark t)
      | some (op, .wait) => do
        let σ ← lockRelease t (σ.unpark t)
        loop t op σ
  | .interrupt byte => if intqFull σ.q then .error .notEnabled else addByte byte σ

/-- After `intq_init`. -/
def initial : State where
  q := {
    lock := { holder := none, value := 1, waiters := [] }
    notFull := none
    notEmpty := none
    ring := { buf := fun _ => 0, head := 0, tail := 0 } }
  blocked := fun _ => false
  inside := fun _ => none
  accepted := []
  returned := []

end Pintos.Devices
