import Pintos.Threads.Scheduler

/-!
# `threads/synch.c`: semaphores, locks and condition variables

The functions on semaphores and locks run with interrupts off from the first statement that
matters to the switch inside them, so each is one state transformer. What the caller does after a
switch is put on the caller's frames before the switch. `cond_wait` and `cond_signal` run with
interrupts on, and the waiters of a condition are protected by its lock. `cond_wait` is cut where
another thread can make a difference: between the record of its caller's priority, the
`list_push_back`, and each of its calls.

The walk at the head of `lock_acquire` is a `while` loop that advances only in one branch.
In the other branch nothing changes, and the loop spins forever with interrupts off: that is
`Fault.hang`. The walk that does advance raises a thread to the donor's priority, so it never
meets the same thread in the advancing branch twice, and the number of threads is fuel enough
(`donate_fuel`).
-/

namespace Pintos.Threads

open Pintos.Lib

/-- `sema_init`. -/
def semaInit (s : SemaRef) (value : Nat) (k : Kernel) : Kernel :=
  k.setSema s { value := value, waiters := [] }

/-- `update_lock_max_priority`; the source runs through the waiters from the back. -/
def updateLockMaxPriority (l : LockRef) (k : Kernel) : Kernel :=
  k.setLock l { k.locks l with
    maxWaiterPriority := foldMax k.prio (-1) (k.waiters l).reverse }

/-- `if (mLock != NULL) update_lock_max_priority (mLock)`. -/
def updateIfLock (mLock : Option LockRef) (k : Kernel) : Kernel :=
  match mLock with
  | some l => updateLockMaxPriority l k
  | none => k

/-- The end of `lock_acquire`, after `sema_down_internal` has returned. -/
def lockAcquired (l : LockRef) (k : Kernel) : Kernel :=
  (k.setLock l { k.locks l with holder := some k.current }).modThread k.current
    fun th => { th with heldLocks := th.heldLocks ++ [l] }

/-- The body of the loop of `sema_down_internal`, to its `thread_block`. -/
def semaEnqueue (s : SemaRef) (mLock : Option LockRef) (k : Kernel) : Kernel :=
  let cur := k.current
  let k := k.setSema s { k.semas s with waiters := (k.semas s).waiters ++ [cur] }
  let k := match mLock with
    | some l => updateLockMaxPriority l (k.setWaitingLock cur (some l))
    | none => k
  k.pushFrames cur [.semaDownLoop s mLock]

/-- The end of `sema_down_internal`, and of its caller `lock_acquire` when it is one. -/
def semaTake (s : SemaRef) (mLock : Option LockRef) (k : Kernel) : Kernel :=
  let k := k.setSema s { k.semas s with value := (k.semas s).value - 1 }
  match mLock with
  | some l => lockAcquired l k
  | none => k

/-- The loop of `sema_down_internal` from one test on: queue and block while the value is
zero, otherwise take a unit. -/
def semaDownLoop (s : SemaRef) (mLock : Option LockRef) (k : Kernel) : Except Fault Kernel :=
  if (k.semas s).value = 0 then threadBlock (semaEnqueue s mLock k)
  else .ok (semaTake s mLock k)

/-- `sema_down_internal`. -/
def semaDownInternal (s : SemaRef) (mLock : Option LockRef) (k : Kernel) :
    Except Fault Kernel := do
  assert .notIntrContext (k.inExternalIntr = false)
  let _ ← threadCurrent k
  semaDownLoop s mLock k

/-- The loop of `sema_down_internal` from the return of `thread_block` on. -/
def semaDownResume (s : SemaRef) (mLock : Option LockRef) (k : Kernel) : Except Fault Kernel :=
  semaDownLoop s mLock (match mLock with
    | some _ => k.setWaitingLock k.current none
    | none => k)

/-- `sema_try_down`, with its result. -/
def semaTryDown (s : SemaRef) (k : Kernel) : Bool × Kernel :=
  if (k.semas s).value > 0 then
    (true, k.setSema s { k.semas s with value := (k.semas s).value - 1 })
  else
    (false, k)

/-- The head of `sema_up_internal`: wake the waiter of highest priority. With every waiter's
priority at most `-1` the scan leaves `top` null, and it is read through. -/
def semaWake (s : SemaRef) (mLock : Option LockRef) (k : Kernel) : Except Fault Kernel :=
  if (k.semas s).waiters = [] then
    .ok k
  else
    match scanMax k.prio (-1) none (k.semas s).waiters with
    | none => .error .undefined
    | some top => do
      let k ← threadUnblock top
        (k.setSema s { k.semas s with waiters := (k.semas s).waiters.erase top })
      .ok (updateIfLock mLock k)

/-- `sema->value++` on an `unsigned`. -/
def semaIncrement (s : SemaRef) (k : Kernel) : Kernel :=
  k.setSema s { k.semas s with value := ((k.semas s).value + 1) % 2 ^ 32 }

/-- `sema_up_internal`. -/
def semaUpInternal (s : SemaRef) (mLock : Option LockRef) (k : Kernel) : Except Fault Kernel := do
  let k ← semaWake s mLock k
  threadYield (semaIncrement s k)

/-- `lock_init`. -/
def lockInit (l : LockRef) (k : Kernel) : Kernel :=
  semaInit (.lock l) 1 (k.setLock l { maxWaiterPriority := -1, holder := none })

/-- `lock_held_by_current_thread`. -/
def lockHeldByCurrentThread (l : LockRef) (k : Kernel) : Except Fault Bool := do
  let cur ← threadCurrent k
  .ok (k.holder l == some cur)

/-- The `while` loop of `lock_acquire`, with the donor and `tempLock`. -/
def donate (cur : ThreadRef) : Nat → Option LockRef → Kernel → Except Fault Kernel
  | _, none, k => .ok k
  | 0, some _, _ => .error .hang
  | fuel + 1, some l, k =>
    match k.holder l with
    | none => .ok k
    | some h =>
      if (k.threads h).magic = false then
        .error .undefined
      else if k.prio h < k.prio cur then
        let p := k.prio cur
        let k := (k.setLock l { k.locks l with maxWaiterPriority := p }).setPriority h p
        donate cur fuel (k.threads h).waitingLock k
      else
        .error .hang

/-- `lock_acquire`. -/
def lockAcquire (l : LockRef) (k : Kernel) : Except Fault Kernel := do
  assert .notIntrContext (k.inExternalIntr = false)
  let held ← lockHeldByCurrentThread l k
  assert .lockNotHeld (held = false)
  let cur ← threadCurrent k
  let k ← donate cur (k.allList.length + 2) (some l) k
  semaDownInternal (.lock l) (some l) k

/-- `lock_try_acquire`, to the statement that sets the holder. -/
def lockTryAcquire (l : LockRef) (k : Kernel) : Except Fault Kernel := do
  let held ← lockHeldByCurrentThread l k
  assert .lockNotHeld (held = false)
  let (success, k) := semaTryDown (.lock l) k
  .ok (if success then k.pushFrames k.current [.lockTryAcquired l] else k)

/-- `lock->holder = thread_current ()` in `lock_try_acquire`. -/
def lockTryAcquired (l : LockRef) (k : Kernel) : Except Fault Kernel := do
  let cur ← threadCurrent k
  .ok (k.setLock l { k.locks l with holder := some cur })

/-- The priority `lock_release` leaves its caller with: the base priority, raised to the
recorded priority of every other lock on `held_locks`. -/
def releasePriority (l : LockRef) (t : Thread) (k : Kernel) : Int :=
  (t.heldLocks.filter (· ≠ l)).foldl
    (fun p l' =>
      if p < (k.locks l').maxWaiterPriority then (k.locks l').maxWaiterPriority else p)
    t.basePriority

/-- `lock_release`, to its call of `sema_up_internal`. -/
def lockReleased (l : LockRef) (k : Kernel) : Kernel :=
  let p := releasePriority l (k.threads k.current) k
  let k := k.modThread k.current fun th =>
    { th with priority := p, heldLocks := th.heldLocks.filter (· ≠ l) }
  k.setLock l { k.locks l with holder := none }

/-- `lock_release`. -/
def lockRelease (l : LockRef) (k : Kernel) : Except Fault Kernel := do
  let held ← lockHeldByCurrentThread l k
  assert .lockHeld (held = true)
  let _ ← threadCurrent k
  semaUpInternal (.lock l) (some l) (lockReleased l k)

/-- `cond_wait` under the lock: a fresh `struct semaphore_elem`, with the caller's priority. -/
def condRecord (c : CondRef) (l : LockRef) (k : Kernel) : Kernel :=
  let cur := k.current
  let k := semaInit (.waiter cur) 0 k
  let k := { k with elemPriority := Function.update k.elemPriority cur (k.prio cur) }
  k.pushFrames cur [.condPushBack c, .lockRelease l, .semaDown (.waiter cur), .lockAcquire l]

/-- `cond_wait`, to `waiter.priority = thread_current ()->priority`. Interrupts are on from there
to the `list_push_back`, and what another thread does in between is not in the record. -/
def condWait (c : CondRef) (l : LockRef) (k : Kernel) : Except Fault Kernel := do
  assert .notIntrContext (k.inExternalIntr = false)
  let held ← lockHeldByCurrentThread l k
  assert .lockHeld (held = true)
  .ok (condRecord c l k)

/-- The `list_push_back` of `cond_wait`: the element joins the waiters of the condition. -/
def condPushBack (c : CondRef) (k : Kernel) : Kernel :=
  { k with conds := Function.update k.conds c (k.conds c ++ [k.current]) }

/-- `cond_signal`, to the call of `sema_up`. With every recorded priority at most `-1` the
scan leaves `topElem` uninitialised. -/
def condSignal (c : CondRef) (l : LockRef) (k : Kernel) : Except Fault Kernel := do
  assert .notIntrContext (k.inExternalIntr = false)
  let held ← lockHeldByCurrentThread l k
  assert .lockHeld (held = true)
  if k.conds c = [] then
    .ok k
  else
    match scanMax k.elemPriority (-1) none (k.conds c) with
    | none => .error .undefined
    | some top =>
      .ok ({ k with conds := Function.update k.conds c ((k.conds c).erase top) }.pushFrames
        k.current [.semaUp (.waiter top)])

/-- One test of the loop of `cond_broadcast`. -/
def condBroadcast (c : CondRef) (l : Nat) (k : Kernel) : Kernel :=
  if k.conds c = [] then k
  else k.pushFrames k.current [.condSignal c l, .condBroadcast c l]

end Pintos.Threads
