import Pintos.Lib.Run
import Pintos.Threads.Synch

/-!
# The threads project as a machine

One step of the machine is one of four events. A thread in thread code CALLS a primitive,
which puts the primitive's code on the thread's frames. The running thread RUNS its next
frame. The thread that has just been switched to runs the TAIL of the switch. A timer TICK
interrupts the running thread, wherever interrupts are on: anywhere but in the middle of a
switch and before the frame that resumes a blocked `sema_down_internal`.

A thread returns to thread code when it is on the CPU, the tail has run and it has no frame
left. `afterThreadStart` is the state in which `thread_start` returns to `main`: the idle
thread has announced itself through `sema_up (idle_started)`, whose `thread_yield` has left
it READY and, as the exception `thread_yield` makes for it, in no list.
-/

namespace Pintos.Threads

open Pintos.Lib

/-- The primitives a thread may call. -/
inductive Call where
  | threadYield
  | timerSleep (ticks : Int)
  | threadSetPriority (newPriority : Int)
  | threadExit
  | threadCreate (priority : Int)
  | semaInit (s : Nat) (value : Nat)
  | semaDown (s : Nat)
  | semaTryDown (s : Nat)
  | semaUp (s : Nat)
  | lockInit (l : Nat)
  | lockAcquire (l : Nat)
  | lockTryAcquire (l : Nat)
  | lockRelease (l : Nat)
  | condInit (c : CondRef)
  | condWait (c : CondRef) (l : Nat)
  | condSignal (c : CondRef) (l : Nat)
  | condBroadcast (c : CondRef) (l : Nat)
  deriving DecidableEq, Repr

/-- The code a call puts on its thread. -/
def Call.frame : Call → Frame
  | .threadYield => .threadYield
  | .timerSleep n => .timerSleep n
  | .threadSetPriority p => .threadSetPriority p
  | .threadExit => .threadExit
  | .threadCreate p => .threadCreate p
  | .semaInit s v => .semaInit s v
  | .semaDown s => .semaDown (.plain s)
  | .semaTryDown s => .semaTryDown s
  | .semaUp s => .semaUp (.plain s)
  | .lockInit l => .lockInit l
  | .lockAcquire l => .lockAcquire (.user l)
  | .lockTryAcquire l => .lockTryAcquire l
  | .lockRelease l => .lockRelease (.user l)
  | .condInit c => .condInit c
  | .condWait c l => .condWait c l
  | .condSignal c l => .condSignal c l
  | .condBroadcast c l => .condBroadcast c l

/-- Runs one frame of the running thread. `page` is the page `bitmap_scan_and_flip` finds,
if it finds one. Initialising an object that is in use is outside the interface. -/
def exec (page : Option ThreadRef) (k : Kernel) : Frame → Except Fault Kernel
  | .threadYield => threadYield k
  | .threadYieldForSeconds e => threadYieldForSeconds e k
  | .timerSleep n =>
    .ok (k.pushFrames k.current
      [.threadYieldForSeconds (toInt64 (k.ticks + if n > 0 then n else 0))])
  | .threadSetPriority p => threadSetPriority p k
  | .threadExit => threadExit k
  | .threadCreate p =>
    .ok (k.pushFrames k.current [.lockAcquire .poolLock, .bitmapScanAndFlip p])
  | .bitmapScanAndFlip p =>
    match page with
    | some t =>
      if k.usedMap t = true then .error .notEnabled
      else .ok ({ k with usedMap := Function.update k.usedMap t true }.pushFrames k.current
        [.lockRelease .poolLock, .initThread t p])
    | none => .ok (k.pushFrames k.current [.lockRelease .poolLock])
  | .initThread t p => do
    let k ← initThread t p k
    .ok (k.pushFrames k.current [.lockAcquire .tidLock, .allocateTid t])
  | .allocateTid t =>
    .ok ({ k with nextTid := k.nextTid + 1 }.pushFrames k.current
      [.lockRelease .tidLock, .threadUnblock t k.nextTid, .threadYield])
  | .threadUnblock t tid =>
    threadUnblock t (k.modThread t fun th => { th with tid := tid, endTick := -1 })
  | .semaInit s v =>
    if (k.semas (.plain s)).waiters = [] then .ok (semaInit (.plain s) (v % 2 ^ 32) k)
    else .error .notEnabled
  | .semaDown s => semaDownInternal s none k
  | .semaDownLoop s m => semaDownResume s m k
  | .semaTryDown s => .ok (semaTryDown (.plain s) k).2
  | .semaUp s => semaUpInternal s none k
  | .lockInit l =>
    if k.waiters (.user l) = [] ∧ k.holder (.user l) = none ∧
        (k.semas (.lock (.user l))).value = 1
    then .ok (lockInit (.user l) k)
    else .error .notEnabled
  | .lockAcquire l => lockAcquire l k
  | .lockTryAcquire l => lockTryAcquire (.user l) k
  | .lockTryAcquired l => lockTryAcquired l k
  | .lockRelease l => lockRelease l k
  | .condInit c => if k.conds c = [] then .ok k else .error .notEnabled
  | .condWait c l => condWait c (.user l) k
  | .condPushBack c => .ok (condPushBack c k)
  | .condSignal c l => condSignal c (.user l) k
  | .condBroadcast c l => .ok (condBroadcast c l k)
  | .idleBlock => threadBlock (k.pushFrames k.current [.idleHalt])
  | .idleHalt => .ok (k.pushFrames k.current [.idleBlock])

/-- What can happen next. -/
inductive Event where
  | call (c : Call)
  | run (page : Option ThreadRef)
  | tail
  | tick
  deriving DecidableEq, Repr

/-- Interrupts are off before this frame: it resumes a thread inside a switch. -/
def Frame.intrOff : Frame → Bool
  | .semaDownLoop _ _ => true
  | _ => false

/-- One event. -/
def step (e : Event) (k : Kernel) : Except Fault Kernel :=
  match e, k.scheduleTail, (k.threads k.current).frames with
  | .tail, some prev, _ => threadScheduleTail prev { k with scheduleTail := none }
  | .call c, none, [] => .ok (k.setFrames k.current [c.frame])
  | .run page, none, f :: rest => exec page (k.setFrames k.current rest) f
  | .tick, none, [] => timerInterrupt k
  | .tick, none, f :: _ => if f.intrOff then .error .notEnabled else timerInterrupt k
  | _, _, _ => .error .notEnabled

/-- The four kinds of event, inverted. -/
theorem step_eq_ok {e : Event} {k k' : Kernel} (h : step e k = .ok k') :
    (∃ prev, e = .tail ∧ k.scheduleTail = some prev ∧
      threadScheduleTail prev { k with scheduleTail := none } = .ok k') ∨
    (∃ c, e = .call c ∧ k.scheduleTail = none ∧ (k.threads k.current).frames = [] ∧
      k' = k.setFrames k.current [c.frame]) ∨
    (∃ page f rest, e = .run page ∧ k.scheduleTail = none ∧
      (k.threads k.current).frames = f :: rest ∧
      exec page (k.setFrames k.current rest) f = .ok k') ∨
    (e = .tick ∧ k.scheduleTail = none ∧ timerInterrupt k = .ok k' ∧
      ∀ f ∈ (k.threads k.current).frames.head?, f.intrOff = false) := by
  unfold step at h
  split at h
  next _ prev htail => exact .inl ⟨prev, rfl, htail, h⟩
  next c htail hf =>
    cases h
    exact .inr (.inl ⟨c, rfl, htail, hf, rfl⟩)
  next page f rest htail hf => exact .inr (.inr (.inl ⟨page, f, rest, rfl, htail, hf, h⟩))
  next htail hf => exact .inr (.inr (.inr ⟨rfl, htail, h, by simp [hf]⟩))
  next f rest htail hf =>
    split at h
    next => cases h
    next hoff => exact .inr (.inr (.inr ⟨rfl, htail, h, by simpa [hf] using hoff⟩))
  next => cases h

/-- The running thread is in thread code: it has returned from every call it made. -/
def Kernel.InThreadCode (k : Kernel) : Prop :=
  k.scheduleTail = none ∧ (k.threads k.current).frames = []

/-- What `thread_start` finds that it does not set up itself. -/
structure Boot where
  main : ThreadRef
  idle : ThreadRef
  main_ne_idle : main ≠ idle
  /-- `kernel_pool.used_map`: the pages in use besides the idle thread's. -/
  usedMap : ThreadRef → Bool
  /-- `main` runs on a page that is not the pool's to hand out. -/
  main_used : usedMap main = true
  idle_used : usedMap idle = true
  /-- The initial value of each semaphore. -/
  value : Nat → Nat
  value_lt : ∀ s, value s < 2 ^ 32
  ticks : Int
  ticks_nonneg : 0 ≤ ticks

/-- A thread as `init_thread` leaves it, with the status and frames given. -/
def bootThread (tid priority endTick : Int) (status : ThreadStatus) (frames : List Frame) :
    Thread :=
  { tid := tid, status := status, priority := priority, basePriority := priority
    endTick := endTick, heldLocks := [], waitingLock := none, magic := true, frames := frames }

/-- A page that holds no thread. -/
def noThread : Thread :=
  { tid := 0, status := .blocked, priority := 0, basePriority := 0, endTick := 0
    heldLocks := [], waitingLock := none, magic := false, frames := [] }

/-- The state in which `thread_start` returns. -/
def afterThreadStart (b : Boot) : Kernel where
  threads := fun t =>
    if t = b.main then bootThread 1 priDefault 0 .running []
    else if t = b.idle then bootThread 2 priMin (-1) .ready [.idleBlock]
    else noThread
  semas := fun s => match s with
    | .plain n => { value := b.value n, waiters := [] }
    | .lock _ => { value := 1, waiters := [] }
    | .waiter _ => { value := 0, waiters := [] }
  locks := fun _ => { maxWaiterPriority := -1, holder := none }
  conds := fun _ => []
  elemPriority := fun _ => 0
  readyList := []
  sleepList := []
  allList := [b.main, b.idle]
  idleThread := b.idle
  initialThread := b.main
  current := b.main
  scheduleTail := none
  ticks := b.ticks
  threadTicks := 0
  nextTid := 3
  usedMap := b.usedMap
  inExternalIntr := false
  queuedAt := fun _ => 0
  queueClock := 0

end Pintos.Threads
