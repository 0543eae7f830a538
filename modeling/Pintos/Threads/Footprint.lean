import Pintos.Threads.Machine

/-!
# What the scheduler leaves alone

The functions of `thread.c` move threads between queues and on and off the CPU. They change
a thread's `status` and `endTick` and nothing else of it, and they touch no semaphore, lock
or condition. `Same k k'` says that, and the laws below say it of every scheduler function,
so that a property of locks, priorities or frames passes through a switch without a look
inside it.
-/

namespace Pintos.Threads

open Pintos.Lib

/-! ## The updates, field by field -/

namespace Kernel

variable (k : Kernel) (t u : ThreadRef)

/-- `modThread` changes the one thread. -/
theorem modThread_threads (f : Thread → Thread) :
    (k.modThread t f).threads u = if u = t then f (k.threads t) else k.threads u := by
  unfold modThread
  by_cases h : u = t
  · subst h
    simp
  · simp [h]

@[simp] theorem modThread_self (f : Thread → Thread) :
    (k.modThread t f).threads t = f (k.threads t) := by
  simp [modThread]

/-- Another thread stays as it was. -/
theorem modThread_ne (f : Thread → Thread) {t u : ThreadRef} (h : u ≠ t) :
    (k.modThread t f).threads u = k.threads u := by
  simp [modThread, h]

end Kernel

/-- The parts of a thread that the scheduler never writes. -/
structure SameThread (a b : Thread) : Prop where
  priority : b.priority = a.priority
  basePriority : b.basePriority = a.basePriority
  heldLocks : b.heldLocks = a.heldLocks
  waitingLock : b.waitingLock = a.waitingLock
  magic : b.magic = a.magic
  frames : b.frames = a.frames

/-- The parts of the kernel that the scheduler never writes. -/
structure Same (k k' : Kernel) : Prop where
  thread : ∀ t, SameThread (k.threads t) (k'.threads t)
  semas : k'.semas = k.semas
  locks : k'.locks = k.locks
  conds : k'.conds = k.conds
  elemPriority : k'.elemPriority = k.elemPriority
  allList : k'.allList = k.allList
  idleThread : k'.idleThread = k.idleThread
  initialThread : k'.initialThread = k.initialThread
  ticks : k'.ticks = k.ticks
  usedMap : k'.usedMap = k.usedMap
  inExternalIntr : k'.inExternalIntr = k.inExternalIntr

theorem SameThread.refl (a : Thread) : SameThread a a := ⟨rfl, rfl, rfl, rfl, rfl, rfl⟩

/-- What two steps keep of a thread, they keep together. -/
theorem SameThread.trans {a b c : Thread} (h : SameThread a b) (h' : SameThread b c) :
    SameThread a c :=
  ⟨h'.priority.trans h.priority, h'.basePriority.trans h.basePriority,
    h'.heldLocks.trans h.heldLocks, h'.waitingLock.trans h.waitingLock,
    h'.magic.trans h.magic, h'.frames.trans h.frames⟩

theorem Same.refl (k : Kernel) : Same k k :=
  ⟨fun _ => .refl _, rfl, rfl, rfl, rfl, rfl, rfl, rfl, rfl, rfl, rfl⟩

/-- What two steps keep, they keep together. -/
theorem Same.trans {k₁ k₂ k₃ : Kernel} (h : Same k₁ k₂) (h' : Same k₂ k₃) : Same k₁ k₃ :=
  ⟨fun t => (h.thread t).trans (h'.thread t), h'.semas.trans h.semas, h'.locks.trans h.locks,
    h'.conds.trans h.conds, h'.elemPriority.trans h.elemPriority, h'.allList.trans h.allList,
    h'.idleThread.trans h.idleThread, h'.initialThread.trans h.initialThread,
    h'.ticks.trans h.ticks, h'.usedMap.trans h.usedMap, h'.inExternalIntr.trans h.inExternalIntr⟩

/-- A step that is the same for the locks keeps the priorities. -/
theorem Same.prio {k k' : Kernel} (h : Same k k') : k'.prio = k.prio :=
  funext fun t => (h.thread t).priority

/-- An update of `status` and `endTick` alone leaves everything else as it was. -/
theorem same_modThread (k : Kernel) (t : ThreadRef) (f : Thread → Thread)
    (h : SameThread (k.threads t) (f (k.threads t))) : Same k (k.modThread t f) := by
  refine ⟨fun u => ?_, rfl, rfl, rfl, rfl, rfl, rfl, rfl, rfl, rfl, rfl⟩
  rw [Kernel.modThread_threads]
  split
  next hu =>
    subst hu
    exact h
  next => exact .refl _

/-- A status is nothing to the locks. -/
theorem same_setStatus (k : Kernel) (t : ThreadRef) (s : ThreadStatus) :
    Same k (k.setStatus t s) :=
  same_modThread k t _ ⟨rfl, rfl, rfl, rfl, rfl, rfl⟩

/-- A place on the ready list is nothing to the locks. -/
theorem same_pushReady (k : Kernel) (t : ThreadRef) : Same k (k.pushReady t) :=
  ⟨fun _ => .refl _, rfl, rfl, rfl, rfl, rfl, rfl, rfl, rfl, rfl, rfl⟩

/-! ## The scheduler functions, inverted -/

/-- `thread_current` answers the running thread, if its stack has not overflowed. -/
theorem threadCurrent_eq_ok {k : Kernel} {c : ThreadRef} :
    threadCurrent k = .ok c ↔
      (k.threads k.current).magic = true ∧ (k.threads k.current).status = .running ∧
        c = k.current := by
  unfold threadCurrent
  constructor
  · intro h
    obtain ⟨_, hmagic, h⟩ := bind_eq_ok.mp h
    obtain ⟨_, hstatus, h⟩ := bind_eq_ok.mp h
    cases h
    exact ⟨assert_eq_ok.mp hmagic, assert_eq_ok.mp hstatus, rfl⟩
  · rintro ⟨hmagic, hstatus, rfl⟩
    exact bind_eq_ok.mpr ⟨(), assert_eq_ok.mpr hmagic,
      bind_eq_ok.mpr ⟨(), assert_eq_ok.mpr hstatus, rfl⟩⟩

/-- `thread_unblock` makes a blocked thread ready. -/
theorem threadUnblock_eq_ok {t : ThreadRef} {k k' : Kernel} (h : threadUnblock t k = .ok k') :
    (k.threads t).magic = true ∧ (k.threads t).status = .blocked ∧
      k' = (k.pushReady t).setStatus t .ready := by
  unfold threadUnblock at h
  obtain ⟨_, hmagic, h⟩ := bind_eq_ok.mp h
  obtain ⟨_, hstatus, h⟩ := bind_eq_ok.mp h
  cases h
  exact ⟨assert_eq_ok.mp hmagic, assert_eq_ok.mp hstatus, rfl⟩

/-- `thread_unblock` changes nothing that concerns the locks. -/
theorem threadUnblock_same {t : ThreadRef} {k k' : Kernel} (h : threadUnblock t k = .ok k') :
    Same k k' := by
  obtain ⟨_, _, rfl⟩ := threadUnblock_eq_ok h
  exact (same_pushReady k t).trans (same_setStatus _ t _)

/-- The sleeper taken off `sleep_list`, ready to be unblocked. -/
def Kernel.offSleep (k : Kernel) (t : ThreadRef) : Kernel :=
  { k with sleepList := k.sleepList.erase t }.modThread t fun th => { th with endTick := -1 }

theorem same_offSleep (k : Kernel) (t : ThreadRef) : Same k (k.offSleep t) := by
  have hlist : Same k { k with sleepList := k.sleepList.erase t } :=
    ⟨fun _ => .refl _, rfl, rfl, rfl, rfl, rfl, rfl, rfl, rfl, rfl, rfl⟩
  exact hlist.trans (same_modThread _ t _ ⟨rfl, rfl, rfl, rfl, rfl, rfl⟩)

/-- One turn of the wake-up loop: the sleeper stays, or it is moved to `ready_list`. -/
theorem wakeSleepers_cons {t : ThreadRef} {rest : List ThreadRef} {k k' : Kernel}
    (h : wakeSleepers (t :: rest) k = .ok k') :
    0 ≤ (k.threads t).endTick ∧
      ((k.ticks < (k.threads t).endTick ∧ wakeSleepers rest k = .ok k') ∨
        ((k.threads t).endTick ≤ k.ticks ∧
          ∃ k₁, threadUnblock t (k.offSleep t) = .ok k₁ ∧ wakeSleepers rest k₁ = .ok k')) := by
  unfold wakeSleepers at h
  obtain ⟨_, hpos, h⟩ := bind_eq_ok.mp h
  refine ⟨assert_eq_ok.mp hpos, ?_⟩
  split at h
  next hle =>
    obtain ⟨k₁, h₁, h₂⟩ := bind_eq_ok.mp h
    exact .inr ⟨hle, k₁, h₁, h₂⟩
  next hgt => exact .inl ⟨not_le.mp hgt, h⟩

/-- The loop over the sleepers keeps what concerns the locks, and the running thread. -/
theorem wakeSleepers_same : ∀ (ts : List ThreadRef) {k k' : Kernel},
    wakeSleepers ts k = .ok k' → Same k k' ∧ k'.current = k.current
  | [], k, k', h => by
    cases h
    exact ⟨.refl k, rfl⟩
  | t :: rest, k, k', h => by
    obtain ⟨_, ⟨_, h⟩ | ⟨_, k₁, h₁, h₂⟩⟩ := wakeSleepers_cons h
    · exact wakeSleepers_same rest h
    · obtain ⟨hs, hc⟩ := wakeSleepers_same rest h₂
      refine ⟨((same_offSleep k t).trans (threadUnblock_same h₁)).trans hs, hc.trans ?_⟩
      obtain ⟨_, _, rfl⟩ := threadUnblock_eq_ok h₁
      rfl

/-- `next_thread_to_run` answers the idle thread when `ready_list` is empty, and else its
first thread of highest priority, taken off the list. -/
theorem nextThreadToRun_eq_ok {k k' : Kernel} {next : ThreadRef}
    (h : nextThreadToRun k = .ok (next, k')) :
    (k.readyList = [] ∧ next = k.idleThread ∧ k' = k) ∨
      (IsFirstMax k.prio k.readyList next ∧
        k' = { k with readyList := k.readyList.erase next }) := by
  unfold nextThreadToRun at h
  split at h
  next hempty =>
    cases h
    exact .inl ⟨hempty, rfl, rfl⟩
  next =>
    split at h
    next t ht =>
      cases h
      exact .inr ⟨(scanMax_spec ht).1, rfl⟩
    next => cases h

/-- `schedule`: wake the sleepers, take the next thread, put it on the CPU. -/
theorem schedule_eq_ok {k k' : Kernel} (h : schedule k = .ok k') :
    ∃ k₁ k₂ next, wakeSleepers k.sleepList k = .ok k₁ ∧ nextThreadToRun k₁ = .ok (next, k₂) ∧
      (k₂.threads k.current).status ≠ .running ∧ (k₂.threads next).magic = true ∧
      k' = { k₂ with
        current := next
        scheduleTail := some (if k.current ≠ next then some k.current else none) } := by
  unfold schedule at h
  obtain ⟨k₁, hwake, h⟩ := bind_eq_ok.mp h
  obtain ⟨⟨next, k₂⟩, hnext, h⟩ := bind_eq_ok.mp h
  obtain ⟨_, hcur, h⟩ := bind_eq_ok.mp h
  obtain ⟨_, hmagic, h⟩ := bind_eq_ok.mp h
  cases h
  have hc := (wakeSleepers_same _ hwake).2
  rw [hc] at hcur ⊢
  exact ⟨k₁, k₂, next, hwake, hnext, assert_eq_ok.mp hcur, assert_eq_ok.mp hmagic, rfl⟩

/-- `next_thread_to_run` takes a thread off the ready list, and no more. -/
theorem nextThreadToRun_same {k k' : Kernel} {next : ThreadRef}
    (h : nextThreadToRun k = .ok (next, k')) : Same k k' := by
  rcases nextThreadToRun_eq_ok h with ⟨_, _, rfl⟩ | ⟨_, rfl⟩
  · exact .refl k'
  · exact ⟨fun _ => .refl _, rfl, rfl, rfl, rfl, rfl, rfl, rfl, rfl, rfl, rfl⟩

/-- `schedule` keeps what concerns the locks. -/
theorem schedule_same {k k' : Kernel} (h : schedule k = .ok k') : Same k k' := by
  obtain ⟨k₁, k₂, next, hwake, hnext, _, _, rfl⟩ := schedule_eq_ok h
  exact ((wakeSleepers_same _ hwake).1.trans (nextThreadToRun_same hnext)).trans
    ⟨fun _ => .refl _, rfl, rfl, rfl, rfl, rfl, rfl, rfl, rfl, rfl, rfl⟩

/-- `thread_block`, inverted: the caller was running and `schedule` took over. -/
theorem threadBlock_eq_ok {k k' : Kernel} (h : threadBlock k = .ok k') :
    (k.threads k.current).magic = true ∧ (k.threads k.current).status = .running ∧
      schedule (k.setStatus k.current .blocked) = .ok k' := by
  unfold threadBlock at h
  obtain ⟨_, _, h⟩ := bind_eq_ok.mp h
  obtain ⟨c, hc, h⟩ := bind_eq_ok.mp h
  obtain ⟨hmagic, hstatus, rfl⟩ := threadCurrent_eq_ok.mp hc
  exact ⟨hmagic, hstatus, h⟩

theorem threadBlock_same {k k' : Kernel} (h : threadBlock k = .ok k') : Same k k' :=
  (same_setStatus k _ _).trans (schedule_same (threadBlock_eq_ok h).2.2)

/-- The caller of `thread_yield`, back in `ready_list` unless it is the idle thread. -/
def Kernel.requeue (k : Kernel) : Kernel :=
  (if k.current ≠ k.idleThread then k.pushReady k.current else k).setStatus k.current .ready

/-- The running thread's return to the ready list keeps what concerns the locks. -/
theorem same_requeue (k : Kernel) : Same k k.requeue := by
  unfold Kernel.requeue
  split
  · exact (same_pushReady k _).trans (same_setStatus _ _ _)
  · exact same_setStatus _ _ _

/-- `thread_yield`, inverted. -/
theorem threadYield_eq_ok {k k' : Kernel} (h : threadYield k = .ok k') :
    (k.threads k.current).magic = true ∧ (k.threads k.current).status = .running ∧
      schedule k.requeue = .ok k' := by
  unfold threadYield at h
  obtain ⟨c, hc, h⟩ := bind_eq_ok.mp h
  obtain ⟨hmagic, hstatus, rfl⟩ := threadCurrent_eq_ok.mp hc
  obtain ⟨_, _, h⟩ := bind_eq_ok.mp h
  exact ⟨hmagic, hstatus, h⟩

theorem threadYield_same {k k' : Kernel} (h : threadYield k = .ok k') : Same k k' :=
  (same_requeue k).trans (schedule_same (threadYield_eq_ok h).2.2)

/-- `thread_yield_for_seconds`, inverted. -/
theorem threadYieldForSeconds_eq_ok {e : Int} {k k' : Kernel}
    (h : threadYieldForSeconds e k = .ok k') :
    (k.threads k.current).status = .running ∧
      threadBlock ({ k with sleepList := k.sleepList ++ [k.current] }.modThread k.current
        fun th => { th with endTick := e }) = .ok k' := by
  unfold threadYieldForSeconds at h
  obtain ⟨c, hc, h⟩ := bind_eq_ok.mp h
  obtain ⟨_, hstatus, rfl⟩ := threadCurrent_eq_ok.mp hc
  obtain ⟨_, _, h⟩ := bind_eq_ok.mp h
  exact ⟨hstatus, h⟩

/-- `thread_exit`, inverted. -/
theorem threadExit_eq_ok {k k' : Kernel} (h : threadExit k = .ok k') :
    schedule ({ k with allList := k.allList.erase k.current }.setStatus k.current .dying)
      = .ok k' := by
  unfold threadExit at h
  obtain ⟨_, _, h⟩ := bind_eq_ok.mp h
  obtain ⟨c, hc, h⟩ := bind_eq_ok.mp h
  obtain ⟨_, _, rfl⟩ := threadCurrent_eq_ok.mp hc
  exact h

/-- The priority `thread_set_priority` leaves its caller with. -/
def newPriority (t : Thread) (p : Int) : Int :=
  if t.priority > t.basePriority then (if t.priority > p then t.priority else p) else p

/-- `thread_set_priority`, inverted. -/
theorem threadSetPriority_eq_ok {p : Int} {k k' : Kernel}
    (h : threadSetPriority p k = .ok k') :
    threadYield (k.modThread k.current fun th =>
      { th with priority := newPriority (k.threads k.current) p, basePriority := p }) = .ok k' := by
  unfold threadSetPriority at h
  obtain ⟨c, hc, h⟩ := bind_eq_ok.mp h
  obtain ⟨_, _, rfl⟩ := threadCurrent_eq_ok.mp hc
  exact h

/-- `init_thread`, inverted. -/
theorem initThread_eq_ok {t : ThreadRef} {p : Int} {k k' : Kernel}
    (h : initThread t p k = .ok k') :
    (priMin ≤ p ∧ p ≤ priMax) ∧
      k' = { k with allList := k.allList ++ [t] }.modThread t fun _ =>
        bootThread 0 p 0 .blocked [] := by
  unfold initThread at h
  obtain ⟨_, hp, h⟩ := bind_eq_ok.mp h
  cases h
  exact ⟨assert_eq_ok.mp hp, rfl⟩

/-- A tick, inverted: time passes, and the time slice may be over. -/
theorem timerInterrupt_eq_ok {k k' : Kernel} (h : timerInterrupt k = .ok k') :
    k' = threadTick k ∨ threadYield (threadTick k) = .ok k' := by
  unfold timerInterrupt at h
  obtain ⟨_, _, h⟩ := bind_eq_ok.mp h
  obtain ⟨_, _, h⟩ := bind_eq_ok.mp h
  split at h
  · exact .inr h
  · cases h
    exact .inl rfl

/-! ## The synchronisation functions, inverted -/

/-- `lock_held_by_current_thread` tells whether the running thread is the holder. -/
theorem lockHeld_eq_ok {l : LockRef} {k : Kernel} {held : Bool}
    (h : lockHeldByCurrentThread l k = .ok held) : held = (k.holder l == some k.current) := by
  unfold lockHeldByCurrentThread at h
  obtain ⟨c, hc, h⟩ := bind_eq_ok.mp h
  obtain ⟨_, _, rfl⟩ := threadCurrent_eq_ok.mp hc
  cases h
  rfl

/-- The loop of `sema_down` waits at 0 and takes one otherwise. -/
theorem semaDownLoop_eq_ok {s : SemaRef} {m : Option LockRef} {k k' : Kernel}
    (h : semaDownLoop s m k = .ok k') :
    ((k.semas s).value = 0 ∧ threadBlock (semaEnqueue s m k) = .ok k') ∨
      ((k.semas s).value ≠ 0 ∧ k' = semaTake s m k) := by
  unfold semaDownLoop at h
  split at h
  next hz => exact .inl ⟨hz, h⟩
  next hz =>
    cases h
    exact .inr ⟨hz, rfl⟩

/-- `sema_down_internal` is its loop, outside a handler. -/
theorem semaDownInternal_eq_ok {s : SemaRef} {m : Option LockRef} {k k' : Kernel}
    (h : semaDownInternal s m k = .ok k') : semaDownLoop s m k = .ok k' := by
  unfold semaDownInternal at h
  obtain ⟨_, _, h⟩ := bind_eq_ok.mp h
  obtain ⟨_, _, h⟩ := bind_eq_ok.mp h
  exact h

/-- Waking a waiter, inverted: nobody waits, or the first waiter of highest priority goes. -/
theorem semaWake_eq_ok {s : SemaRef} {m : Option LockRef} {k k' : Kernel}
    (h : semaWake s m k = .ok k') :
    ((k.semas s).waiters = [] ∧ k' = k) ∨
      ∃ top k₁, IsFirstMax k.prio (k.semas s).waiters top ∧
        threadUnblock top (k.setSema s
          { k.semas s with waiters := (k.semas s).waiters.erase top }) = .ok k₁ ∧
        k' = updateIfLock m k₁ := by
  unfold semaWake at h
  split at h
  next hempty =>
    cases h
    exact .inl ⟨hempty, rfl⟩
  next =>
    split at h
    next => cases h
    next top htop =>
      obtain ⟨k₁, h₁, h⟩ := bind_eq_ok.mp h
      cases h
      exact .inr ⟨top, k₁, (scanMax_spec htop).1, h₁, rfl⟩

/-- `sema_up_internal` wakes one waiter, adds one and yields. -/
theorem semaUpInternal_eq_ok {s : SemaRef} {m : Option LockRef} {k k' : Kernel}
    (h : semaUpInternal s m k = .ok k') :
    ∃ k₁, semaWake s m k = .ok k₁ ∧ threadYield (semaIncrement s k₁) = .ok k' :=
  bind_eq_ok.mp h

/-- `lock_acquire` donates, and goes down on the lock's semaphore. -/
theorem lockAcquire_eq_ok {l : LockRef} {k k' : Kernel} (h : lockAcquire l k = .ok k') :
    k.holder l ≠ some k.current ∧
      ∃ k₁, donate k.current (k.allList.length + 2) (some l) k = .ok k₁ ∧
        semaDownLoop (.lock l) (some l) k₁ = .ok k' := by
  unfold lockAcquire at h
  obtain ⟨_, _, h⟩ := bind_eq_ok.mp h
  obtain ⟨held, hheld, h⟩ := bind_eq_ok.mp h
  obtain ⟨_, hnot, h⟩ := bind_eq_ok.mp h
  obtain ⟨c, hc, h⟩ := bind_eq_ok.mp h
  obtain ⟨_, _, rfl⟩ := threadCurrent_eq_ok.mp hc
  obtain ⟨k₁, h₁, h⟩ := bind_eq_ok.mp h
  refine ⟨?_, k₁, h₁, semaDownInternal_eq_ok h⟩
  have := assert_eq_ok.mp hnot
  rw [lockHeld_eq_ok hheld] at this
  simpa using this

/-- `lock_try_acquire` takes one from the semaphore if there is one to take. -/
theorem lockTryAcquire_eq_ok {l : LockRef} {k k' : Kernel} (h : lockTryAcquire l k = .ok k') :
    k.holder l ≠ some k.current ∧
      (((k.semas (.lock l)).value = 0 ∧ k' = k) ∨
        (0 < (k.semas (.lock l)).value ∧
          k' = (k.setSema (.lock l) { k.semas (.lock l) with
            value := (k.semas (.lock l)).value - 1 }).pushFrames k.current
              [.lockTryAcquired l])) := by
  unfold lockTryAcquire at h
  obtain ⟨held, hheld, h⟩ := bind_eq_ok.mp h
  obtain ⟨_, hnot, h⟩ := bind_eq_ok.mp h
  constructor
  · have := assert_eq_ok.mp hnot
    rw [lockHeld_eq_ok hheld] at this
    simpa using this
  · unfold semaTryDown at h
    by_cases hv : (k.semas (.lock l)).value > 0
    · simp only [hv, if_true] at h
      cases h
      exact .inr ⟨hv, rfl⟩
    · simp only [hv, if_false] at h
      cases h
      exact .inl ⟨by omega, rfl⟩

/-- A successful `lock_try_acquire` ends with writing the holder, and only the holder. -/
theorem lockTryAcquired_eq_ok {l : LockRef} {k k' : Kernel} (h : lockTryAcquired l k = .ok k') :
    k' = k.setLock l { k.locks l with holder := some k.current } := by
  unfold lockTryAcquired at h
  obtain ⟨c, hc, h⟩ := bind_eq_ok.mp h
  obtain ⟨_, _, rfl⟩ := threadCurrent_eq_ok.mp hc
  cases h
  rfl

/-- `lock_release` takes the lock off its holder, and goes up. -/
theorem lockRelease_eq_ok {l : LockRef} {k k' : Kernel} (h : lockRelease l k = .ok k') :
    k.holder l = some k.current ∧
      semaUpInternal (.lock l) (some l) (lockReleased l k) = .ok k' := by
  unfold lockRelease at h
  obtain ⟨held, hheld, h⟩ := bind_eq_ok.mp h
  obtain ⟨_, htrue, h⟩ := bind_eq_ok.mp h
  obtain ⟨_, _, h⟩ := bind_eq_ok.mp h
  refine ⟨?_, h⟩
  have := assert_eq_ok.mp htrue
  rw [lockHeld_eq_ok hheld] at this
  simpa using this

/-- `cond_wait` first records the priority, with the lock held. -/
theorem condWait_eq_ok {c : CondRef} {l : LockRef} {k k' : Kernel}
    (h : condWait c l k = .ok k') :
    k.holder l = some k.current ∧ k' = condRecord c l k := by
  unfold condWait at h
  obtain ⟨_, _, h⟩ := bind_eq_ok.mp h
  obtain ⟨held, hheld, h⟩ := bind_eq_ok.mp h
  obtain ⟨_, htrue, h⟩ := bind_eq_ok.mp h
  cases h
  refine ⟨?_, rfl⟩
  have := assert_eq_ok.mp htrue
  rw [lockHeld_eq_ok hheld] at this
  simpa using this

/-- `cond_signal` takes the first waiter of the greatest recorded priority, if there is any. -/
theorem condSignal_eq_ok {c : CondRef} {l : LockRef} {k k' : Kernel}
    (h : condSignal c l k = .ok k') :
    (k.conds c = [] ∧ k' = k) ∨
      ∃ top, IsFirstMax k.elemPriority (k.conds c) top ∧
        k' = { k with conds := Function.update k.conds c ((k.conds c).erase top) }.pushFrames
          k.current [.semaUp (.waiter top)] := by
  unfold condSignal at h
  obtain ⟨_, _, h⟩ := bind_eq_ok.mp h
  obtain ⟨held, hheld, h⟩ := bind_eq_ok.mp h
  obtain ⟨_, _, h⟩ := bind_eq_ok.mp h
  split at h
  next hempty =>
    cases h
    exact .inl ⟨hempty, rfl⟩
  next =>
    split at h
    next => cases h
    next top htop =>
      cases h
      exact .inr ⟨top, (scanMax_spec htop).1, rfl⟩

/-! ## The frames with a test of their own, inverted -/

/-- The page of a new thread is a free one. -/
theorem bitmapScanAndFlip_eq_ok {page : Option ThreadRef} {p : Int} {k k' : Kernel}
    (h : exec page k (.bitmapScanAndFlip p) = .ok k') :
    (∃ t, k.usedMap t = false ∧
      k' = { k with usedMap := Function.update k.usedMap t true }.pushFrames k.current
        [.lockRelease .poolLock, .initThread t p]) ∨
      k' = k.pushFrames k.current [.lockRelease .poolLock] := by
  cases page with
  | none =>
    cases h
    exact .inr rfl
  | some t =>
    simp only [exec] at h
    split at h
    next => cases h
    next hfree =>
      cases h
      exact .inl ⟨t, by simpa using hfree, rfl⟩

/-- A semaphore is initialized with nobody at it. -/
theorem execSemaInit_eq_ok {page : Option ThreadRef} {s v : Nat} {k k' : Kernel}
    (h : exec page k (.semaInit s v) = .ok k') :
    (k.semas (.plain s)).waiters = [] ∧ k' = semaInit (.plain s) (v % 2 ^ 32) k := by
  simp only [exec] at h
  split at h
  next hw =>
    cases h
    exact ⟨hw, rfl⟩
  next => cases h

/-- A lock too, and with no holder. -/
theorem execLockInit_eq_ok {page : Option ThreadRef} {l : Nat} {k k' : Kernel}
    (h : exec page k (.lockInit l) = .ok k') :
    (k.waiters (.user l) = [] ∧ k.holder (.user l) = none ∧
      (k.semas (.lock (.user l))).value = 1) ∧ k' = lockInit (.user l) k := by
  simp only [exec] at h
  split at h
  next hw =>
    cases h
    exact ⟨hw, rfl⟩
  next => cases h

/-- A condition that is new has no waiters to lose. -/
theorem execCondInit_eq_ok {page : Option ThreadRef} {c : CondRef} {k k' : Kernel}
    (h : exec page k (.condInit c) = .ok k') : k' = k := by
  simp only [exec] at h
  split at h
  next =>
    cases h
    rfl
  next => cases h

end Pintos.Threads
