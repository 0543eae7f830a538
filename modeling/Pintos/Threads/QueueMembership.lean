import Mathlib.Data.List.Nodup
import Pintos.Threads.Coherent

/-!
# Queue membership and thread status agree

The results about the queues of the threads project. The assertion
`t->status == THREAD_BLOCKED` in `thread_unblock` holds wherever the kernel gets to: the callers
take their thread from a wait queue, or have created it and not yet started it. A DYING thread
is in no queue, is never chosen, and loses its page in the very next event, which is run by
another thread. The initial thread is the exception: `thread_schedule_tail` does not free its
page, which `palloc_get_page` never handed out.
-/

namespace Pintos.Threads

open Pintos.Lib

variable {page : Option ThreadRef} {k k' : Kernel} {f : Frame} {new : ThreadRef → Prop}

/-! ## The assertion of `thread_unblock` -/

/-- The panic of `ASSERT (t->status == THREAD_BLOCKED)`. -/
abbrev unblockPanic : Fault := .panic .unblockBlocked

theorem avoids_threadCurrent (k : Kernel) : Avoids unblockPanic (threadCurrent k) := by
  refine (avoids_assert (by simp)).bind fun _ _ => ?_
  exact (avoids_assert (by simp)).bind fun _ _ => .of_ok

/-- A blocked thread may be unblocked. -/
theorem avoids_threadUnblock {t : ThreadRef} (h : (k.threads t).status = .blocked) :
    Avoids unblockPanic (threadUnblock t k) := by
  refine (avoids_assert (by simp)).bind fun _ _ => ?_
  refine Avoids.bind (fun he => ?_) fun _ _ => .of_ok
  exact (assert_eq_error.mp he).1 h

/-- The loop over the sleepers unblocks threads that are blocked. -/
theorem avoids_wakeSleepers : ∀ (ts : List ThreadRef) {k : Kernel}, Placed k none new →
    ts.Nodup → (∀ t ∈ ts, t ∈ k.sleepList) → Avoids unblockPanic (wakeSleepers ts k)
  | [], k, _, _, _ => .of_ok
  | t :: rest, k, h, hnd, hsub => by
    have hnd' := List.nodup_cons.mp hnd
    have hmem : t ∈ k.queue .sleep := hsub t List.mem_cons_self
    have hrest : ∀ u ∈ rest, u ∈ k.sleepList := fun u hu => hsub u (List.mem_cons_of_mem _ hu)
    refine (avoids_assert (by simp)).bind fun _ _ => ?_
    refine .ite (fun _ => ?_) fun _ => avoids_wakeSleepers rest h hnd'.2 hrest
    refine Avoids.bind (avoids_threadUnblock ?_) fun k₁ h₁ => ?_
    · rw [Kernel.modThread_self]
      exact (h.queued hmem).2
    · have hwakes := wakes_of_sleeper h₁
      refine avoids_wakeSleepers rest
        (h.unblock hwakes (.inl ⟨.sleep, rfl, by simp, hmem, fun _ => Iff.rfl⟩)) hnd'.2 ?_
      intro u hu
      have hut : u ≠ t := fun he => hnd'.1 (he ▸ hu)
      exact hwakes.mem_of_mem (q := .sleep) hut (hrest u hu)

theorem avoids_schedule (h : Placed k none new) : Avoids unblockPanic (schedule k) := by
  refine (avoids_wakeSleepers _ h (h.nodup .sleep) fun _ ht => ht).bind fun k₁ _ => ?_
  refine Avoids.bind ?_ fun _ _ => ?_
  · unfold nextThreadToRun
    refine .ite (fun _ => .of_ok) fun _ => ?_
    split
    · exact .of_ok
    · exact .of_ne (by simp)
  · refine (avoids_assert (by simp)).bind fun _ _ => ?_
    exact (avoids_assert (by simp)).bind fun _ _ => .of_ok

/-- `thread_block` unblocks sleepers only, which are blocked. -/
theorem avoids_threadBlock {k₁ : Kernel} {dst : Option QueueRef}
    (h : Placed k (some k.current) new) (hq : Queued k k₁ dst) :
    Avoids unblockPanic (threadBlock k₁) := by
  refine (avoids_assert (by simp)).bind fun _ _ => ?_
  refine (avoids_threadCurrent k₁).bind fun c hc => ?_
  obtain ⟨_, _, rfl⟩ := threadCurrent_eq_ok.mp hc
  exact avoids_schedule (h.leave hq.leaves)

/-- `thread_yield` unblocks sleepers only, which are blocked. -/
theorem avoids_threadYield (h : Placed k (some k.current) new) :
    Avoids unblockPanic (threadYield k) := by
  refine (avoids_threadCurrent k).bind fun c hc => ?_
  obtain ⟨_, _, rfl⟩ := threadCurrent_eq_ok.mp hc
  refine (avoids_assert (by simp)).bind fun _ _ => ?_
  exact avoids_schedule (h.leave (leaves_requeue k))

/-- So does `sema_down`, which blocks the caller. -/
theorem avoids_semaDownLoop {s : SemaRef} {m : Option LockRef}
    (h : Placed k (some k.current) new) (hi : k.current ≠ k.idleThread) :
    Avoids unblockPanic (semaDownLoop s m k) :=
  .ite (fun _ => avoids_threadBlock h (queued_semaEnqueue s m k hi)) fun _ => .of_ok

/-- `sema_up` unblocks a waiter, which is blocked. -/
theorem avoids_semaUpInternal {s : SemaRef} {m : Option LockRef}
    (h : Placed k (some k.current) new) : Avoids unblockPanic (semaUpInternal s m k) := by
  refine Avoids.bind ?_ fun k₁ hw => ?_
  · refine .ite (fun _ => .of_ok) fun _ => ?_
    split
    next => exact .of_ne (by simp)
    next top htop =>
      refine (avoids_threadUnblock ?_).bind fun _ _ => .of_ok
      have hmem : top ∈ k.queue (.sema s) := (scanMax_spec htop).1.mem
      exact (h.queued hmem).2
  · obtain ⟨h₁, _⟩ := h.of_semaWake hw
    exact avoids_threadYield (h₁.keep (semaIncrement s k₁) rfl rfl rfl
      (queue_of_eq rfl rfl (setSema_waiters k₁ s · _ rfl)) fun _ => ⟨rfl, rfl⟩).1

theorem avoids_lockHeld (l : LockRef) (k : Kernel) :
    Avoids unblockPanic (lockHeldByCurrentThread l k) :=
  (avoids_threadCurrent k).bind fun _ _ => .of_ok

/-- A donation unblocks nobody. -/
theorem avoids_donate {cur : ThreadRef} : ∀ (fuel : Nat) (l : Option LockRef) (k : Kernel),
    Avoids unblockPanic (donate cur fuel l k)
  | 0, none, k => .of_ok
  | fuel + 1, none, k => .of_ok
  | 0, some l, k => .of_ne (by simp)
  | fuel + 1, some l, k => by
    unfold donate
    split
    next => exact .of_ok
    next =>
      refine .ite (fun _ => .of_ne (by simp)) fun _ => ?_
      exact .ite (fun _ => avoids_donate fuel _ _) fun _ => .of_ne (by simp)

/-- A tick unblocks nobody. -/
theorem avoids_timerInterrupt (h : Placed k (some k.current) new) :
    Avoids unblockPanic (timerInterrupt k) := by
  refine (avoids_assert (by simp)).bind fun _ _ => ?_
  refine (avoids_threadCurrent k).bind fun _ _ => ?_
  refine .ite (fun _ => ?_) fun _ => .of_ok
  exact avoids_threadYield (h.keep_of_eq (threadTick k) rfl rfl rfl rfl
    (queue_of_eq rfl rfl fun _ => rfl)).1

/-- No frame makes the assertion in `thread_unblock` fail. -/
theorem avoids_exec (h : Placed k (some k.current) new) (hr : Runs k f new) :
    Avoids unblockPanic (exec page k f) := by
  have hidle : f ≠ .idleBlock → f ≠ .idleHalt → k.current ≠ k.idleThread := by
    intro h₁ h₂ he
    rcases hr.idle he with hf | hf
    · exact h₁ hf
    · exact h₂ hf
  cases f with
  | threadYield => exact avoids_threadYield h
  | threadYieldForSeconds e =>
    refine (avoids_threadCurrent k).bind fun c hc => ?_
    obtain ⟨_, _, rfl⟩ := threadCurrent_eq_ok.mp hc
    refine (avoids_assert (by simp)).bind fun _ _ => ?_
    exact avoids_threadBlock h (queued_sleep k e (hidle (by simp) (by simp)))
  | timerSleep n => exact .of_ok
  | threadSetPriority p =>
    refine (avoids_threadCurrent k).bind fun c hc => ?_
    obtain ⟨_, _, rfl⟩ := threadCurrent_eq_ok.mp hc
    exact avoids_threadYield (h.keep (k.modThread k.current fun th => { th with
      priority := newPriority (k.threads k.current) p, basePriority := p })
      rfl rfl rfl (queue_of_eq rfl rfl fun _ => rfl)
      (modThread_placed k k.current _ (fun _ => rfl) fun _ => rfl)).1
  | threadExit =>
    refine (avoids_assert (by simp)).bind fun _ _ => ?_
    refine (avoids_threadCurrent k).bind fun c hc => ?_
    obtain ⟨_, _, rfl⟩ := threadCurrent_eq_ok.mp hc
    exact avoids_schedule (h.leave (leaves_exit k (hidle (by simp) (by simp))))
  | threadCreate p => exact .of_ok
  | bitmapScanAndFlip p =>
    cases page with
    | none => exact .of_ok
    | some t => exact .ite (fun _ => .of_ne (by simp)) fun _ => .of_ok
  | initThread t p =>
    refine Avoids.bind ?_ fun _ _ => .of_ok
    exact (avoids_assert (by simp)).bind fun _ _ => .of_ok
  | allocateTid t => exact .of_ok
  | threadUnblock t tid =>
    refine avoids_threadUnblock ?_
    rw [Kernel.modThread_self]
    exact (h.created (hr.unblock rfl)).2.1
  | semaInit s v => exact .ite (fun _ => .of_ok) fun _ => .of_ne (by simp)
  | semaDown s =>
    refine (avoids_assert (by simp)).bind fun _ _ => ?_
    refine (avoids_threadCurrent k).bind fun _ _ => ?_
    exact avoids_semaDownLoop h (hidle (by simp) (by simp))
  | semaDownLoop s m =>
    cases m with
    | none => exact avoids_semaDownLoop h (hidle (by simp) (by simp))
    | some l =>
      have hset := (h.keep (k.setWaitingLock k.current none)
        rfl rfl rfl (queue_of_eq rfl rfl fun _ => rfl)
        (modThread_placed k k.current _ (fun _ => rfl) fun _ => rfl)).1
      exact avoids_semaDownLoop hset (hidle (by simp) (by simp))
  | semaTryDown s => exact .of_ok
  | semaUp s => exact avoids_semaUpInternal h
  | lockInit l => exact .ite (fun _ => .of_ok) fun _ => .of_ne (by simp)
  | lockAcquire l =>
    refine (avoids_assert (by simp)).bind fun _ _ => ?_
    refine (avoids_lockHeld l k).bind fun _ _ => ?_
    refine (avoids_assert (by simp)).bind fun _ _ => ?_
    refine (avoids_threadCurrent k).bind fun c hc => ?_
    refine (avoids_donate _ _ _).bind fun k₁ h₁ => ?_
    have hraised := donate_raised _ h₁
    obtain ⟨hp₁, hk₁⟩ := h.of_raised hraised
    refine (avoids_assert (by simp)).bind fun _ _ => ?_
    refine (avoids_threadCurrent k₁).bind fun _ _ => ?_
    refine avoids_semaDownLoop hp₁ ?_
    rw [hk₁.current, hraised.rest]
    exact hidle (by simp) (by simp)
  | lockTryAcquire l =>
    refine (avoids_lockHeld _ k).bind fun _ _ => ?_
    exact (avoids_assert (by simp)).bind fun _ _ => .of_ok
  | lockTryAcquired l => exact (avoids_threadCurrent k).bind fun _ _ => .of_ok
  | lockRelease l =>
    refine (avoids_lockHeld _ k).bind fun _ _ => ?_
    refine (avoids_assert (by simp)).bind fun _ _ => ?_
    refine (avoids_threadCurrent k).bind fun _ _ => ?_
    exact avoids_semaUpInternal (h.keep (lockReleased l k) rfl rfl rfl
      (queue_of_eq rfl rfl fun _ => rfl) (modThread_placed k k.current (fun th => { th with
        priority := releasePriority l (k.threads k.current) k
        heldLocks := th.heldLocks.filter (· ≠ l) }) (fun _ => rfl) fun _ => rfl)).1
  | condInit c => exact .ite (fun _ => .of_ok) fun _ => .of_ne (by simp)
  | condWait c l =>
    refine (avoids_assert (by simp)).bind fun _ _ => ?_
    refine (avoids_lockHeld _ k).bind fun _ _ => ?_
    exact (avoids_assert (by simp)).bind fun _ _ => .of_ok
  | condPushBack c => exact .of_ok
  | condSignal c l =>
    refine (avoids_assert (by simp)).bind fun _ _ => ?_
    refine (avoids_lockHeld _ k).bind fun _ _ => ?_
    refine (avoids_assert (by simp)).bind fun _ _ => ?_
    refine .ite (fun _ => .of_ok) fun _ => ?_
    split
    · exact .of_ne (by simp)
    · exact .of_ok
  | condBroadcast c l => exact .of_ok
  | idleBlock => exact avoids_threadBlock h (queued_idle k hr.fits)
  | idleHalt => exact .of_ok

/-- In a coherent state no event makes the assertion in `thread_unblock` fail. -/
theorem Coherent.avoids_step (h : Coherent k) (e : Event) : Avoids unblockPanic (step e k) := by
  unfold step
  split
  next prev _ =>
    unfold threadScheduleTail
    cases prev with
    | none => exact .of_ok
    | some p =>
      refine .ite (fun _ => ?_) fun _ => .of_ok
      refine (avoids_assert (by simp)).bind fun _ _ => ?_
      exact (avoids_assert (by simp)).bind fun _ _ => .of_ok
  next => exact .of_ok
  next page f rest _ hf => exact avoids_exec (h.placed.setFrames k.current rest) (h.runs hf)
  next => exact avoids_timerInterrupt h.placed
  next => exact .ite (fun _ => .of_ne (by simp)) fun _ => avoids_timerInterrupt h.placed
  next => exact .of_ne (by simp)

/-! ## Pages -/

/-- A page in use is freed by the tail of the switch from its thread, and by nothing else. -/
theorem Coherent.freed {e : Event} {t : ThreadRef} (h : Coherent k) (hx : step e k = .ok k')
    (hu : k.usedMap t = true) (hf : k'.usedMap t = false) :
    e = .tail ∧ k.scheduleTail = some (some t) ∧ (k.threads t).magic = true ∧
      (k.threads t).status = .dying ∧ t ≠ k.initialThread := by
  obtain ⟨prev, rfl, ht, hx⟩ | ⟨c, _, hn, _, rfl⟩ | ⟨page, f, rest, _, hn, hfr, hx⟩ |
    ⟨_, hn, hx, _⟩ := step_eq_ok hx
  · obtain ⟨rfl, _⟩ | ⟨p, rfl, hd, hini, hne, _, rfl⟩ := threadScheduleTail_eq_ok hx
    · have hf' : k.usedMap t = false := hf
      rw [hu] at hf'
      cases hf'
    · have hf' : Function.update k.usedMap p false t = false := hf
      have htp : t = p := by
        by_contra hne
        rw [Function.update_of_ne hne, hu] at hf'
        cases hf'
      subst htp
      refine ⟨rfl, ht, (h.switching ht).2.2.2 t rfl, ?_, hini⟩
      have hstatus : ((k.setStatus k.current .running).threads t).status = .dying := hd
      rw [Kernel.setStatus, Kernel.modThread_ne _ _ (show t ≠ k.current from hne)] at hstatus
      exact hstatus
  · have hf' : k.usedMap t = false := hf
    rw [hu] at hf'
    cases hf'
  · have hfit := (h.runs hfr).fits
    rw [(exec_vital hx hfit).used t hu] at hf
    cases hf
  · have hquiet : Quiet k k' := by
      have htick : Quiet k (threadTick k) := .of_eq rfl rfl rfl rfl rfl
      rcases timerInterrupt_eq_ok hx with rfl | hy
      · exact htick
      · exact htick.trans (quiet_threadYield hy)
    rw [hquiet.usedMap, hu] at hf
    cases hf

/-- The initial thread is the same for ever. -/
theorem step_initialThread {e : Event} (h : Coherent k) (hx : step e k = .ok k') :
    k'.initialThread = k.initialThread := by
  obtain ⟨prev, rfl, ht, hx⟩ | ⟨c, _, hn, _, rfl⟩ | ⟨page, f, rest, _, hn, hfr, hx⟩ |
    ⟨_, hn, hx, _⟩ := step_eq_ok hx
  · obtain ⟨rfl, _⟩ | ⟨p, rfl, _, _, _, _, rfl⟩ := threadScheduleTail_eq_ok hx
    · rfl
    · rfl
  · rfl
  · exact (exec_vital hx (h.runs hfr).fits).initialThread
  · rcases timerInterrupt_eq_ok hx with rfl | hy
    · rfl
    · exact (quiet_threadYield hy).initialThread

/-- In the middle of a switch only the tail can happen, and it does. -/
theorem Coherent.tail_frees {t : ThreadRef} (h : Coherent k)
    (ht : k.scheduleTail = some (some t)) (hd : (k.threads t).status = .dying)
    (hi : t ≠ k.initialThread) :
    (∃ k', step .tail k = .ok k') ∧ ∀ e k', step e k = .ok k' →
      e = .tail ∧ k'.usedMap t = false ∧ (k'.threads t).magic = false := by
  have hmagic := (h.switching ht).2.2.2 t rfl
  have hne : t ≠ k.current := fun he => (h.switching ht).2.1 (congrArg some he)
  have hstatus : ((k.setStatus k.current .running).threads t).status = .dying := by
    rw [Kernel.setStatus, Kernel.modThread_ne _ _ hne]
    exact hd
  have hused : k.usedMap t = true := h.framed.used t hmagic
  constructor
  · have hstep : step .tail k = threadScheduleTail (some t) { k with scheduleTail := none } := by
      unfold step
      rw [ht]
    rw [hstep]
    unfold threadScheduleTail
    dsimp only
    rw [if_pos ⟨hstatus, hi⟩]
    exact ⟨_, bind_eq_ok.mpr ⟨(), assert_eq_ok.mpr hne,
      bind_eq_ok.mpr ⟨(), assert_eq_ok.mpr hused, rfl⟩⟩⟩
  · intro e k' hx
    obtain ⟨prev, rfl, ht', hx⟩ | ⟨_, _, hn, _⟩ | ⟨_, _, _, _, hn, _⟩ | ⟨_, hn, _⟩ := step_eq_ok hx
    · rw [ht] at ht'
      cases ht'
      obtain ⟨_, hkeep⟩ | ⟨p, hp, _, _, _, _, rfl⟩ := threadScheduleTail_eq_ok hx
      · exact absurd (hkeep t rfl hstatus) hi
      · cases hp
        exact ⟨rfl, by simp [Kernel.modThread], by simp⟩
    · rw [ht] at hn
      cases hn
    · rw [ht] at hn
      cases hn
    · rw [ht] at hn
      cases hn

/-! ## The whole discipline -/

/-- A live thread: its `magic` is in place. -/
def Kernel.Live (k : Kernel) (t : ThreadRef) : Prop := (k.threads t).magic = true

/-- The thread is the one a switch under way has chosen, and is not RUNNING yet. -/
def Kernel.Chosen (k : Kernel) (t : ThreadRef) : Prop := k.scheduleTail ≠ none ∧ t = k.current

/-- A thread on one list is there once, and on no other. -/
theorem count_eq_one {q : QueueRef} {t : ThreadRef} {cpu : Option ThreadRef}
    (h : Placed k cpu new) (hm : t ∈ k.queue q) :
    (k.queue q).count t = 1 ∧ ∀ q', q' ≠ q → t ∉ k.queue q' :=
  ⟨List.count_eq_one_of_mem (h.nodup q) hm, fun _ hne hm' => hne (h.once hm' hm)⟩

/-- Queue membership and thread status agree in every state reached from `thread_start`:
one thread is RUNNING whenever no switch is under way; a READY thread is in `ready_list` once
and nowhere else; a BLOCKED thread is in one wait queue, once; a DYING thread is in no queue
and not on the CPU, and, if it is not the initial thread, still has its page while the next
event, which is another thread's, frees it; no other page is ever freed; and the assertion in
`thread_unblock` never fails. -/
theorem queue_membership (b : Boot) (k : Kernel)
    (h : Reach (Steps step) (afterThreadStart b) k) :
    (k.scheduleTail = none → ∃! t, k.Live t ∧ (k.threads t).status = .running) ∧
    (∀ t, k.Live t → (k.threads t).status = .ready → t ≠ k.idleThread → ¬ k.Chosen t →
      k.readyList.count t = 1 ∧ ∀ q, q ≠ .ready → t ∉ k.queue q) ∧
    (∀ t, k.Live t → (k.threads t).status = .blocked → t ≠ k.idleThread → ¬ k.New t →
      ∃ q, q ≠ .ready ∧ (k.queue q).count t = 1 ∧ ∀ q', q' ≠ q → t ∉ k.queue q') ∧
    (∀ t, k.Live t → (k.threads t).status = .dying → (∀ q, t ∉ k.queue q) ∧ t ≠ k.current ∧
      (t ≠ k.initialThread → k.usedMap t = true ∧ (∃ k', step .tail k = .ok k') ∧
        ∀ e k', step e k = .ok k' → k'.usedMap t = false ∧ ¬ k'.Live t)) ∧
    (∀ e k' t, step e k = .ok k' → k.usedMap t = true → k'.usedMap t = false →
      k.Live t ∧ (k.threads t).status = .dying ∧ t ≠ k.current) ∧
    ∀ e, step e k ≠ .error (.panic .unblockBlocked) := by
  have hk := reach_coherent h
  refine ⟨fun hn => ?_, fun t hl hs hi hc => ?_, fun t hl hs hi hnew => ?_,
    fun t hl hs => ⟨fun q hm => ?_, fun he => ?_, fun hi => ?_⟩, fun e k' t hx hu hf => ?_,
    fun e => hk.avoids_step e⟩
  · refine ⟨k.current, ⟨(hk.placed.cpuLive rfl).1, hk.running hn⟩, fun t ht => ?_⟩
    exact (Option.some.inj (hk.placed.running ht.1 ht.2)).symm
  · have hcpu : some k.current ≠ some t := fun he => by
      have hcur := Option.some.inj he
      refine hc ⟨fun hn => ?_, hcur.symm⟩
      rw [← hcur, hk.running hn] at hs
      cases hs
    exact count_eq_one (q := .ready) hk.placed (hk.placed.ready hl hs hi hcpu)
  · have hcpu : some k.current ≠ some t := fun he => by
      have hcur := Option.some.inj he
      cases htail : k.scheduleTail with
      | none =>
        rw [← hcur, hk.running htail] at hs
        cases hs
      | some prev =>
        rcases (hk.switching htail).2.2.1 with hidle | hready
        · exact hi (hcur.symm.trans hidle)
        · rw [← hcur, hready] at hs
          cases hs
    obtain ⟨q, hne, hm⟩ := hk.placed.blocked hl hs hi hcpu hnew
    exact ⟨q, hne, count_eq_one hk.placed hm⟩
  · have hq := (hk.placed.queued hm).2
    rw [hs] at hq
    cases q <;> cases hq
  · exact (hk.placed.cpuLive rfl).2.1 (he ▸ hs)
  · obtain ⟨hex, hall⟩ := hk.tail_frees (hk.dying hl hs hi) hs hi
    refine ⟨hk.framed.used t hl, hex, fun e k' hx => ?_⟩
    obtain ⟨_, hfree, hdead⟩ := hall e k' hx
    refine ⟨hfree, fun hlive => ?_⟩
    unfold Kernel.Live at hlive
    rw [hdead] at hlive
    cases hlive
  · obtain ⟨_, ht, hl, hd, _⟩ := hk.freed hx hu hf
    exact ⟨hl, hd, fun he => (hk.switching ht).2.1 (congrArg some he)⟩

/-- A small machine: pages 0 and 1 hold `main` and the idle thread, the others are free. -/
def smallBoot : Boot where
  main := 0
  idle := 1
  main_ne_idle := by decide
  usedMap := fun t => decide (t < 2)
  main_used := by decide
  idle_used := by decide
  value := fun _ => 0
  value_lt := fun _ => by decide
  ticks := 0
  ticks_nonneg := by decide

/-- The page of the initial thread is never freed. -/
theorem initial_page_kept {b : Boot} {k k' : Kernel}
    (h : Reach (Steps step) (afterThreadStart b) k) (h' : Reach (Steps step) k k')
    (hu : k.usedMap k.initialThread = true) :
    Coherent k' ∧ k'.initialThread = k.initialThread ∧ k'.usedMap k.initialThread = true := by
  refine h'.invariant (P := fun k₁ => Coherent k₁ ∧ k₁.initialThread = k.initialThread ∧
    k₁.usedMap k.initialThread = true) ⟨reach_coherent h, rfl, hu⟩ ?_
  rintro k₁ e k₂ ⟨hk, hi, hu⟩ hx
  refine ⟨hk.of_step hx, ?_, ?_⟩
  · exact (step_initialThread hk hx).trans hi
  · by_contra hfree
    obtain ⟨_, _, _, _, hne⟩ := hk.freed hx hu (by simpa using hfree)
    exact hne hi.symm

/-- `main` calls `thread_exit`: it is DYING, the idle thread is running, and no matter what
happens then the page of `main` stays allocated. -/
theorem initial_thread_page_never_freed :
    ∃ k, Reach (Steps step) (afterThreadStart smallBoot) k ∧ k.scheduleTail = none ∧
      k.Live 0 ∧ (k.threads 0).status = .dying ∧ k.current = 1 ∧
      ∀ k', Reach (Steps step) k k' → k'.usedMap 0 = true := by
  obtain ⟨k, hr, hp⟩ := exists_of_replay step (fun _ _ => true)
    [.call .threadExit, .run none, .tail] (afterThreadStart smallBoot)
    (fun k => k.scheduleTail.isNone && (k.threads 0).magic && (k.threads 0).status == .dying &&
      k.current == 1 && k.usedMap 0 && k.initialThread == 0) (by decide)
  simp only [Bool.and_eq_true, beq_iff_eq, Option.isNone_iff_eq_none] at hp
  obtain ⟨⟨⟨⟨⟨htail, hlive⟩, hdying⟩, hcur⟩, hused⟩, hinit⟩ := hp
  have hreach : Reach (Steps step) (afterThreadStart smallBoot) k := hr.reach
  refine ⟨k, hreach, htail, hlive, hdying, hcur, fun k' h' => ?_⟩
  have hkept := (initial_page_kept hreach h' (hinit.symm ▸ hused)).2.2
  rw [hinit] at hkept
  exact hkept

/-- In the middle of the switch from an exiting `main`, `main` is in no queue. -/
theorem exiting_main_in_no_queue :
    ∃ k, Reach (Steps step) (afterThreadStart smallBoot) k ∧ k.Live 0 ∧
      (k.threads 0).status = .dying ∧ ∀ q, 0 ∉ k.queue q := by
  obtain ⟨k, hr, hp⟩ := exists_of_replay step (fun _ _ => true)
    [.call .threadExit, .run none] (afterThreadStart smallBoot)
    (fun k => (k.threads 0).magic && (k.threads 0).status == .dying) (by decide)
  simp only [Bool.and_eq_true, beq_iff_eq] at hp
  exact ⟨k, hr.reach, hp.1, hp.2,
    ((queue_membership smallBoot k hr.reach).2.2.2.1 0 hp.1 hp.2).1⟩

end Pintos.Threads
