import Pintos.Threads.Queues
import Pintos.Threads.Framed

/-!
# Every event keeps queues and status in agreement

`Queues` has the laws for one move of one thread. Here each function of the kernel is read as
such moves, and each event of the machine is shown to keep the whole discipline: `Coherent`
is what holds between any two events, in the middle of a switch included. There the thread
switched to is on the CPU but not yet RUNNING, and the thread switched from has its new
status and, if it is DYING, still its page.
-/

namespace Pintos.Threads

open Pintos.Lib

variable {page : Option ThreadRef} {k k₁ k' : Kernel} {f : Frame}
  {new : ThreadRef → Prop}

/-! ## On and off the CPU -/

/-- The running thread goes on running. -/
structure Kept (k k' : Kernel) : Prop where
  current : k'.current = k.current
  scheduleTail : k'.scheduleTail = k.scheduleTail
  status : (k'.threads k'.current).status = (k.threads k.current).status

/-- A switch from the thread `c` is under way. -/
structure Switched (c : ThreadRef) (k' : Kernel) : Prop where
  scheduleTail : k'.scheduleTail = some (if c ≠ k'.current then some c else none)
  status : (k'.threads k'.current).status ≠ .running
  chosen : k'.current = k'.idleThread ∨ (k'.threads k'.current).status = .ready

/-- Where a switch stands once `schedule` has chosen a thread. -/
theorem Placed.switched (hleft : Placed k₁ none new) (hs : schedule k₁ = .ok k') :
    Switched k₁.current k' := by
  obtain ⟨k₂, k₃, next, hwake, hnext, _, hmagic, rfl⟩ := schedule_eq_ok hs
  have h₂ := Placed.of_wakeSleepers k₁.sleepList hleft (hleft.nodup .sleep) (fun _ ht => ht) hwake
  refine ⟨rfl, fun hrun => ?_, ?_⟩
  · have hrun₂ : (k₂.threads next).magic = true ∧ (k₂.threads next).status = .running := by
      obtain ⟨_, _, rfl⟩ | ⟨_, rfl⟩ := nextThreadToRun_eq_ok hnext
      · exact ⟨hmagic, hrun⟩
      · exact ⟨hmagic, hrun⟩
    cases h₂.running hrun₂.1 hrun₂.2
  · obtain ⟨_, hi, rfl⟩ | ⟨hmax, rfl⟩ := nextThreadToRun_eq_ok hnext
    · exact .inl hi
    · have hmem : next ∈ k₂.queue .ready := hmax.mem
      exact .inr (h₂.queued hmem).2

/-- The caller has left the CPU and `schedule` has chosen a thread. -/
theorem Placed.switch (h : Placed k (some k.current) new) (s : ThreadStatus)
    (dst : Option QueueRef) (hs : schedule k₁ = .ok k')
    (hl : Leaves k k₁ k.current s dst) (hc : k₁.current = k.current) :
    Placed k' (some k'.current) new ∧ Switched k.current k' :=
  ⟨(h.leave hl).of_schedule hs, hc ▸ (h.leave hl).switched hs⟩

/-- The running thread leaves for the ready list, if it is not the idle one. -/
theorem leaves_requeue (k : Kernel) :
    Leaves k k.requeue k.current .ready
      (if k.current ≠ k.idleThread then some .ready else none) := by
  unfold Kernel.requeue
  by_cases hi : k.current = k.idleThread
  · simp only [hi, ne_eq, not_true_eq_false, if_false]
    refine ⟨fun q => ?_, rfl, ?_, fun t ht => ?_, by simp, by simp, by simp⟩
    · cases q <;> rfl
    · simp [Kernel.setStatus]
    · simp [Kernel.setStatus, Kernel.modThread_ne _ _ ht]
  · simp only [hi, ne_eq, not_false_eq_true, if_true]
    refine ⟨fun q => ?_, rfl, ?_, fun t ht => ?_, by simp, ?_, by simp⟩
    · cases q <;> simp [Kernel.queue, Kernel.setStatus, Kernel.modThread, Kernel.pushReady]
    · simp [Kernel.setStatus, Kernel.pushReady]
    · simp [Kernel.setStatus, Kernel.modThread_ne _ _ ht, Kernel.pushReady]
    · rintro q hq
      cases hq
      exact ⟨rfl, hi⟩

/-- `thread_yield`. -/
theorem Placed.of_threadYield (h : Placed k (some k.current) new)
    (hy : threadYield k = .ok k') :
    Placed k' (some k'.current) new ∧ Switched k.current k' := by
  have hc : k.requeue.current = k.current := by
    unfold Kernel.requeue
    split <;> rfl
  exact h.switch _ _ (threadYield_eq_ok hy).2.2 (leaves_requeue k) hc

/-- `k₁` is `k` with the caller of `thread_block` appended to the queue it will wait in; the
idle thread waits in none. -/
structure Queued (k k₁ : Kernel) (dst : Option QueueRef) : Prop where
  current : k₁.current = k.current
  idleThread : k₁.idleThread = k.idleThread
  queue : ∀ q, k₁.queue q = if dst = some q then k.queue q ++ [k.current] else k.queue q
  threads : ∀ t, (k₁.threads t).magic = (k.threads t).magic ∧
    (k₁.threads t).status = (k.threads t).status
  target : (∃ q, dst = some q ∧ q ≠ .ready ∧ k.current ≠ k.idleThread) ∨
    (dst = none ∧ k.current = k.idleThread)

/-- Who blocks has its place before it leaves. -/
theorem Queued.leaves {dst : Option QueueRef} (h : Queued k k₁ dst) :
    Leaves k (k₁.setStatus k₁.current .blocked) k.current .blocked dst := by
  refine ⟨fun q => ?_, h.idleThread, ?_, fun t hne => ?_, by simp, fun q hd => ?_, fun hd => ?_⟩
  · rw [← h.queue q]
    cases q <;> rfl
  · rw [h.current]
    simpa [Kernel.setStatus] using (h.threads k.current).1
  · rw [h.current, Kernel.setStatus, Kernel.modThread_ne _ _ hne]
    exact h.threads t
  · rcases h.target with ⟨q', hq', hne, hi⟩ | ⟨hn, _⟩
    · rw [hd] at hq'
      cases hq'
      refine ⟨?_, hi⟩
      cases q with
      | ready => exact absurd rfl hne
      | sleep => rfl
      | sema s => rfl
    · rw [hd] at hn
      cases hn
  · rcases h.target with ⟨q', hq', _⟩ | ⟨_, hi⟩
    · rw [hd] at hq'
      cases hq'
    · exact .inr ⟨by simp, hi⟩

/-- `thread_block`. -/
theorem Placed.of_threadBlock {dst : Option QueueRef} (h : Placed k (some k.current) new)
    (hq : Queued k k₁ dst) (hb : threadBlock k₁ = .ok k') :
    Placed k' (some k'.current) new ∧ Switched k.current k' :=
  h.switch _ _ (threadBlock_eq_ok hb).2.2 hq.leaves hq.current

/-- A change that concerns neither queues nor status. -/
theorem Placed.keep (h : Placed k (some k.current) new) (k' : Kernel) (hc : k'.current = k.current)
    (htail : k'.scheduleTail = k.scheduleTail) (hidle : k'.idleThread = k.idleThread)
    (hq : ∀ q, k'.queue q = k.queue q)
    (ht : ∀ t, (k'.threads t).magic = (k.threads t).magic ∧
      (k'.threads t).status = (k.threads t).status) :
    Placed k' (some k'.current) new ∧ Kept k k' := by
  refine ⟨?_, hc, htail, ?_⟩
  · rw [hc]
    exact h.congr hq hidle ht
  · rw [hc]
    exact (ht k.current).2

/-- `pushFrames` and other updates of what `Placed` does not read. -/
theorem modThread_placed (k : Kernel) (t : ThreadRef) (f : Thread → Thread)
    (hm : ∀ th, (f th).magic = th.magic) (hs : ∀ th, (f th).status = th.status)
    (u : ThreadRef) : ((k.modThread t f).threads u).magic = (k.threads u).magic ∧
      ((k.modThread t f).threads u).status = (k.threads u).status := by
  rw [Kernel.modThread_threads]
  split
  next hu => rw [hu, hm, hs]; exact ⟨rfl, rfl⟩
  next => exact ⟨rfl, rfl⟩

/-- A queue is its list. -/
theorem queue_of_eq (hr : k'.readyList = k.readyList) (hs : k'.sleepList = k.sleepList)
    (hw : ∀ s, (k'.semas s).waiters = (k.semas s).waiters) (q : QueueRef) :
    k'.queue q = k.queue q := by
  cases q with
  | ready => exact hr
  | sleep => exact hs
  | sema s => exact hw s

/-- A semaphore that keeps its waiters is the same queue. -/
theorem setSema_waiters (k : Kernel) (s s' : SemaRef) (v : Semaphore)
    (h : v.waiters = (k.semas s).waiters) :
    ((k.setSema s v).semas s').waiters = (k.semas s').waiters := by
  unfold Kernel.setSema
  by_cases hs : s' = s
  · subst hs
    simpa using h
  · simp [hs]

/-! ## The functions that block, wake and create -/

/-- `thread_yield_for_seconds` puts its caller on `sleep_list`. -/
theorem queued_sleep (k : Kernel) (e : Int) (hi : k.current ≠ k.idleThread) :
    Queued k ({ k with sleepList := k.sleepList ++ [k.current] }.modThread k.current
      fun th => { th with endTick := e }) (some .sleep) := by
  refine ⟨rfl, rfl, fun q => by cases q <;> rfl, ?_, .inl ⟨_, rfl, by simp, hi⟩⟩
  exact modThread_placed k k.current (fun th => { th with endTick := e }) (fun _ => rfl)
    fun _ => rfl

/-- `thread_exit` leaves every queue alone. -/
theorem leaves_exit (k : Kernel) (hi : k.current ≠ k.idleThread) :
    Leaves k ({ k with allList := k.allList.erase k.current }.setStatus k.current .dying)
      k.current .dying none := by
  refine ⟨fun q => by cases q <;> rfl, rfl, by simp [Kernel.setStatus], fun t ht => ?_,
    by simp, by simp, fun _ => .inl ⟨rfl, hi⟩⟩
  simp [Kernel.setStatus, Kernel.modThread_ne _ _ ht]

/-- The idle thread blocks on no list. -/
theorem queued_idle (k : Kernel) (hi : k.current = k.idleThread) :
    Queued k (k.pushFrames k.current [.idleHalt]) none := by
  refine ⟨rfl, rfl, fun q => by cases q <;> rfl, ?_, .inr ⟨rfl, hi⟩⟩
  exact modThread_placed k k.current (fun th => { th with frames := [.idleHalt] ++ th.frames })
    (fun _ => rfl) fun _ => rfl

/-- Who waits is the last of the waiters. -/
theorem semaEnqueue_semas (s : SemaRef) (m : Option LockRef) (k : Kernel) :
    (semaEnqueue s m k).semas = Function.update k.semas s
      { k.semas s with waiters := (k.semas s).waiters ++ [k.current] } := by
  cases m <;> rfl

/-- The loop of `sema_down_internal` puts its caller on the waiters of the semaphore. -/
theorem queued_semaEnqueue (s : SemaRef) (m : Option LockRef) (k : Kernel)
    (hi : k.current ≠ k.idleThread) : Queued k (semaEnqueue s m k) (some (.sema s)) := by
  refine ⟨by cases m <;> rfl, by cases m <;> rfl, fun q => ?_, fun t => ?_,
    .inl ⟨_, rfl, by simp, hi⟩⟩
  · cases q with
    | ready => cases m <;> rfl
    | sleep => cases m <;> rfl
    | sema s' =>
      simp only [Kernel.queue, semaEnqueue_semas]
      by_cases hs : s' = s
      · subst hs
        simp
      · have hs' : s ≠ s' := fun h => hs h.symm
        simp [hs, hs']
  · by_cases ht : t = k.current
    · subst ht
      cases m <;>
        simp [semaEnqueue, Kernel.pushFrames, Kernel.setWaitingLock, updateLockMaxPriority,
          Kernel.setLock, Kernel.setSema, Kernel.modThread]
    · cases m <;>
        simp [semaEnqueue, Kernel.pushFrames, Kernel.setWaitingLock, updateLockMaxPriority,
          Kernel.setLock, Kernel.setSema, Kernel.modThread, ht]

/-- The loop of `sema_down_internal`: the caller joins the waiters, or takes a unit. -/
theorem Placed.of_semaDownLoop {s : SemaRef} {m : Option LockRef}
    (h : Placed k (some k.current) new) (hi : k.current ≠ k.idleThread)
    (hd : semaDownLoop s m k = .ok k') :
    Placed k' (some k'.current) new ∧ (Kept k k' ∨ Switched k.current k') := by
  obtain ⟨_, hb⟩ | ⟨_, rfl⟩ := semaDownLoop_eq_ok hd
  · obtain ⟨hp, hsw⟩ := h.of_threadBlock (queued_semaEnqueue s m k hi) hb
    exact ⟨hp, .inr hsw⟩
  · have hkeep : Placed (semaTake s m k) (some (semaTake s m k).current) new ∧
        Kept k (semaTake s m k) := by
      cases m with
      | none =>
        exact h.keep _ rfl rfl rfl (queue_of_eq rfl rfl (setSema_waiters k s · _ rfl))
          fun _ => ⟨rfl, rfl⟩
      | some l =>
        exact h.keep _ rfl rfl rfl (queue_of_eq rfl rfl (setSema_waiters k s · _ rfl))
          (modThread_placed k k.current (fun th => { th with heldLocks := th.heldLocks ++ [l] })
            (fun _ => rfl) fun _ => rfl)
    exact ⟨hkeep.1, .inl hkeep.2⟩

/-- `sema_up_internal` wakes a waiter, if there is one. -/
theorem Placed.of_semaWake {s : SemaRef} {m : Option LockRef}
    (h : Placed k (some k.current) new) (hw : semaWake s m k = .ok k') :
    Placed k' (some k'.current) new ∧ k'.current = k.current := by
  obtain ⟨_, rfl⟩ | ⟨top, k₁, hmax, hu, rfl⟩ := semaWake_eq_ok hw
  · exact ⟨h, rfl⟩
  · obtain ⟨_, _, rfl⟩ := threadUnblock_eq_ok hu
    have hmem : top ∈ k.queue (.sema s) := hmax.mem
    have hwakes : Wakes k (updateIfLock m (((k.setSema s { k.semas s with
        waiters := (k.semas s).waiters.erase top }).pushReady top).setStatus top .ready))
        top (some (.sema s)) := by
      refine ⟨by cases m <;> rfl, fun q hq => ?_, by cases m <;> rfl, ?_, fun u hu => ?_⟩
      · cases q with
        | ready => exact absurd rfl hq
        | sleep => cases m <;> simp [Kernel.queue, updateIfLock, updateLockMaxPriority,
            Kernel.setLock, Kernel.setStatus, Kernel.modThread, Kernel.pushReady, Kernel.setSema]
        | sema s' =>
          by_cases hs : s' = s
          · subst hs
            cases m <;> simp [Kernel.queue, updateIfLock, updateLockMaxPriority,
              Kernel.setLock, Kernel.setStatus, Kernel.modThread, Kernel.pushReady,
              Kernel.setSema]
          · have hs' : s ≠ s' := fun h => hs h.symm
            cases m <;> simp [Kernel.queue, updateIfLock, updateLockMaxPriority,
              Kernel.setLock, Kernel.setStatus, Kernel.modThread, Kernel.pushReady,
              Kernel.setSema, hs, hs']
      · cases m <;> simp [updateIfLock, updateLockMaxPriority, Kernel.setLock,
          Kernel.setStatus, Kernel.modThread, Kernel.pushReady, Kernel.setSema]
      · cases m <;> simp [updateIfLock, updateLockMaxPriority, Kernel.setLock,
          Kernel.setStatus, Kernel.modThread, Kernel.pushReady, Kernel.setSema, hu]
    have hcur : (updateIfLock m (((k.setSema s { k.semas s with
        waiters := (k.semas s).waiters.erase top }).pushReady top).setStatus top .ready)).current =
          k.current := by cases m <;> rfl
    refine ⟨?_, hcur⟩
    rw [hcur]
    exact h.unblock hwakes (.inl ⟨.sema s, rfl, by simp, hmem, fun _ => Iff.rfl⟩)

/-- `sema_up_internal`. -/
theorem Placed.of_semaUpInternal {s : SemaRef} {m : Option LockRef}
    (h : Placed k (some k.current) new) (hu : semaUpInternal s m k = .ok k') :
    Placed k' (some k'.current) new ∧ Switched k.current k' := by
  obtain ⟨k₁, hw, hy⟩ := semaUpInternal_eq_ok hu
  obtain ⟨h₁, hc⟩ := h.of_semaWake hw
  have hinc := h₁.keep (semaIncrement s k₁) rfl rfl rfl
    (queue_of_eq rfl rfl (setSema_waiters k₁ s · _ rfl)) fun _ => ⟨rfl, rfl⟩
  have hyield := hinc.1.of_threadYield hy
  have hcur : (semaIncrement s k₁).current = k.current := hc
  rw [hcur] at hyield
  exact hyield

/-- `init_thread` on a page that holds no thread: from now on it is a new one. -/
theorem Placed.init {t : ThreadRef} {p : Int} (h : Placed k (some k.current) new)
    (new' : ThreadRef → Prop) (hdead : (k.threads t).magic = false) (hi : initThread t p k = .ok k')
    (hnew' : ∀ u, new' u ↔ new u ∨ u = t) :
    Placed k' (some k'.current) new' := by
  obtain ⟨_, rfl⟩ := initThread_eq_ok hi
  have hcur : k.current ≠ t := fun he => by
    rw [← he, (h.cpuLive rfl).1] at hdead
    cases hdead
  have hidle : k.idleThread ≠ t := fun he => by
    rw [← he, h.idle.1] at hdead
    cases hdead
  have hq : ∀ {q u}, u ∈ k.queue q → u ≠ t := fun {q u} hm he => by
    rw [← he, (h.queued hm).1] at hdead
    cases hdead
  have hqueue : ∀ q, (({ k with allList := k.allList ++ [t] } : Kernel).modThread t fun _ =>
      bootThread 0 p 0 .blocked []).queue q = k.queue q := by
    intro q
    cases q <;> rfl
  have hself : (({ k with allList := k.allList ++ [t] } : Kernel).modThread t fun _ =>
      bootThread 0 p 0 .blocked []).threads t = bootThread 0 p 0 .blocked [] := by
    simp
  have hother : ∀ u, u ≠ t → (({ k with allList := k.allList ++ [t] } : Kernel).modThread t fun _ =>
      bootThread 0 p 0 .blocked []).threads u = k.threads u := by
    intro u hu
    rw [Kernel.modThread_ne _ _ hu]
  constructor
  · intro q
    rw [hqueue]
    exact h.nodup q
  · intro q q' u hm hm'
    rw [hqueue] at hm hm'
    exact h.once hm hm'
  · intro q u hm
    rw [hqueue] at hm
    rw [hother u (hq hm)]
    exact h.queued hm
  · intro q u hm
    rw [hqueue] at hm
    exact h.notIdle hm
  · intro q u hm
    rw [hqueue] at hm
    exact h.notCpu hm
  · intro q u hm hn
    rw [hqueue] at hm
    rcases (hnew' u).mp hn with hn | hn
    · exact h.notNew hm hn
    · exact hq hm hn
  · intro u hm hs hi hc
    by_cases hu : u = t
    · rw [hu, hself] at hs
      cases hs
    · rw [hother u hu] at hm hs
      exact h.ready hm hs hi hc
  · intro u hm hs hi hc hn
    have hu : u ≠ t := fun he => hn ((hnew' u).mpr (.inr he))
    rw [hother u hu] at hm hs
    obtain ⟨q, hne, hmem⟩ := h.blocked hm hs hi hc fun hnu => hn ((hnew' u).mpr (.inl hnu))
    exact ⟨q, hne, (hqueue q).symm ▸ hmem⟩
  · intro u hm hs
    by_cases hu : u = t
    · rw [hu, hself] at hs
      cases hs
    · rw [hother u hu] at hm hs
      exact h.running hm hs
  · intro u hc
    have hu : u = k.current := (Option.some.inj hc).symm
    subst hu
    rw [hother _ hcur]
    obtain ⟨hm, hs, hn⟩ := h.cpuLive rfl
    exact ⟨hm, hs, fun hnu => ((hnew' _).mp hnu).elim hn hcur⟩
  · intro u hn
    by_cases hu : u = t
    · rw [hu, hself]
      exact ⟨rfl, rfl, hidle.symm⟩
    · rw [hother u hu]
      exact h.created (((hnew' u).mp hn).elim id fun he => absurd he hu)
  · have hi := h.idle
    rw [← hother _ hidle] at hi
    exact hi

/-! ## Every frame -/

theorem Placed.push (h : Placed k (some k.current) new) (fs : List Frame) :
    Placed (k.pushFrames k.current fs) (some (k.pushFrames k.current fs).current) new ∧
      Kept k (k.pushFrames k.current fs) :=
  h.keep _ rfl rfl rfl (queue_of_eq rfl rfl fun _ => rfl)
    (modThread_placed k k.current (fun th => { th with frames := fs ++ th.frames })
      (fun _ => rfl) fun _ => rfl)

/-- A change outside threads, queues and the CPU. -/
theorem Placed.keep_of_eq (h : Placed k (some k.current) new) (k' : Kernel)
    (ht : k'.threads = k.threads) (hc : k'.current = k.current) (htail : k'.scheduleTail = k.scheduleTail)
    (hidle : k'.idleThread = k.idleThread) (hq : ∀ q, k'.queue q = k.queue q) :
    Placed k' (some k'.current) new ∧ Kept k k' :=
  h.keep k' hc htail hidle hq fun t => by rw [ht]; exact ⟨rfl, rfl⟩

/-- A donation moves nobody. -/
theorem Placed.of_raised (h : Placed k (some k.current) new) (hr : Raised k k') :
    Placed k' (some k'.current) new ∧ Kept k k' := by
  refine h.keep k' hr.current (by rw [hr.rest]) (by rw [hr.rest]) (fun q => ?_) fun t => ?_
  · exact queue_of_eq (by rw [hr.rest]) (by rw [hr.rest]) (fun s => by rw [hr.semas]) q
  · rw [hr.threads t]
    exact ⟨rfl, rfl⟩

/-- What a frame needs of the state it runs in. -/
structure Runs (k : Kernel) (f : Frame) (new : ThreadRef → Prop) : Prop where
  idle : k.current = k.idleThread → f = .idleBlock ∨ f = .idleHalt
  fits : f.Fits k.idleThread k.current
  waiter : ∀ t ∈ (k.semas (.waiter k.current)).waiters, t = k.current
  init : ∀ {t p}, f = .initThread t p → (k.threads t).magic = false
  unblock : ∀ {t tid}, f = .threadUnblock t tid → new t

/-- Who is being created after a frame. -/
def NewAfter (f : Frame) (new : ThreadRef → Prop) (t : ThreadRef) : Prop :=
  (new t ∧ ∀ tid, f ≠ .threadUnblock t tid) ∨ ∃ p, f = .initThread t p

/-- Only a creation makes a thread new, and only its unblocking ends that. -/
theorem newAfter_iff (hu : ∀ t tid, f ≠ .threadUnblock t tid)
    (hi : ∀ t p, f ≠ .initThread t p) (t : ThreadRef) : NewAfter f new t ↔ new t := by
  constructor
  · rintro (⟨hn, _⟩ | ⟨p, hp⟩)
    · exact hn
    · exact absurd hp (hi t p)
  · exact fun hn => .inl ⟨hn, hu t⟩

/-- Running a frame keeps queues and status in agreement. -/
theorem Placed.exec (h : Placed k (some k.current) new) (hr : Runs k f new)
    (hx : exec page k f = .ok k') :
    Placed k' (some k'.current) (NewAfter f new) ∧ (Kept k k' ∨ Switched k.current k') := by
  -- every frame but two leaves the set of new threads alone
  have same : (∀ t tid, f ≠ .threadUnblock t tid) → (∀ t p, f ≠ .initThread t p) →
      Placed k' (some k'.current) new ∧ (Kept k k' ∨ Switched k.current k') →
      Placed k' (some k'.current) (NewAfter f new) ∧ (Kept k k' ∨ Switched k.current k') :=
    fun hu hi hp => ⟨hp.1.congrNew (newAfter_iff hu hi), hp.2⟩
  have hidle : f ≠ .idleBlock → f ≠ .idleHalt → k.current ≠ k.idleThread := by
    intro h₁ h₂ he
    rcases hr.idle he with hf | hf
    · exact h₁ hf
    · exact h₂ hf
  cases f with
  | threadUnblock t tid =>
    have hnew := hr.unblock rfl
    have hset := (h.keep (k.modThread t fun th => { th with tid := tid, endTick := -1 })
      rfl rfl rfl (queue_of_eq rfl rfl fun _ => rfl)
      (modThread_placed k t _ (fun _ => rfl) fun _ => rfl)).1
    have hwakes := wakes_threadUnblock hx
    obtain ⟨_, _, rfl⟩ := threadUnblock_eq_ok hx
    have hne : k.current ≠ t := fun he => (h.cpuLive rfl).2.2 (he ▸ hnew)
    refine ⟨hset.unblock hwakes (.inr ⟨rfl, hnew, fun u => ?_⟩), .inl ⟨rfl, rfl, ?_⟩⟩
    · simp only [NewAfter, ne_eq, Frame.threadUnblock.injEq, not_and, reduceCtorEq,
        exists_const, or_false]
      refine and_congr_right fun _ => ⟨fun hn he => hn tid he.symm rfl, fun hn _ he => ?_⟩
      exact absurd he.symm hn
    · show (((_ : Kernel).threads k.current)).status = _
      simp [Kernel.setStatus, Kernel.modThread_ne _ _ hne, Kernel.pushReady]
  | initThread t p =>
    obtain ⟨k₁, h₁, hx⟩ := bind_eq_ok.mp hx
    cases hx
    have hdead := hr.init rfl
    have hinit := h.init (NewAfter (.initThread t p) new) hdead h₁ (by
      intro u
      simp only [NewAfter, ne_eq, reduceCtorEq, not_false_eq_true, implies_true, and_true,
        Frame.initThread.injEq, exists_and_left, exists_eq', eq_comm])
    obtain ⟨_, rfl⟩ := initThread_eq_ok h₁
    obtain ⟨hp, hk⟩ := hinit.push [.lockAcquire .tidLock, .allocateTid t]
    refine ⟨hp, .inl ⟨rfl, rfl, hk.status.trans ?_⟩⟩
    have hne : k.current ≠ t := fun he => by
      rw [← he, (h.cpuLive rfl).1] at hdead
      cases hdead
    show (((_ : Kernel).threads k.current)).status = _
    rw [Kernel.modThread_ne _ _ hne]
  | threadYield =>
    obtain ⟨hp, hs⟩ := h.of_threadYield hx
    exact same (by simp) (by simp) ⟨hp, .inr hs⟩
  | threadYieldForSeconds e =>
    obtain ⟨hp, hs⟩ := h.of_threadBlock (queued_sleep k e (hidle (by simp) (by simp)))
      (threadYieldForSeconds_eq_ok hx).2
    exact same (by simp) (by simp) ⟨hp, .inr hs⟩
  | timerSleep n =>
    cases hx
    obtain ⟨hp, hk⟩ := h.push [.threadYieldForSeconds _]
    exact same (by simp) (by simp) ⟨hp, .inl hk⟩
  | threadSetPriority p =>
    have hset := (h.keep (k.modThread k.current fun th => { th with
      priority := newPriority (k.threads k.current) p, basePriority := p })
      rfl rfl rfl (queue_of_eq rfl rfl fun _ => rfl)
      (modThread_placed k k.current _ (fun _ => rfl) fun _ => rfl)).1
    obtain ⟨hp, hs⟩ := hset.of_threadYield (threadSetPriority_eq_ok hx)
    exact same (by simp) (by simp) ⟨hp, .inr hs⟩
  | threadExit =>
    obtain ⟨hp, hs⟩ := h.switch _ _ (threadExit_eq_ok hx)
      (leaves_exit k (hidle (by simp) (by simp))) rfl
    exact same (by simp) (by simp) ⟨hp, .inr hs⟩
  | threadCreate p =>
    cases hx
    obtain ⟨hp, hk⟩ := h.push [.lockAcquire .poolLock, .bitmapScanAndFlip p]
    exact same (by simp) (by simp) ⟨hp, .inl hk⟩
  | bitmapScanAndFlip p =>
    refine same (by simp) (by simp) ?_
    obtain ⟨t, _, rfl⟩ | rfl := bitmapScanAndFlip_eq_ok hx
    · obtain ⟨hp, hk⟩ := (h.keep_of_eq
        ({ k with usedMap := Function.update k.usedMap t true })
        rfl rfl rfl rfl (queue_of_eq rfl rfl fun _ => rfl)).1.push
        [.lockRelease .poolLock, .initThread t p]
      exact ⟨hp, .inl ⟨hk.current, hk.scheduleTail, hk.status⟩⟩
    · obtain ⟨hp, hk⟩ := h.push [.lockRelease .poolLock]
      exact ⟨hp, .inl hk⟩
  | allocateTid t =>
    cases hx
    obtain ⟨hp, hk⟩ := (h.keep_of_eq ({ k with nextTid := k.nextTid + 1 })
      rfl rfl rfl rfl (queue_of_eq rfl rfl fun _ => rfl)).1.push
      [.lockRelease .tidLock, .threadUnblock t k.nextTid, .threadYield]
    exact same (by simp) (by simp) ⟨hp, .inl ⟨hk.current, hk.scheduleTail, hk.status⟩⟩
  | semaInit s v =>
    obtain ⟨hw, rfl⟩ := execSemaInit_eq_ok hx
    obtain ⟨hp, hk⟩ := h.keep_of_eq (semaInit (.plain s) (v % 2 ^ 32) k) rfl rfl rfl rfl
      (queue_of_eq rfl rfl (setSema_waiters k (.plain s) · _ hw.symm))
    exact same (by simp) (by simp) ⟨hp, .inl hk⟩
  | semaDown s =>
    exact same (by simp) (by simp)
      (h.of_semaDownLoop (hidle (by simp) (by simp)) (semaDownInternal_eq_ok hx))
  | semaDownLoop s m =>
    refine same (by simp) (by simp) ?_
    cases m with
    | none => exact h.of_semaDownLoop (hidle (by simp) (by simp)) hx
    | some l =>
      have hset := (h.keep (k.setWaitingLock k.current none)
        rfl rfl rfl (queue_of_eq rfl rfl fun _ => rfl)
        (modThread_placed k k.current _ (fun _ => rfl) fun _ => rfl))
      obtain ⟨hp, hk | hs⟩ := hset.1.of_semaDownLoop (hidle (by simp) (by simp)) hx
      · exact ⟨hp, .inl ⟨hk.current, hk.scheduleTail, hk.status.trans hset.2.status⟩⟩
      · exact ⟨hp, .inr hs⟩
  | semaTryDown s =>
    cases hx
    refine same (by simp) (by simp) ?_
    unfold semaTryDown
    split
    · obtain ⟨hp, hk⟩ := h.keep_of_eq (k.setSema (.plain s) { k.semas (.plain s) with
        value := (k.semas (.plain s)).value - 1 }) rfl rfl rfl rfl
        (queue_of_eq rfl rfl (setSema_waiters k (.plain s) · _ rfl))
      exact ⟨hp, .inl hk⟩
    · exact ⟨h, .inl ⟨rfl, rfl, rfl⟩⟩
  | semaUp s =>
    obtain ⟨hp, hs⟩ := h.of_semaUpInternal hx
    exact same (by simp) (by simp) ⟨hp, .inr hs⟩
  | lockInit l =>
    obtain ⟨⟨hw, _⟩, rfl⟩ := execLockInit_eq_ok hx
    obtain ⟨hp, hk⟩ := h.keep_of_eq (lockInit (.user l) k) rfl rfl rfl rfl
      (queue_of_eq rfl rfl (setSema_waiters k (.lock (.user l)) · _ hw.symm))
    exact same (by simp) (by simp) ⟨hp, .inl hk⟩
  | lockAcquire l =>
    obtain ⟨_, k₁, h₁, h₂⟩ := lockAcquire_eq_ok hx
    have hraised := donate_raised _ h₁
    obtain ⟨hp₁, hk₁⟩ := h.of_raised hraised
    have hi : k₁.current ≠ k₁.idleThread := by
      rw [hk₁.current, hraised.rest]
      exact hidle (by simp) (by simp)
    obtain ⟨hp, hk | hs⟩ := hp₁.of_semaDownLoop hi h₂
    · exact same (by simp) (by simp) ⟨hp, .inl ⟨hk.current.trans hk₁.current,
        hk.scheduleTail.trans hk₁.scheduleTail, hk.status.trans hk₁.status⟩⟩
    · exact same (by simp) (by simp) ⟨hp, .inr (hk₁.current ▸ hs)⟩
  | lockTryAcquire l =>
    refine same (by simp) (by simp) ?_
    obtain ⟨_, ⟨_, rfl⟩ | ⟨_, rfl⟩⟩ := lockTryAcquire_eq_ok hx
    · exact ⟨h, .inl ⟨rfl, rfl, rfl⟩⟩
    · obtain ⟨hp, hk⟩ := (h.keep_of_eq (k.setSema (.lock (.user l))
        { k.semas (.lock (.user l)) with value := (k.semas (.lock (.user l))).value - 1 })
        rfl rfl rfl rfl (queue_of_eq rfl rfl (setSema_waiters k (.lock (.user l)) · _ rfl))).1.push
        [.lockTryAcquired (.user l)]
      exact ⟨hp, .inl ⟨hk.current, hk.scheduleTail, hk.status⟩⟩
  | lockTryAcquired l =>
    cases lockTryAcquired_eq_ok hx
    obtain ⟨hp, hk⟩ := h.keep_of_eq
      (k.setLock l { k.locks l with holder := some k.current }) rfl rfl rfl rfl
      (queue_of_eq rfl rfl fun _ => rfl)
    exact same (by simp) (by simp) ⟨hp, .inl hk⟩
  | lockRelease l =>
    have hrel := (h.keep (lockReleased l k) rfl rfl rfl (queue_of_eq rfl rfl fun _ => rfl)
      (modThread_placed k k.current (fun th => { th with
        priority := releasePriority l (k.threads k.current) k
        heldLocks := th.heldLocks.filter (· ≠ l) }) (fun _ => rfl) fun _ => rfl)).1
    obtain ⟨hp, hs⟩ := hrel.of_semaUpInternal (lockRelease_eq_ok hx).2
    exact same (by simp) (by simp) ⟨hp, .inr hs⟩
  | condInit c =>
    cases execCondInit_eq_ok hx
    exact same (by simp) (by simp) ⟨h, .inl ⟨rfl, rfl, rfl⟩⟩
  | condWait c l =>
    obtain ⟨_, rfl⟩ := condWait_eq_ok hx
    -- nobody is on the private semaphore that is initialised
    have hempty : (k.semas (.waiter k.current)).waiters = [] := by
      refine List.eq_nil_iff_forall_not_mem.mpr fun t ht => ?_
      have hmem : k.current ∈ k.queue (.sema (.waiter k.current)) := hr.waiter t ht ▸ ht
      exact h.notCpu hmem rfl
    obtain ⟨hp, hk⟩ := h.keep (condRecord c (.user l) k) rfl rfl rfl
      (queue_of_eq rfl rfl (setSema_waiters k (.waiter k.current) · _ hempty.symm))
      (modThread_placed k k.current (fun th => { th with frames :=
        [.condPushBack c, .lockRelease (.user l), .semaDown (.waiter k.current),
          .lockAcquire (.user l)] ++ th.frames }) (fun _ => rfl) fun _ => rfl)
    exact same (by simp) (by simp) ⟨hp, .inl hk⟩
  | condPushBack c =>
    cases hx
    obtain ⟨hp, hk⟩ := h.keep_of_eq (condPushBack c k) rfl rfl rfl rfl
      (queue_of_eq rfl rfl fun _ => rfl)
    exact same (by simp) (by simp) ⟨hp, .inl hk⟩
  | condSignal c l =>
    refine same (by simp) (by simp) ?_
    obtain ⟨_, rfl⟩ | ⟨top, _, rfl⟩ := condSignal_eq_ok hx
    · exact ⟨h, .inl ⟨rfl, rfl, rfl⟩⟩
    · obtain ⟨hp, hk⟩ := (h.keep_of_eq
        ({ k with conds := Function.update k.conds c ((k.conds c).erase top) })
        rfl rfl rfl rfl (queue_of_eq rfl rfl fun _ => rfl)).1.push [.semaUp (.waiter top)]
      exact ⟨hp, .inl ⟨hk.current, hk.scheduleTail, hk.status⟩⟩
  | condBroadcast c l =>
    cases hx
    refine same (by simp) (by simp) ?_
    unfold condBroadcast
    split
    · exact ⟨h, .inl ⟨rfl, rfl, rfl⟩⟩
    · obtain ⟨hp, hk⟩ := h.push [.condSignal c l, .condBroadcast c l]
      exact ⟨hp, .inl hk⟩
  | idleBlock =>
    obtain ⟨hp, hs⟩ := h.of_threadBlock (queued_idle k hr.fits) hx
    exact same (by simp) (by simp) ⟨hp, .inr hs⟩
  | idleHalt =>
    cases hx
    obtain ⟨hp, hk⟩ := h.push [.idleBlock]
    exact same (by simp) (by simp) ⟨hp, .inl hk⟩

end Pintos.Threads
