import Pintos.Lib.Fifo
import Pintos.Threads.QueueMembership

/-!
# Strict priority scheduling

Whenever a primitive returns to thread code, no READY thread has a higher priority than the
running one. Between two events this holds with one exception: `thread_create` has just
unblocked the new thread and is about to yield. A switch restores it from nothing, because
`next_thread_to_run` takes a maximum; everything that does not switch leaves `ready_list` alone
and raises no thread above the running one.

The scan also takes the FIRST maximum, and threads join `ready_list` at the back, so among the
threads of highest priority the one that has been in the list longest runs.
-/

namespace Pintos.Threads

open Pintos.Lib

variable {page : Option ThreadRef} {k k' : Kernel} {f : Frame} {new : ThreadRef → Prop}

/-! ## Order of arrival -/

/-- `ready_list` is in order of arrival. -/
def Kernel.Fifo (k : Kernel) : Prop := Stamped k.queuedAt k.queueClock k.readyList

/-- The thread on the CPU is the best choice: no READY thread has a higher priority, and those
of the same priority have joined `ready_list` later. The idle thread is chosen when there is
no other. -/
def Kernel.BestChosen (k : Kernel) : Prop :=
  (k.readyList = [] ∧ k.current = k.idleThread) ∨
    ∀ t ∈ k.readyList, k.prio t < k.prio k.current ∨
      (k.prio t = k.prio k.current ∧ k.queuedAt k.current < k.queuedAt t)

/-- The one that was chosen has the greatest priority of the ready list. -/
theorem Kernel.BestChosen.le (h : k.BestChosen) : ∀ t ∈ k.readyList, k.prio t ≤ k.prio k.current := by
  intro t ht
  rcases h with ⟨hempty, _⟩ | hbest
  · rw [hempty] at ht
    cases ht
  · rcases hbest t ht with hlt | ⟨heq, _⟩
    · exact le_of_lt hlt
    · exact le_of_eq heq

/-- A switch has just been made, to the best choice; nobody READY has been lost. -/
structure Elected (k k' : Kernel) : Prop where
  fifo : k'.Fifo
  best : k'.BestChosen
  switching : k'.scheduleTail ≠ none
  awake : ∀ t ∈ k.readyList, t ∈ k'.readyList ∨ t = k'.current

/-- A thread that becomes ready goes behind its equals. -/
theorem fifo_threadUnblock {t : ThreadRef} (h : k.Fifo) (ht : t ∉ k.readyList)
    (hu : threadUnblock t k = .ok k') : k'.Fifo := by
  obtain ⟨_, _, rfl⟩ := threadUnblock_eq_ok hu
  exact h.push ht

/-- A thread in a wait queue is not in `ready_list`. -/
theorem Placed.not_ready {cpu : Option ThreadRef} {q : QueueRef} {t : ThreadRef}
    (h : Placed k cpu new) (hm : t ∈ k.queue q) (hq : q ≠ .ready) : t ∉ k.readyList := by
  intro hr
  have hr' : t ∈ k.queue .ready := hr
  exact hq (h.once hm hr')

/-- The sleepers that are woken go behind their equals, one after the other. -/
theorem fifo_wakeSleepers : ∀ (ts : List ThreadRef) {k k' : Kernel}, Placed k none new →
    ts.Nodup → (∀ t ∈ ts, t ∈ k.sleepList) → k.Fifo → wakeSleepers ts k = .ok k' → k'.Fifo
  | [], k, k', _, _, _, hfifo, hw => by
    cases hw
    exact hfifo
  | t :: rest, k, k', h, hnd, hsub, hfifo, hw => by
    have hnd' := List.nodup_cons.mp hnd
    have hrest : ∀ u ∈ rest, u ∈ k.sleepList := fun u hu => hsub u (List.mem_cons_of_mem _ hu)
    obtain ⟨_, ⟨_, hw⟩ | ⟨_, k₁, h₁, h₂⟩⟩ := wakeSleepers_cons hw
    · exact fifo_wakeSleepers rest h hnd'.2 hrest hfifo hw
    · have hwakes := wakes_of_sleeper h₁
      have hmem : t ∈ k.queue .sleep := hsub t List.mem_cons_self
      have hready := h.not_ready hmem (by simp)
      refine fifo_wakeSleepers rest
        (h.unblock hwakes (.inl ⟨.sleep, rfl, by simp, hmem, fun _ => Iff.rfl⟩)) hnd'.2 ?_
        (fifo_threadUnblock (k := k.offSleep t) hfifo hready h₁) h₂
      intro u hu
      have hut : u ≠ t := fun he => hnd'.1 (he ▸ hu)
      exact hwakes.mem_of_mem (q := .sleep) hut (hrest u hu)

/-- Waking takes nobody off the ready list. -/
theorem awake_wakeSleepers : ∀ (ts : List ThreadRef) {k k' : Kernel},
    wakeSleepers ts k = .ok k' → ∀ t ∈ k.readyList, t ∈ k'.readyList
  | [], k, k', hw, t, ht => by
    cases hw
    exact ht
  | u :: rest, k, k', hw, t, ht => by
    obtain ⟨_, ⟨_, hw⟩ | ⟨_, k₁, h₁, h₂⟩⟩ := wakeSleepers_cons hw
    · exact awake_wakeSleepers rest hw t ht
    · refine awake_wakeSleepers rest h₂ t ?_
      rw [(wakes_of_sleeper h₁).ready]
      exact List.mem_append_left _ ht

/-- A switch loses nobody that is READY. -/
theorem awake_schedule (hs : schedule k = .ok k') :
    ∀ t ∈ k.readyList, t ∈ k'.readyList ∨ t = k'.current := by
  intro t ht
  obtain ⟨k₁, k₂, next, hwake, hnext, _, _, rfl⟩ := schedule_eq_ok hs
  have hawake := awake_wakeSleepers k.sleepList hwake t ht
  obtain ⟨_, _, rfl⟩ | ⟨_, rfl⟩ := nextThreadToRun_eq_ok hnext
  · exact .inl hawake
  · by_cases he : t = next
    · exact .inr he
    · exact .inl ((List.mem_erase_of_ne he).mpr hawake)

/-- What `schedule` puts on the CPU is the best choice. -/
theorem schedule_best (h : Placed k none new) (hfifo : k.Fifo) (hs : schedule k = .ok k') :
    Elected k k' := by
  have hawake := awake_schedule hs
  obtain ⟨k₁, k₂, next, hwake, hnext, _, _, rfl⟩ := schedule_eq_ok hs
  have hfifo₁ := fifo_wakeSleepers k.sleepList h (h.nodup .sleep) (fun _ ht => ht) hfifo hwake
  obtain ⟨hempty, hi, rfl⟩ | ⟨hmax, rfl⟩ := nextThreadToRun_eq_ok hnext
  · exact ⟨hfifo₁, .inl ⟨hempty, hi⟩, by simp, hawake⟩
  · exact ⟨hfifo₁.erase next, .inr (hfifo₁.oldest hmax), by simp, hawake⟩

/-- A thread that yields goes behind its equals too. -/
theorem fifo_requeue (h : Placed k (some k.current) new) (hfifo : k.Fifo) : k.requeue.Fifo := by
  unfold Kernel.requeue
  split
  · have hnot : k.current ∉ k.readyList := fun hm => by
      have hm' : k.current ∈ k.queue .ready := hm
      exact h.notCpu hm' rfl
    exact hfifo.push hnot
  · exact hfifo

/-- Who is elected from more threads is elected from fewer. -/
theorem Elected.of_subset {k₁ : Kernel} (h : Elected k₁ k')
    (hsub : ∀ t ∈ k.readyList, t ∈ k₁.readyList) : Elected k k' :=
  ⟨h.fifo, h.best, h.switching, fun t ht => h.awake t (hsub t ht)⟩

/-- A yield takes off the ready list only the thread that runs next. -/
theorem awake_threadYield (hy : threadYield k = .ok k') :
    ∀ t ∈ k.readyList, t ∈ k'.readyList ∨ t = k'.current := by
  intro t ht
  refine awake_schedule (threadYield_eq_ok hy).2.2 t ?_
  exact (leaves_requeue k).mem_of_mem (q := .ready) ht

/-- `thread_yield` elects the best. -/
theorem threadYield_best (h : Placed k (some k.current) new) (hfifo : k.Fifo)
    (hy : threadYield k = .ok k') : Elected k k' := by
  refine (schedule_best (h.leave (leaves_requeue k)) (fifo_requeue h hfifo)
    (threadYield_eq_ok hy).2.2).of_subset fun t ht => ?_
  exact (leaves_requeue k).mem_of_mem (q := .ready) ht

/-- `thread_block` elects the best of those that stay. -/
theorem threadBlock_best {k₁ : Kernel} {dst : Option QueueRef}
    (h : Placed k (some k.current) new) (hq : Queued k k₁ dst) (hfifo : k₁.Fifo)
    (hb : threadBlock k₁ = .ok k') : Elected k k' := by
  refine (schedule_best (h.leave hq.leaves) hfifo (threadBlock_eq_ok hb).2.2).of_subset
    fun t ht => ?_
  exact hq.leaves.mem_of_mem (q := .ready) ht

/-- Waking a waiter takes nobody off the ready list. -/
theorem awake_semaWake {s : SemaRef} {m : Option LockRef} (hw : semaWake s m k = .ok k') :
    ∀ t ∈ k.readyList, t ∈ k'.readyList := by
  intro t ht
  obtain ⟨_, rfl⟩ | ⟨top, k₁, _, hu, rfl⟩ := semaWake_eq_ok hw
  · exact ht
  · obtain ⟨_, _, rfl⟩ := threadUnblock_eq_ok hu
    cases m <;> exact List.mem_append_left _ ht

/-- `sema_up` elects the best, the thread it wakes among them. -/
theorem semaUpInternal_best {s : SemaRef} {m : Option LockRef}
    (h : Placed k (some k.current) new) (hfifo : k.Fifo)
    (hu : semaUpInternal s m k = .ok k') : Elected k k' := by
  obtain ⟨k₁, hw, hy⟩ := semaUpInternal_eq_ok hu
  obtain ⟨h₁, _⟩ := h.of_semaWake hw
  have hfifo₁ : k₁.Fifo := by
    obtain ⟨_, rfl⟩ | ⟨top, k₂, hmax, hub, rfl⟩ := semaWake_eq_ok hw
    · exact hfifo
    · have hmem : top ∈ k.queue (.sema s) := hmax.mem
      have hk₂ := fifo_threadUnblock (k := k.setSema s { k.semas s with
        waiters := (k.semas s).waiters.erase top }) hfifo (h.not_ready hmem (by simp)) hub
      cases m with
      | none => exact hk₂
      | some l => exact hk₂
  have hinc := (h₁.keep (semaIncrement s k₁) rfl rfl rfl
    (queue_of_eq rfl rfl (setSema_waiters k₁ s · _ rfl)) fun _ => ⟨rfl, rfl⟩).1
  exact (threadYield_best hinc hfifo₁ hy).of_subset fun t ht => awake_semaWake hw t ht

/-! ## What does not switch -/

/-- `ready_list` is as it was, and nobody in it has been raised above the running thread. -/
structure Calm (k k' : Kernel) : Prop where
  readyList : k'.readyList = k.readyList
  queuedAt : k'.queuedAt = k.queuedAt
  queueClock : k'.queueClock = k.queueClock
  current : k'.current = k.current
  scheduleTail : k'.scheduleTail = k.scheduleTail
  raise : ∀ t ∈ k.readyList, k.prio t ≤ k.prio k.current → k'.prio t ≤ k'.prio k.current

/-- A step that changes neither the ready list nor a priority is calm. -/
theorem Calm.of_prio (hr : k'.readyList = k.readyList) (hq : k'.queuedAt = k.queuedAt)
    (hc : k'.queueClock = k.queueClock) (hcur : k'.current = k.current)
    (htail : k'.scheduleTail = k.scheduleTail) (hp : ∀ t, k'.prio t = k.prio t) : Calm k k' :=
  ⟨hr, hq, hc, hcur, htail, fun t _ hle => by rw [hp, hp]; exact hle⟩

/-- Two calm steps are calm. -/
theorem Calm.trans {k₁ k₂ k₃ : Kernel} (h : Calm k₁ k₂) (h' : Calm k₂ k₃) : Calm k₁ k₃ where
  readyList := h'.readyList.trans h.readyList
  queuedAt := h'.queuedAt.trans h.queuedAt
  queueClock := h'.queueClock.trans h.queueClock
  current := h'.current.trans h.current
  scheduleTail := h'.scheduleTail.trans h.scheduleTail
  raise t ht hle := by
    have h₁ := h.raise t ht hle
    rw [← h.current] at h₁ ⊢
    exact h'.raise t (h.readyList ▸ ht) h₁

/-- A calm step keeps the order among equals. -/
theorem Calm.fifo (h : Calm k k') (hf : k.Fifo) : k'.Fifo := by
  unfold Kernel.Fifo
  rw [h.readyList, h.queuedAt, h.queueClock]
  exact hf

/-- Another field of a thread is no priority. -/
theorem prio_modThread (k : Kernel) (t : ThreadRef) (g : Thread → Thread)
    (hg : ∀ th, (g th).priority = th.priority) (u : ThreadRef) :
    (k.modThread t g).prio u = k.prio u := by
  unfold Kernel.prio
  rw [Kernel.modThread_threads]
  split
  next hu => rw [hu, hg]
  next => rfl

/-- A change of another field is calm. -/
theorem calm_modThread (k : Kernel) (t : ThreadRef) (g : Thread → Thread)
    (hg : ∀ th, (g th).priority = th.priority) : Calm k (k.modThread t g) :=
  .of_prio rfl rfl rfl rfl rfl (prio_modThread k t g hg)

theorem calm_pushFrames (k : Kernel) (fs : List Frame) : Calm k (k.pushFrames k.current fs) :=
  calm_modThread k k.current _ fun _ => rfl

/-- The walk of `lock_acquire` raises nobody above the donor, and the donor not at all. -/
theorem donate_prio {cur : ThreadRef} : ∀ (fuel : Nat) {l : Option LockRef} {k k' : Kernel},
    donate cur fuel l k = .ok k' →
      k'.prio cur = k.prio cur ∧ ∀ t, k'.prio t = k.prio t ∨ k'.prio t = k.prio cur
  | fuel, none, k, k', h => by
    unfold donate at h
    cases h
    exact ⟨rfl, fun _ => .inl rfl⟩
  | fuel, some l, k, k', h => by
    obtain ⟨_, rfl⟩ | ⟨t, n, _, rfl, _, hlt, h⟩ := donate_eq_ok h
    · exact ⟨rfl, fun _ => .inl rfl⟩
    · have hprio : ∀ u, (k.donateTo cur l t).prio u = if u = t then k.prio cur else k.prio u := by
        intro u
        unfold Kernel.prio Kernel.donateTo Kernel.setPriority
        rw [Kernel.modThread_threads]
        split <;> rfl
      have hne : cur ≠ t := by
        rintro rfl
        exact lt_irrefl _ hlt
      obtain ⟨hcur, hall⟩ := donate_prio n h
      rw [hprio, if_neg hne] at hcur hall
      refine ⟨hcur, fun u => ?_⟩
      rcases hall u with hu | hu
      · rw [hprio] at hu
        split at hu
        · exact .inr hu
        · exact .inl hu
      · exact .inr hu

/-- A donation raises threads that wait, and none of the ready list. -/
theorem calm_donate {fuel : Nat} {l : Option LockRef}
    (h : donate k.current fuel l k = .ok k') : Calm k k' := by
  have hr := donate_raised _ h
  obtain ⟨hcur, hall⟩ := donate_prio _ h
  refine ⟨by rw [hr.rest], by rw [hr.rest], by rw [hr.rest], hr.current, by rw [hr.rest],
    fun t _ hle => ?_⟩
  rw [hcur]
  rcases hall t with ht | ht
  · rw [ht]
    exact hle
  · exact le_of_eq ht

/-- The loop of `sema_down_internal` switches to the best choice or changes nothing here. -/
theorem semaDownLoop_best {s : SemaRef} {m : Option LockRef}
    (h : Placed k (some k.current) new) (hi : k.current ≠ k.idleThread) (hfifo : k.Fifo)
    (hd : semaDownLoop s m k = .ok k') :
    Calm k k' ∨ Elected k k' := by
  obtain ⟨_, hb⟩ | ⟨_, rfl⟩ := semaDownLoop_eq_ok hd
  · have hfifo' : (semaEnqueue s m k).Fifo := by cases m <;> exact hfifo
    exact .inr (threadBlock_best h (queued_semaEnqueue s m k hi) hfifo' hb)
  · left
    cases m with
    | none => exact .of_prio rfl rfl rfl rfl rfl fun _ => rfl
    | some l =>
      exact .of_prio rfl rfl rfl rfl rfl (prio_modThread k k.current
        (fun th => { th with heldLocks := th.heldLocks ++ [l] }) fun _ => rfl)

/-- A frame other than the `thread_unblock` of a new thread either leaves `ready_list` and the
running thread alone, or ends in a switch to the best choice. -/
theorem exec_best (h : Placed k (some k.current) new) (hr : Runs k f new) (hfifo : k.Fifo)
    (hf : ∀ t tid, f ≠ .threadUnblock t tid) (hx : exec page k f = .ok k') :
    Calm k k' ∨ Elected k k' := by
  have hidle : f ≠ .idleBlock → f ≠ .idleHalt → k.current ≠ k.idleThread := by
    intro h₁ h₂ he
    rcases hr.idle he with hf | hf
    · exact h₁ hf
    · exact h₂ hf
  cases f with
  | threadUnblock t tid => exact absurd rfl (hf t tid)
  | threadYield => exact .inr (threadYield_best h hfifo hx)
  | threadYieldForSeconds e =>
    exact .inr (threadBlock_best h (queued_sleep k e (hidle (by simp) (by simp))) hfifo
      (threadYieldForSeconds_eq_ok hx).2)
  | timerSleep n =>
    cases hx
    exact .inl (calm_pushFrames k _)
  | threadSetPriority p =>
    have hset := (h.keep (k.modThread k.current fun th => { th with
      priority := newPriority (k.threads k.current) p, basePriority := p })
      rfl rfl rfl (queue_of_eq rfl rfl fun _ => rfl)
      (modThread_placed k k.current _ (fun _ => rfl) fun _ => rfl)).1
    have he := threadYield_best hset hfifo (threadSetPriority_eq_ok hx)
    exact .inr (he.of_subset fun _ ht => ht)
  | threadExit =>
    have he := schedule_best (h.leave (leaves_exit k (hidle (by simp) (by simp)))) hfifo
      (threadExit_eq_ok hx)
    exact .inr (he.of_subset fun _ ht => ht)
  | threadCreate p =>
    cases hx
    exact .inl (calm_pushFrames k _)
  | bitmapScanAndFlip p =>
    left
    obtain ⟨t, _, rfl⟩ | rfl := bitmapScanAndFlip_eq_ok hx
    · have hpush := calm_pushFrames k [.lockRelease .poolLock, .initThread t p]
      exact ⟨rfl, rfl, rfl, rfl, rfl, hpush.raise⟩
    · exact calm_pushFrames k _
  | initThread t p =>
    obtain ⟨k₁, h₁, hx⟩ := bind_eq_ok.mp hx
    obtain ⟨_, rfl⟩ := initThread_eq_ok h₁
    cases hx
    have hdead := hr.init rfl
    have hlive : ∀ u, (k.threads u).magic = true → u ≠ t := fun u hm he => by
      rw [he, hdead] at hm
      cases hm
    -- the page is nobody's: neither the running thread's nor that of a READY one
    have hinit : Calm k ({ k with allList := k.allList ++ [t] }.modThread t fun _ =>
        bootThread 0 p 0 .blocked []) := by
      refine ⟨rfl, rfl, rfl, rfl, rfl, fun u hu hle => ?_⟩
      have hmem : u ∈ k.queue .ready := hu
      unfold Kernel.prio
      rw [Kernel.modThread_ne _ _ (hlive u (h.queued hmem).1),
        Kernel.modThread_ne _ _ (hlive k.current (h.cpuLive rfl).1)]
      exact hle
    exact .inl (hinit.trans (calm_pushFrames _ _))
  | allocateTid t =>
    cases hx
    have hpush := calm_pushFrames k
      [.lockRelease .tidLock, .threadUnblock t k.nextTid, .threadYield]
    exact .inl ⟨rfl, rfl, rfl, rfl, rfl, hpush.raise⟩
  | semaInit s v =>
    obtain ⟨_, rfl⟩ := execSemaInit_eq_ok hx
    exact .inl (.of_prio rfl rfl rfl rfl rfl fun _ => rfl)
  | semaDown s =>
    exact semaDownLoop_best h (hidle (by simp) (by simp)) hfifo (semaDownInternal_eq_ok hx)
  | semaDownLoop s m =>
    cases m with
    | none => exact semaDownLoop_best h (hidle (by simp) (by simp)) hfifo hx
    | some l =>
      have hset := (h.keep (k.setWaitingLock k.current none)
        rfl rfl rfl (queue_of_eq rfl rfl fun _ => rfl)
        (modThread_placed k k.current _ (fun _ => rfl) fun _ => rfl)).1
      have hcalm : Calm k (k.setWaitingLock k.current none) :=
        calm_modThread k k.current _ fun _ => rfl
      rcases semaDownLoop_best hset (hidle (by simp) (by simp)) hfifo hx with hc | he
      · exact .inl (hcalm.trans hc)
      · exact .inr (he.of_subset fun _ ht => ht)
  | semaTryDown s =>
    cases hx
    left
    unfold semaTryDown
    split
    · exact .of_prio rfl rfl rfl rfl rfl fun _ => rfl
    · exact .of_prio rfl rfl rfl rfl rfl fun _ => rfl
  | semaUp s => exact .inr (semaUpInternal_best h hfifo hx)
  | lockInit l =>
    obtain ⟨_, rfl⟩ := execLockInit_eq_ok hx
    exact .inl (.of_prio rfl rfl rfl rfl rfl fun _ => rfl)
  | lockAcquire l =>
    obtain ⟨_, k₁, h₁, h₂⟩ := lockAcquire_eq_ok hx
    have hraised := donate_raised _ h₁
    have hcalm := calm_donate h₁
    obtain ⟨hp₁, hk₁⟩ := h.of_raised hraised
    have hi : k₁.current ≠ k₁.idleThread := by
      rw [hk₁.current, hraised.rest]
      exact hidle (by simp) (by simp)
    rcases semaDownLoop_best hp₁ hi (hcalm.fifo hfifo) h₂ with hc | he
    · exact .inl (hcalm.trans hc)
    · exact .inr (he.of_subset fun _ ht => hcalm.readyList ▸ ht)
  | lockTryAcquire l =>
    left
    obtain ⟨_, ⟨_, rfl⟩ | ⟨_, rfl⟩⟩ := lockTryAcquire_eq_ok hx
    · exact .of_prio rfl rfl rfl rfl rfl fun _ => rfl
    · have hpush := calm_pushFrames k [.lockTryAcquired (.user l)]
      exact ⟨rfl, rfl, rfl, rfl, rfl, hpush.raise⟩
  | lockTryAcquired l =>
    cases lockTryAcquired_eq_ok hx
    exact .inl (.of_prio rfl rfl rfl rfl rfl fun _ => rfl)
  | lockRelease l =>
    have hrel := (h.keep (lockReleased l k) rfl rfl rfl (queue_of_eq rfl rfl fun _ => rfl)
      (modThread_placed k k.current (fun th => { th with
        priority := releasePriority l (k.threads k.current) k
        heldLocks := th.heldLocks.filter (· ≠ l) }) (fun _ => rfl) fun _ => rfl)).1
    have he := semaUpInternal_best hrel hfifo (lockRelease_eq_ok hx).2
    exact .inr (he.of_subset fun _ ht => ht)
  | condInit c =>
    cases execCondInit_eq_ok hx
    exact .inl (.of_prio rfl rfl rfl rfl rfl fun _ => rfl)
  | condWait c l =>
    obtain ⟨_, rfl⟩ := condWait_eq_ok hx
    have hpush := calm_pushFrames k
      [.condPushBack c, .lockRelease (.user l), .semaDown (.waiter k.current),
        .lockAcquire (.user l)]
    exact .inl ⟨rfl, rfl, rfl, rfl, rfl, hpush.raise⟩
  | condPushBack c =>
    cases hx
    exact .inl (.of_prio rfl rfl rfl rfl rfl fun _ => rfl)
  | condSignal c l =>
    left
    obtain ⟨_, rfl⟩ | ⟨top, _, rfl⟩ := condSignal_eq_ok hx
    · exact .of_prio rfl rfl rfl rfl rfl fun _ => rfl
    · have hpush := calm_pushFrames k [.semaUp (.waiter top)]
      exact ⟨rfl, rfl, rfl, rfl, rfl, hpush.raise⟩
  | condBroadcast c l =>
    cases hx
    left
    unfold condBroadcast
    split
    · exact .of_prio rfl rfl rfl rfl rfl fun _ => rfl
    · exact calm_pushFrames k _
  | idleBlock => exact .inr (threadBlock_best h (queued_idle k hr.fits) hfifo hx)
  | idleHalt =>
    cases hx
    exact .inl (calm_pushFrames k _)

/-! ## Every event -/

/-- `thread_create` yields right after `thread_unblock`. -/
def YieldsAfter : List Frame → Prop
  | [] => True
  | .threadUnblock _ _ :: rest => rest.head? = some .threadYield ∧ YieldsAfter rest
  | _ :: rest => YieldsAfter rest

/-- What yields in the end yields in the end of what is left. -/
theorem YieldsAfter.tail {f : Frame} {rest : List Frame} (h : YieldsAfter (f :: rest)) :
    YieldsAfter rest := by
  cases f with
  | threadUnblock t tid => exact h.2
  | _ => exact h

/-- The frames a function leaves behind do not take the yield away. -/
theorem Follows.yieldsAfter {fs rest : List Frame} (h : Follows page k f fs)
    (hr : YieldsAfter rest) : YieldsAfter (fs ++ rest) := by
  cases h with
  | tid => exact ⟨rfl, hr⟩
  | _ => exact hr

/-- The scheduling invariant, beside `Coherent`. -/
structure Strict (k : Kernel) : Prop where
  fifo : k.Fifo
  yields : ∀ u, YieldsAfter (k.threads u).frames
  top : k.scheduleTail = none → (∀ t ∈ k.readyList, k.prio t ≤ k.prio k.current) ∨
    (k.threads k.current).frames.head? = some .threadYield
  chosen : k.scheduleTail ≠ none → k.BestChosen

/-- The tail of a switch runs the one that was elected. -/
theorem Strict.of_tail {prev : Option ThreadRef} (h : Strict k)
    (ht : k.scheduleTail = some prev)
    (hx : threadScheduleTail prev { k with scheduleTail := none } = .ok k') : Strict k' := by
  have hbest := (h.chosen (by rw [ht]; simp)).le
  have hrun : ∀ u, ((k.setStatus k.current .running).threads u).frames = (k.threads u).frames :=
    sameFrames_modThread k k.current (fun th => { th with status := .running }) fun _ => rfl
  have hprio : ∀ u, (k.setStatus k.current .running).prio u = k.prio u :=
    prio_modThread k k.current (fun th => { th with status := .running }) fun _ => rfl
  obtain ⟨rfl, _⟩ | ⟨p, rfl, _, _, _, _, rfl⟩ := threadScheduleTail_eq_ok hx
  · refine ⟨h.fifo, fun u => ?_, fun _ => .inl fun t htm => ?_, fun hne => absurd rfl hne⟩
    · exact (hrun u).symm ▸ h.yields u
    · exact (hprio t).trans_le ((hbest t htm).trans_eq (hprio k.current).symm)
  · have hfree : ∀ u, _ := sameFrames_modThread (k.setStatus k.current .running) p
      (fun th => { th with magic := false }) fun _ => rfl
    have hkeep : ∀ u, _ := prio_modThread (k.setStatus k.current .running) p
      (fun th => { th with magic := false }) fun _ => rfl
    refine ⟨h.fifo, fun u => ?_, fun _ => .inl fun t htm => ?_, fun hne => absurd rfl hne⟩
    · exact ((hfree u).trans (hrun u)).symm ▸ h.yields u
    · exact ((hkeep t).trans (hprio t)).trans_le
        ((hbest t htm).trans_eq ((hkeep k.current).trans (hprio k.current)).symm)

/-- A step that leaves the frames of the others alone, and either is calm or switches to the
best choice. -/
theorem Strict.of_outcome (hn : k.scheduleTail = none)
    (htop : ∀ t ∈ k.readyList, k.prio t ≤ k.prio k.current) (hfifo : k.Fifo)
    (hyields : ∀ u, YieldsAfter (k'.threads u).frames)
    (ho : Calm k k' ∨ Elected k k') : Strict k' := by
  rcases ho with hc | he
  · refine ⟨hc.fifo hfifo, hyields, fun _ => .inl fun t ht => ?_, fun hne => ?_⟩
    · rw [hc.readyList] at ht
      rw [hc.current]
      exact hc.raise t ht (htop t ht)
    · rw [hc.scheduleTail, hn] at hne
      exact absurd rfl hne
  · exact ⟨he.fifo, hyields, fun hnone => absurd hnone he.switching, fun _ => he.best⟩

/-- One frame of the running thread keeps strictness, or leaves the yield to come. -/
theorem Strict.of_run {rest : List Frame} (h : Strict k) (hk : Coherent k)
    (hn : k.scheduleTail = none) (hf : (k.threads k.current).frames = f :: rest)
    (hx : exec page (k.setFrames k.current rest) f = .ok k') : Strict k' := by
  obtain ⟨fs, hfs, hpush⟩ := hk.pushes hf hx
  have hframes := frames_of_pushes hpush
  have hplaced := hk.placed.setFrames k.current rest
  have hrest : YieldsAfter rest := by
    have hcur := h.yields k.current
    rw [hf] at hcur
    exact hcur.tail
  have hyields : ∀ u, YieldsAfter (k'.threads u).frames := by
    intro u
    rw [hframes u]
    split
    · exact hfs.yieldsAfter hrest
    · exact h.yields u
  have hprio : ∀ u, (k.setFrames k.current rest).prio u = k.prio u :=
    prio_modThread k k.current (fun th => { th with frames := rest }) fun _ => rfl
  by_cases hunb : ∃ t tid, f = .threadUnblock t tid
  · -- the new thread joins `ready_list`, and the next frame is the yield
    obtain ⟨t, tid, rfl⟩ := hunb
    have hnew : k.New t := ⟨k.current, _, hf ▸ List.mem_cons_self, rfl⟩
    have hnot : t ∉ k.readyList := fun hm => by
      have hm' : t ∈ k.queue .ready := hm
      exact hk.placed.notNew hm' hnew
    have hfifo' := fifo_threadUnblock (k := (k.setFrames k.current rest).modThread t
      fun th => { th with tid := tid, endTick := -1 }) h.fifo hnot hx
    have hnil : fs = [] := by
      cases hfs with
      | done _ => rfl
    have hnext : rest.head? = some .threadYield := by
      have hcur := h.yields k.current
      rw [hf] at hcur
      exact hcur.1
    have hcur : k'.current = k.current ∧ k'.scheduleTail = none := by
      obtain ⟨_, _, rfl⟩ := threadUnblock_eq_ok hx
      exact ⟨rfl, hn⟩
    refine ⟨hfifo', hyields, fun _ => .inr ?_, fun hne => absurd hcur.2 hne⟩
    rw [hcur.1, hframes, if_pos rfl, hnil]
    exact hnext
  · have hne : ∀ t tid, f ≠ .threadUnblock t tid := fun t tid he => hunb ⟨t, tid, he⟩
    rcases h.top hn with htop | hyield
    · refine Strict.of_outcome (k := k.setFrames k.current rest) hn (fun t ht => ?_) h.fifo
        hyields (exec_best hplaced (hk.runs hf) h.fifo hne hx)
      rw [hprio, hprio]
      exact htop t ht
    · -- about to yield: the frame switches
      rw [hf] at hyield
      cases Option.some.inj hyield
      have he := threadYield_best hplaced h.fifo hx
      exact ⟨he.fifo, hyields, fun hnone => absurd hnone he.switching, fun _ => he.best⟩

/-- Every step keeps priorities strict. -/
theorem Strict.of_step {e : Event} (h : Strict k) (hk : Coherent k) (hx : step e k = .ok k') :
    Strict k' := by
  obtain ⟨prev, _, ht, hx⟩ | ⟨c, _, hn, hf, rfl⟩ | ⟨page, f, rest, _, hn, hf, hx⟩ |
    ⟨_, hn, hx, _⟩ := step_eq_ok hx
  · exact h.of_tail ht hx
  · have htop : ∀ t ∈ k.readyList, k.prio t ≤ k.prio k.current := by
      rcases h.top hn with htop | hyield
      · exact htop
      · rw [hf] at hyield
        cases hyield
    refine Strict.of_outcome hn htop h.fifo (fun u => ?_)
      (.inl (calm_modThread k k.current _ fun _ => rfl))
    rw [Kernel.setFrames, Kernel.modThread_threads]
    split
    · cases c <;> trivial
    · exact h.yields u
  · exact h.of_run hk hn hf hx
  · -- a tick leaves everything alone unless the time slice is over
    have hp := (hk.placed.keep_of_eq (threadTick k) rfl rfl rfl rfl
      (queue_of_eq rfl rfl fun _ => rfl)).1
    rcases timerInterrupt_eq_ok hx with rfl | hy
    · exact ⟨h.fifo, h.yields, h.top, h.chosen⟩
    · have he := threadYield_best (k := threadTick k) hp h.fifo hy
      refine ⟨he.fifo, fun u => ?_, fun hnone => absurd hnone he.switching, fun _ => he.best⟩
      rw [(threadYield_same hy).frames u]
      exact h.yields u

/-- Priority is strict in every reachable state. -/
theorem reach_strict {b : Boot} (h : Reach (Steps step) (afterThreadStart b) k) : Strict k := by
  refine ReachWhere.invariant_with (P := Strict) ?_ (fun k' hk' => reach_coherent hk')
    (fun _ _ _ hk hs _ hx => hs.of_step hk hx) h
  refine ⟨⟨List.Pairwise.nil, by simp [afterThreadStart]⟩, fun u => ?_,
    fun _ => .inl (by simp [afterThreadStart]), fun hne => absurd rfl hne⟩
  simp only [afterThreadStart]
  split
  · trivial
  · split <;> trivial

/-- Strict priority scheduling: whenever the running thread is in thread code its priority is
at least that of every thread in `ready_list`; and whenever `schedule` has just chosen a thread,
every thread left in `ready_list` has a lower priority, or the same priority and has joined
the list later (the idle thread is chosen only when the list is empty). -/
theorem strict_priority (b : Boot) (k : Kernel)
    (h : Reach (Steps step) (afterThreadStart b) k) :
    (k.InThreadCode → ∀ t ∈ k.readyList, k.prio t ≤ k.prio k.current) ∧
    (k.scheduleTail ≠ none → k.BestChosen) := by
  have hs := reach_strict h
  refine ⟨fun hcode => ?_, hs.chosen⟩
  rcases hs.top hcode.1 with htop | hyield
  · exact htop
  · rw [hcode.2] at hyield
    cases hyield

/-- The events of a `thread_create` on page `t` that is not preempted: two of its frames yield,
and so does its end. -/
def createEvents (t : ThreadRef) (priority : Int) : List Event :=
  [.call (.threadCreate priority), .run none, .run none, .run (some t), .run none, .tail,
    .run none, .run none, .run none, .run none, .tail, .run none, .run none, .tail]

/-- `main` creates a thread of priority 20 and is back in thread code, ahead of it. -/
theorem main_ahead_of_created :
    ∃ k, Reach (Steps step) (afterThreadStart smallBoot) k ∧ k.InThreadCode ∧
      k.readyList = [2] ∧ k.prio 2 ≤ k.prio k.current := by
  obtain ⟨k, hr, hp⟩ := exists_of_replay step (fun _ _ => true)
    (createEvents 2 20) (afterThreadStart smallBoot)
    (fun k => k.scheduleTail.isNone && (k.threads k.current).frames == [] &&
      k.readyList == [2]) (by decide +kernel)
  simp only [Bool.and_eq_true, beq_iff_eq, Option.isNone_iff_eq_none] at hp
  obtain ⟨⟨htail, hframes⟩, hready⟩ := hp
  refine ⟨k, hr.reach, ⟨htail, hframes⟩, hready, ?_⟩
  exact (strict_priority smallBoot k hr.reach).1 ⟨htail, hframes⟩ 2 (by rw [hready]; simp)

end Pintos.Threads
