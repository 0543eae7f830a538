import Pintos.Threads.DonationLoop
import Pintos.Threads.Keys

/-!
# A thread to run and a thread to wake

The maximum searches of `next_thread_to_run`, `sema_up_internal` and `cond_signal` start from `-1`,
so they find somebody exactly when somebody's priority is above that. Priorities are checked where
a thread is created and nowhere else: `thread_set_priority` takes any `int`, and what it leaves as
the base priority is what `lock_release` may come back to.

`Eligible` says that nobody is below zero. A run keeps it as long as no step leaves its thread with
a negative priority (`Kernel.LeavesPriority`), and all three searches then find a member of their
list (`always_serves`). A step that does leave a negative priority puts a thread on `ready_list`
that the search never takes.
-/

namespace Pintos.Threads

open Pintos.Lib

variable {page : Option ThreadRef} {k k' : Kernel} {f : Frame} {new : ThreadRef → Prop}

/-! ## Priorities -/

/-- Every priority, and every priority recorded in a condition, is at least `PRI_MIN`. -/
structure Eligible (k : Kernel) : Prop where
  prio : ∀ t, 0 ≤ k.prio t
  elem : ∀ t, 0 ≤ k.elemPriority t

/-- The frame does not leave the running thread with a negative priority: what is asked of
`thread_set_priority` and of `lock_release`. -/
def Frame.LeavesPriority (k : Kernel) : Frame → Prop
  | .threadSetPriority p => 0 ≤ p ∨ k.base k.current < k.prio k.current
  | .lockRelease l => 0 ≤ k.base k.current ∨
    ∃ l' ∈ (k.threads k.current).heldLocks, l' ≠ l ∧ 0 ≤ k.recorded l'
  | _ => True

/-- What is asked of a step. -/
def Kernel.LeavesPriority (k : Kernel) (e : Event) : Prop :=
  ∀ f, e.runs k = some f → f.LeavesPriority k

/-- What a frame does to the priorities does not hang on the frames below it. -/
theorem Frame.leavesPriority_setFrames {rest : List Frame} :
    f.LeavesPriority (k.setFrames k.current rest) ↔ f.LeavesPriority k := by
  have hs := sameLocks_setFrames k rest
  cases f with
  | threadSetPriority p =>
    show 0 ≤ p ∨ (k.setFrames k.current rest).base k.current <
      (k.setFrames k.current rest).prio k.current ↔ _
    rw [hs.base, hs.prio]
    rfl
  | lockRelease l =>
    show 0 ≤ (k.setFrames k.current rest).base k.current ∨
      (∃ l' ∈ ((k.setFrames k.current rest).threads k.current).heldLocks,
        l' ≠ l ∧ 0 ≤ k.recorded l') ↔ _
    rw [hs.base, hs.heldLocks]
    rfl
  | _ => exact Iff.rfl

/-- `thread_set_priority` lets a donation stand, so it is harmless under one. -/
theorem newPriority_nonneg_iff {t : Thread} {p : Int} (ht : 0 ≤ t.priority) :
    0 ≤ newPriority t p ↔ 0 ≤ p ∨ t.basePriority < t.priority := by
  unfold newPriority
  split
  · split <;> omega
  · omega

/-- A release falls back to the base or to a donation through another lock. -/
theorem releasePriority_nonneg_iff {l : LockRef} {t : Thread} :
    0 ≤ releasePriority l t k ↔
      0 ≤ t.basePriority ∨ ∃ l' ∈ t.heldLocks, l' ≠ l ∧ 0 ≤ k.recorded l' := by
  rw [releasePriority_eq]
  obtain ⟨hbase, hall, hex⟩ :=
    @foldMax_spec _ k.recorded (t.heldLocks.filter (· ≠ l)) t.basePriority
  constructor
  · intro h
    rcases hex with hb | ⟨l', hl', hk⟩
    · exact .inl (hb ▸ h)
    · obtain ⟨hm, hne⟩ := List.mem_filter.mp hl'
      exact .inr ⟨l', hm, by simpa using hne, hk ▸ h⟩
  · rintro (hb | ⟨l', hm, hne, hk⟩)
    · exact le_trans hb hbase
    · exact le_trans hk (hall l' (List.mem_filter.mpr ⟨hm, by simpa using hne⟩))

/-- A frame that leaves no negative priority keeps all of them. -/
theorem Eligible.of_keyMoves (h : Eligible k) (hf : f.LeavesPriority k) (hm : KeyMoves k k' f) :
    Eligible k' := by
  have hset : ∀ {t : ThreadRef} {p : Int}, 0 ≤ p → k'.prio = Function.update k.prio t p →
      ∀ u, 0 ≤ k'.prio u := by
    intro t p hp he u
    rw [he, Function.update_apply]
    split
    · exact hp
    · exact h.prio u
  have helem : SameElems k k' → ∀ t, 0 ≤ k'.elemPriority t := fun hs t => by
    rw [hs.elemPriority]
    exact h.elem t
  cases hm with
  | same _ hs => exact ⟨fun t => by rw [hs.prio]; exact h.prio t, helem hs.toSameElems⟩
  | set hs hp => exact ⟨hset ((newPriority_nonneg_iff (h.prio _)).mpr hf) hp, helem hs⟩
  | init hs hr hp => exact ⟨hset hr hp, helem hs⟩
  | acquire hs hp =>
    refine ⟨fun t => ?_, helem hs⟩
    rcases hp t with ht | ⟨_, ht⟩
    · rw [ht]
      exact h.prio t
    · rw [ht]
      exact h.prio k.current
  | release hs hp => exact ⟨hset (releasePriority_nonneg_iff.mpr hf) hp, helem hs⟩
  | record hp he _ =>
    refine ⟨fun t => by rw [hp]; exact h.prio t, fun t => ?_⟩
    rw [he, Function.update_apply]
    split
    · exact h.prio k.current
    · exact h.elem t
  | join hp he _ | signal hp he _ =>
    exact ⟨fun t => by rw [hp]; exact h.prio t, fun t => by rw [he]; exact h.elem t⟩

/-- Only the keys of the queues matter. -/
theorem Eligible.of_sameKeys (h : Eligible k) (hs : SameKeys k k') : Eligible k' :=
  ⟨fun t => by rw [hs.prio]; exact h.prio t, fun t => by rw [hs.elemPriority]; exact h.elem t⟩

/-- A step that leaves its thread a priority keeps every thread eligible. -/
theorem Eligible.of_step {e : Event} (h : Eligible k) (hok : k.LeavesPriority e)
    (hx : step e k = .ok k') : Eligible k' := by
  rcases step_keys hx with ⟨_, hs⟩ | ⟨f, hf, hm⟩
  · exact h.of_sameKeys hs
  · exact h.of_keyMoves (hok f hf) hm

/-- The initial thread and the idle one have priorities in range. -/
theorem eligible_afterThreadStart (b : Boot) : Eligible (afterThreadStart b) := by
  refine ⟨fun t => ?_, fun _ => le_refl _⟩
  simp only [Kernel.prio, afterThreadStart]
  split
  · decide
  · split <;> decide

/-- Every thread stays eligible in a run of such steps. -/
theorem reach_eligible {b : Boot}
    (h : ReachWhere (Steps step) Kernel.LeavesPriority (afterThreadStart b) k) : Eligible k :=
  h.invariant (eligible_afterThreadStart b) fun _ _ _ hk hok hx => hk.of_step hok hx

/-! ## The searches -/

/-- What a thread system owes its threads, of one state: `next_thread_to_run` takes a member of
`ready_list` whenever there is one, `sema_up_internal` wakes a waiter of the semaphore and
`cond_signal` a waiter of the condition, and each READY thread is taken when it is the only one. -/
structure Kernel.AlwaysServes (k : Kernel) : Prop where
  next : k.readyList ≠ [] → ∃ t ∈ k.readyList,
    nextThreadToRun k = .ok (t, { k with readyList := k.readyList.erase t })
  wake : ∀ s m, (k.semas s).waiters ≠ [] → ∃ t ∈ (k.semas s).waiters, ∃ k',
    semaUpInternal s m k = threadYield (semaIncrement s k') ∧
      (k'.semas s).waiters = (k.semas s).waiters.erase t ∧ k'.readyList = k.readyList ++ [t] ∧
      (k'.threads t).status = .ready
  signal : ∀ c l, k.conds c ≠ [] → lockHeldByCurrentThread l k = .ok true → ∃ t ∈ k.conds c,
    condSignal c l k = .ok ({ k with
      conds := Function.update k.conds c ((k.conds c).erase t) }.pushFrames k.current
        [.semaUp (.waiter t)]) ∧
      ∀ u ∈ (k.semas (.waiter t)).waiters, u = t
  eligible : ∀ t ∈ k.readyList,
    nextThreadToRun { k with readyList := [t] } = .ok (t, { k with readyList := [] })

/-- With every thread eligible the ready list has a thread to run. -/
theorem Eligible.exists_next (h : Eligible k) (hne : k.readyList ≠ []) :
    ∃ t ∈ k.readyList,
      nextThreadToRun k = .ok (t, { k with readyList := k.readyList.erase t }) := by
  obtain ⟨t, ht, hs⟩ := exists_scanMax k.prio (-1) hne fun x _ => by
    have := h.prio x
    omega
  refine ⟨t, ht, ?_⟩
  unfold nextThreadToRun
  rw [if_neg hne, hs]

/-- A blocked thread whose stack is whole can be unblocked. -/
theorem threadUnblock_ok {t : ThreadRef} (hlive : (k.threads t).magic = true)
    (hblocked : (k.threads t).status = .blocked) :
    threadUnblock t k = .ok ((k.pushReady t).setStatus t .ready) :=
  bind_eq_ok.mpr ⟨(), assert_eq_ok.mpr hlive, bind_eq_ok.mpr ⟨(), assert_eq_ok.mpr hblocked, rfl⟩⟩

/-- A waiter of a semaphore is found and woken. -/
theorem Eligible.exists_wake {s : SemaRef} {m : Option LockRef} (h : Eligible k)
    (hp : Placed k (some k.current) new) (hne : (k.semas s).waiters ≠ []) :
    ∃ t ∈ (k.semas s).waiters, ∃ k', semaUpInternal s m k = threadYield (semaIncrement s k') ∧
      (k'.semas s).waiters = (k.semas s).waiters.erase t ∧ k'.readyList = k.readyList ++ [t] ∧
      (k'.threads t).status = .ready := by
  obtain ⟨t, ht, hs⟩ := exists_scanMax k.prio (-1) hne fun x _ => by
    have := h.prio x
    omega
  have hqueued : t ∈ k.queue (.sema s) := ht
  obtain ⟨hlive, hblocked⟩ := hp.queued hqueued
  let off := k.setSema s { k.semas s with waiters := (k.semas s).waiters.erase t }
  have hwake : semaWake s m k = .ok (updateIfLock m ((off.pushReady t).setStatus t .ready)) := by
    unfold semaWake
    rw [if_neg hne, hs]
    exact bind_eq_ok.mpr ⟨_, threadUnblock_ok (k := off) hlive hblocked, rfl⟩
  refine ⟨t, ht, updateIfLock m ((off.pushReady t).setStatus t .ready), ?_, ?_, ?_, ?_⟩
  · unfold semaUpInternal
    rw [hwake]
    rfl
  · cases m <;> simp [updateIfLock, updateLockMaxPriority, off, Kernel.setSema, Kernel.setLock,
      Kernel.pushReady, Kernel.setStatus, Kernel.modThread]
  · cases m <;> rfl
  · cases m <;> simp [updateIfLock, updateLockMaxPriority, Kernel.setLock, Kernel.setStatus]

/-- `cond_signal` takes the first waiter with the largest recorded priority. -/
theorem condSignal_ok {c : CondRef} {l : LockRef} (hintr : k.inExternalIntr = false)
    (hne : k.conds c ≠ []) (hheld : lockHeldByCurrentThread l k = .ok true)
    (hpos : ∀ t ∈ k.conds c, 0 ≤ k.elemPriority t) :
    ∃ t, IsFirstMax k.elemPriority (k.conds c) t ∧ condSignal c l k = .ok ({ k with
      conds := Function.update k.conds c ((k.conds c).erase t) }.pushFrames k.current
        [.semaUp (.waiter t)]) := by
  obtain ⟨t, _, hs⟩ := exists_scanMax k.elemPriority (-1) hne fun x hx => by
    have := hpos x hx
    omega
  refine ⟨t, (scanMax_spec hs).1, ?_⟩
  unfold condSignal
  rw [hheld]
  refine bind_eq_ok.mpr ⟨(), assert_eq_ok.mpr hintr, bind_eq_ok.mpr ⟨true, rfl, ?_⟩⟩
  refine bind_eq_ok.mpr ⟨(), assert_eq_ok.mpr rfl, ?_⟩
  rw [if_neg hne, hs]

/-- A waiter of a condition is found and signalled. -/
theorem Eligible.exists_signal {c : CondRef} {l : LockRef} (h : Eligible k)
    (hintr : k.inExternalIntr = false) (hne : k.conds c ≠ [])
    (hheld : lockHeldByCurrentThread l k = .ok true) :
    ∃ t ∈ k.conds c, condSignal c l k = .ok ({ k with
      conds := Function.update k.conds c ((k.conds c).erase t) }.pushFrames k.current
        [.semaUp (.waiter t)]) := by
  obtain ⟨t, hmax, hs⟩ := condSignal_ok hintr hne hheld fun t _ => h.elem t
  exact ⟨t, hmax.mem, hs⟩

/-- Together: every queue serves somebody. -/
theorem Eligible.alwaysServes (h : Eligible k) (hk : Coherent k)
    (hintr : k.inExternalIntr = false) : k.AlwaysServes where
  next := h.exists_next
  wake _ _ := h.exists_wake hk.placed
  signal _ _ hne hheld := by
    obtain ⟨t, ht, hs⟩ := h.exists_signal hintr hne hheld
    exact ⟨t, ht, hs, hk.framed.waiter t⟩
  eligible t _ := by
    have hone : Eligible { k with readyList := [t] } := ⟨h.prio, h.elem⟩
    obtain ⟨u, hu, hn⟩ := hone.exists_next (List.cons_ne_nil _ _)
    cases List.mem_singleton.mp hu
    simpa using hn

/-- Whoever is taken from `ready_list` has a priority the search could find. -/
theorem prio_of_nextThreadToRun {t : ThreadRef} (h : nextThreadToRun k = .ok (t, k'))
    (hne : k.readyList ≠ []) : 0 ≤ k.prio t := by
  unfold nextThreadToRun at h
  rw [if_neg hne] at h
  split at h
  next u hu =>
    cases h
    have := (scanMax_spec hu).2
    omega
  next => cases h

/-! ## No null element -/

/-- The faults of a search that has found nobody: `list_remove (NULL)` in `next_thread_to_run`,
and a read through what the search has left null or unset in the other two. -/
def Fault.UsesNull (e : Fault) : Prop := e = .panic .listRemoveInterior ∨ e = .undefined

variable {e : Fault}

/-- An assertion that fails is no use of a null pointer, that of `list_remove` apart. -/
theorem Fault.UsesNull.assert (he : e.UsesNull) {a : Assertion} {c : Prop} [Decidable c]
    (ha : a ≠ .listRemoveInterior) : Avoids e (assert a c) := by
  rcases he with rfl | rfl
  · exact avoids_assert ha
  · intro h
    cases (assert_eq_error.mp h).2

theorem Fault.UsesNull.ne_notEnabled (he : e.UsesNull) : Fault.notEnabled ≠ e := by
  rcases he with rfl | rfl <;> simp

/-- `thread_current` uses no null pointer. -/
theorem Fault.UsesNull.threadCurrent (he : e.UsesNull) : Avoids e (threadCurrent k) :=
  (he.assert (by simp)).bind fun _ _ => (he.assert (by simp)).bind fun _ _ => .of_ok

theorem Fault.UsesNull.threadUnblock (he : e.UsesNull) {t : ThreadRef} :
    Avoids e (threadUnblock t k) :=
  (he.assert (by simp)).bind fun _ _ => (he.assert (by simp)).bind fun _ _ => .of_ok

/-- The loop over the sleepers uses no null pointer. -/
theorem Fault.UsesNull.wakeSleepers (he : e.UsesNull) : ∀ (ts : List ThreadRef) (k : Kernel),
    Avoids e (wakeSleepers ts k)
  | [], _ => .of_ok
  | _ :: rest, _ => by
    refine (he.assert (by simp)).bind fun _ _ => ?_
    refine .ite (fun _ => ?_) fun _ => he.wakeSleepers rest _
    exact he.threadUnblock.bind fun _ _ => he.wakeSleepers rest _

/-- The choice of `schedule` finds a thread when no priority is negative. -/
theorem Fault.UsesNull.schedule (he : e.UsesNull) (hp : ∀ t, 0 ≤ k.prio t) :
    Avoids e (schedule k) := by
  refine (he.wakeSleepers _ _).bind fun k₁ h₁ => Avoids.bind ?_ fun _ _ => ?_
  · have hprio := (wakeSleepers_same _ h₁).1.prio
    unfold nextThreadToRun
    refine .ite (fun _ => .of_ok) fun hne => ?_
    obtain ⟨t, _, hs⟩ := exists_scanMax k₁.prio (-1) hne fun x _ => by
      have := hp x
      rw [hprio]
      omega
    rw [hs]
    exact .of_ok
  · exact (he.assert (by simp)).bind fun _ _ => (he.assert (by simp)).bind fun _ _ => .of_ok

/-- `thread_block` switches to a thread that is there. -/
theorem Fault.UsesNull.threadBlock (he : e.UsesNull) (hp : ∀ t, 0 ≤ k.prio t) :
    Avoids e (threadBlock k) := by
  refine (he.assert (by simp)).bind fun _ _ => he.threadCurrent.bind fun c _ => ?_
  refine he.schedule fun t => ?_
  rw [(same_setStatus k c .blocked).prio]
  exact hp t

/-- `thread_yield` switches to a thread that is there. -/
theorem Fault.UsesNull.threadYield (he : e.UsesNull) (hp : ∀ t, 0 ≤ k.prio t) :
    Avoids e (threadYield k) := by
  refine he.threadCurrent.bind fun c hc => (he.assert (by simp)).bind fun _ _ => ?_
  obtain ⟨_, _, rfl⟩ := threadCurrent_eq_ok.mp hc
  refine he.schedule fun t => ?_
  show 0 ≤ k.requeue.prio t
  rw [(same_requeue k).prio]
  exact hp t

/-- `sema_down` uses no null pointer, where it waits either. -/
theorem Fault.UsesNull.semaDownLoop (he : e.UsesNull) {s : SemaRef} {m : Option LockRef}
    (hp : ∀ t, 0 ≤ k.prio t) : Avoids e (semaDownLoop s m k) := by
  refine .ite (fun _ => he.threadBlock fun t => ?_) fun _ => .of_ok
  rw [(sameKeys_semaEnqueue s m k).prio]
  exact hp t

theorem Fault.UsesNull.semaDownInternal (he : e.UsesNull) {s : SemaRef} {m : Option LockRef}
    (hp : ∀ t, 0 ≤ k.prio t) : Avoids e (semaDownInternal s m k) :=
  (he.assert (by simp)).bind fun _ _ => he.threadCurrent.bind fun _ _ => he.semaDownLoop hp

/-- `sema_up` uses no null pointer, where it wakes and yields either. -/
theorem Fault.UsesNull.semaUpInternal (he : e.UsesNull) {s : SemaRef} {m : Option LockRef}
    (hp : ∀ t, 0 ≤ k.prio t) : Avoids e (semaUpInternal s m k) := by
  refine Avoids.bind ?_ fun k₁ hw => he.threadYield fun t => ?_
  · refine .ite (fun _ => .of_ok) fun hne => ?_
    obtain ⟨t, _, hs⟩ := exists_scanMax k.prio (-1) hne fun x _ => by
      have := hp x
      omega
    rw [hs]
    exact he.threadUnblock.bind fun _ _ => .of_ok
  · have hprio : (semaIncrement s k₁).prio = k.prio := (sameKeys_semaWake hw).prio
    rw [hprio]
    exact hp t

/-- Asking for the holder uses no null pointer. -/
theorem Fault.UsesNull.lockHeld (he : e.UsesNull) {l : LockRef} :
    Avoids e (lockHeldByCurrentThread l k) :=
  he.threadCurrent.bind fun _ _ => .of_ok

/-- The walk of `lock_acquire` may follow a pointer to a thread that is gone; it removes nothing
from a list. -/
theorem avoids_remove_donate {cur : ThreadRef} : ∀ (fuel : Nat) (l : Option LockRef) (k : Kernel),
    Avoids (.panic .listRemoveInterior) (donate cur fuel l k)
  | 0, none, k => .of_ok
  | fuel + 1, none, k => .of_ok
  | 0, some l, k => .of_ne (by simp)
  | fuel + 1, some l, k => by
    unfold donate
    split
    next => exact .of_ok
    next =>
      refine .ite (fun _ => .of_ne (by simp)) fun _ => ?_
      exact .ite (fun _ => avoids_remove_donate fuel _ _) fun _ => .of_ne (by simp)

/-- No search of a frame comes up empty, if no priority is negative before it and it leaves none. -/
theorem Eligible.avoids_exec (h : Eligible k) (he : e.UsesNull) (hf : f.LeavesPriority k)
    (hl : e = .undefined → ∀ l, f ≠ .lockAcquire l) : Avoids e (exec page k f) := by
  have hmod : ∀ (g : Thread → Thread), 0 ≤ (g (k.threads k.current)).priority →
      ∀ t, 0 ≤ (k.modThread k.current g).prio t := by
    intro g hg t
    rw [prio_of_modThread, Function.update_apply]
    split
    · exact hg
    · exact h.prio t
  cases f with
  | threadYield => exact he.threadYield h.prio
  | threadYieldForSeconds n =>
    refine he.threadCurrent.bind fun c hc => (he.assert (by simp)).bind fun _ _ => ?_
    obtain ⟨_, _, rfl⟩ := threadCurrent_eq_ok.mp hc
    exact he.threadBlock (hmod (fun th => { th with endTick := n }) (h.prio k.current))
  | timerSleep n => exact .of_ok
  | threadSetPriority p =>
    refine he.threadCurrent.bind fun c hc => ?_
    obtain ⟨_, _, rfl⟩ := threadCurrent_eq_ok.mp hc
    exact he.threadYield (hmod (fun th => { th with
      priority := newPriority (k.threads k.current) p, basePriority := p })
      ((newPriority_nonneg_iff (h.prio _)).mpr hf))
  | threadExit =>
    refine (he.assert (by simp)).bind fun _ _ => he.threadCurrent.bind fun c hc => ?_
    obtain ⟨_, _, rfl⟩ := threadCurrent_eq_ok.mp hc
    exact he.schedule (hmod (fun th => { th with status := .dying }) (h.prio k.current))
  | threadCreate p => exact .of_ok
  | bitmapScanAndFlip p =>
    cases page with
    | none => exact .of_ok
    | some t => exact .ite (fun _ => .of_ne he.ne_notEnabled) fun _ => .of_ok
  | initThread t p =>
    exact Avoids.bind ((he.assert (by simp)).bind fun _ _ => .of_ok) fun _ _ => .of_ok
  | allocateTid t => exact .of_ok
  | threadUnblock t tid => exact he.threadUnblock
  | semaInit s v => exact .ite (fun _ => .of_ok) fun _ => .of_ne he.ne_notEnabled
  | semaDown s => exact he.semaDownInternal h.prio
  | semaDownLoop s m =>
    cases m with
    | none => exact he.semaDownLoop h.prio
    | some l =>
      exact he.semaDownLoop (hmod (fun th => { th with waitingLock := none }) (h.prio k.current))
  | semaTryDown s => exact .of_ok
  | semaUp s => exact he.semaUpInternal h.prio
  | lockInit l => exact .ite (fun _ => .of_ok) fun _ => .of_ne he.ne_notEnabled
  | lockAcquire l =>
    refine (he.assert (by simp)).bind fun _ _ => he.lockHeld.bind fun _ _ => ?_
    refine (he.assert (by simp)).bind fun _ _ => he.threadCurrent.bind fun c hc => ?_
    obtain ⟨_, _, rfl⟩ := threadCurrent_eq_ok.mp hc
    refine Avoids.bind ?_ fun k₁ h₁ => he.semaDownInternal fun t => ?_
    · rcases he with rfl | rfl
      · exact avoids_remove_donate _ _ _
      · exact absurd rfl (hl rfl l)
    · rcases (donate_prio _ h₁).2 t with ht | ht
      · exact ht ▸ h.prio t
      · exact ht ▸ h.prio k.current
  | lockTryAcquire l =>
    exact he.lockHeld.bind fun _ _ => (he.assert (by simp)).bind fun _ _ => .of_ok
  | lockTryAcquired l => exact he.threadCurrent.bind fun _ _ => .of_ok
  | lockRelease l =>
    refine he.lockHeld.bind fun _ _ => (he.assert (by simp)).bind fun _ _ => ?_
    refine he.threadCurrent.bind fun _ _ => he.semaUpInternal ?_
    exact hmod (fun th => { th with
      priority := releasePriority l (k.threads k.current) k
      heldLocks := th.heldLocks.filter (· ≠ l) }) (releasePriority_nonneg_iff.mpr hf)
  | condInit c => exact .ite (fun _ => .of_ok) fun _ => .of_ne he.ne_notEnabled
  | condWait c l =>
    refine (he.assert (by simp)).bind fun _ _ => he.lockHeld.bind fun _ _ => ?_
    exact (he.assert (by simp)).bind fun _ _ => .of_ok
  | condPushBack c => exact .of_ok
  | condSignal c l =>
    refine (he.assert (by simp)).bind fun _ _ => he.lockHeld.bind fun _ _ => ?_
    refine (he.assert (by simp)).bind fun _ _ => .ite (fun _ => .of_ok) fun hne => ?_
    obtain ⟨t, _, hs⟩ := exists_scanMax k.elemPriority (-1) hne fun x _ => by
      have := h.elem x
      omega
    rw [hs]
    exact .of_ok
  | condBroadcast c l => exact .of_ok
  | idleBlock =>
    refine he.threadBlock fun t => ?_
    rw [(sameKeys_pushFrames k k.current [.idleHalt]).prio]
    exact h.prio t
  | idleHalt => exact .of_ok

/-- The tail of a switch uses no null pointer. -/
theorem avoids_tail {prev : Option ThreadRef} (he : e.UsesNull) :
    Avoids e (threadScheduleTail prev k) := by
  unfold threadScheduleTail
  cases prev with
  | none => exact .of_ok
  | some p =>
    refine .ite (fun _ => (he.assert (by simp)).bind fun _ _ => ?_) fun _ => .of_ok
    exact (he.assert (by simp)).bind fun _ _ => .of_ok

/-- No event that leaves no negative priority makes a search come up empty. -/
theorem Eligible.avoids_step {ev : Event} (h : Eligible k) (he : e.UsesNull)
    (hok : k.LeavesPriority ev) (hl : e = .undefined → ∀ l, ev.runs k ≠ some (.lockAcquire l)) :
    Avoids e (step ev k) := by
  have htick : Avoids e (timerInterrupt k) := by
    refine (he.assert (by simp)).bind fun _ _ => he.threadCurrent.bind fun _ _ => ?_
    exact .ite (fun _ => he.threadYield h.prio) fun _ => .of_ok
  unfold step
  split
  next => exact avoids_tail he
  next => exact .of_ok
  next page f rest _ hf =>
    have hruns : Event.runs (.run page) k = some f := by simp [Event.runs, Kernel.next, hf]
    have hset : Eligible (k.setFrames k.current rest) :=
      h.of_sameKeys (sameKeys_modThread k k.current (fun th => { th with frames := rest }) fun _ => rfl)
    exact hset.avoids_exec he (Frame.leavesPriority_setFrames.mpr (hok f hruns))
      fun hu l hfl => hl hu l (hruns.trans (congrArg some hfl))
  next => exact htick
  next => exact .ite (fun _ => .of_ne he.ne_notEnabled) fun _ => htick
  next => exact .of_ne he.ne_notEnabled

/-! ## A negative priority -/

/-- A thread that yields with a negative priority stays on `ready_list`: whoever is taken has a
higher one. -/
theorem left_behind (hneg : k.prio k.current < 0) (hi : k.current ≠ k.idleThread)
    (hy : threadYield k = .ok k') : k.current ∈ k'.readyList ∧ k'.prio k.current < 0 := by
  have hprio := (threadYield_same hy).prio
  rw [hprio]
  refine ⟨?_, hneg⟩
  obtain ⟨_, _, hs⟩ := threadYield_eq_ok hy
  have hready : k.current ∈ k.requeue.readyList := by
    unfold Kernel.requeue
    rw [if_pos hi]
    exact List.mem_append_right _ List.mem_cons_self
  rcases awake_schedule hs _ hready with hm | hcur
  · exact hm
  · obtain ⟨k₁, k₂, next, hwake, hnext, _, _, rfl⟩ := schedule_eq_ok hs
    have hne : k₁.readyList ≠ [] :=
      List.ne_nil_of_mem (awake_wakeSleepers _ hwake _ hready)
    have hpos := prio_of_nextThreadToRun hnext hne
    rw [(wakeSleepers_same _ hwake).1.prio, (same_requeue k).prio] at hpos
    rw [hcur] at hneg
    exact absurd hneg (not_lt.mpr hpos)

/-- A READY thread of negative priority is never taken. -/
theorem not_served {t : ThreadRef} (ht : t ∈ k.readyList) (hneg : k.prio t < 0) :
    ¬ k.AlwaysServes := by
  intro h
  have hpos := prio_of_nextThreadToRun (h.eligible t ht) (List.cons_ne_nil _ _)
  exact absurd hneg (not_lt.mpr hpos)

/-- A thread of negative priority that goes up yields, and is on the ready list with it. -/
theorem left_behind_semaUp {s : SemaRef} {m : Option LockRef} (hneg : k.prio k.current < 0)
    (hi : k.current ≠ k.idleThread) (hu : semaUpInternal s m k = .ok k') :
    k.current ∈ k'.readyList ∧ k'.prio k.current < 0 := by
  obtain ⟨k₁, hw, hy⟩ := semaUpInternal_eq_ok hu
  have hprio : k₁.prio = k.prio := (sameKeys_semaWake hw).prio
  have hidle : k₁.idleThread = k.idleThread := (quiet_semaWake hw).idleThread
  have hcur : k₁.current = k.current := by
    obtain ⟨_, rfl⟩ | ⟨top, k₂, _, hub, rfl⟩ := semaWake_eq_ok hw
    · rfl
    · obtain ⟨_, _, rfl⟩ := threadUnblock_eq_ok hub
      cases m <;> rfl
  rw [← hcur]
  refine left_behind (k := semaIncrement s k₁) ?_ ?_ hy
  · show k₁.prio k₁.current < 0
    rw [hprio, hcur]
    exact hneg
  · show k₁.current ≠ k₁.idleThread
    rw [hcur, hidle]
    exact hi

/-- A frame that leaves its thread with a negative priority leaves it on `ready_list`. -/
theorem Eligible.not_served_of_exec (h : Eligible k)
    (hi : f ≠ .idleBlock → f ≠ .idleHalt → k.current ≠ k.idleThread) (hf : ¬ f.LeavesPriority k)
    (hx : exec page k f = .ok k') : ¬ k'.AlwaysServes := by
  cases f with
  | threadSetPriority p =>
    have hneg : newPriority (k.threads k.current) p < 0 :=
      not_le.mp fun hp => hf ((newPriority_nonneg_iff (h.prio _)).mp hp)
    have hset : (k.modThread k.current fun th => { th with
        priority := newPriority (k.threads k.current) p, basePriority := p }).prio k.current < 0 := by
      rw [prio_of_modThread, Function.update_self]
      exact hneg
    obtain ⟨hm, hp⟩ := left_behind hset (hi (by simp) (by simp)) (threadSetPriority_eq_ok hx)
    exact not_served hm hp
  | lockRelease l =>
    have hneg : releasePriority l (k.threads k.current) k < 0 :=
      not_le.mp fun hp => hf (releasePriority_nonneg_iff.mp hp)
    have hset : (lockReleased l k).prio k.current < 0 := by
      show (k.modThread k.current fun th => { th with
        priority := releasePriority l (k.threads k.current) k
        heldLocks := th.heldLocks.filter (· ≠ l) }).prio k.current < 0
      rw [prio_of_modThread, Function.update_self]
      exact hneg
    obtain ⟨hm, hp⟩ := left_behind_semaUp hset (hi (by simp) (by simp)) (lockRelease_eq_ok hx).2
    exact not_served hm hp
  | _ => exact absurd trivial hf

/-- A step that leaves a negative priority leaves a queue that cannot serve. -/
theorem Eligible.not_served_of_step {ev : Event} (h : Eligible k) (hk : Coherent k)
    (hnot : ¬ k.LeavesPriority ev) (hx : step ev k = .ok k') : ¬ k'.AlwaysServes := by
  obtain ⟨f, hruns, hf⟩ : ∃ f, ev.runs k = some f ∧ ¬ f.LeavesPriority k := by
    simpa [Kernel.LeavesPriority] using hnot
  obtain ⟨prev, rfl, ht, hx⟩ | ⟨c, rfl, hn, _, rfl⟩ | ⟨page, g, rest, rfl, hn, hfr, hx⟩ |
    ⟨rfl, hn, hx, _⟩ := step_eq_ok hx
  · cases hruns
  · cases hruns
  · obtain rfl : g = f := by simpa [Event.runs, Kernel.next, hfr] using hruns
    have hset : Eligible (k.setFrames k.current rest) :=
      h.of_sameKeys (sameKeys_modThread k k.current (fun th => { th with frames := rest })
        fun _ => rfl)
    have hidle : g ≠ .idleBlock → g ≠ .idleHalt → k.current ≠ k.idleThread := by
      intro h₁ h₂ he
      exact ((hk.runs hfr).idle he).elim h₁ h₂
    exact hset.not_served_of_exec hidle (fun hl => hf (Frame.leavesPriority_setFrames.mp hl)) hx
  · cases hruns

/-! ## Every run -/

/-- In every run in which no step leaves its thread with a negative priority, in every state reached
the three searches find a member of their list and no READY thread is passed over for good; no
event comes to a null or unset element, but for a `lock_acquire` whose chain of holders leads to a
thread that is gone; and a step that does leave a negative priority ends in a state in which a
READY thread is never taken. -/
theorem always_serves (b : Boot) (k : Kernel)
    (h : ReachWhere (Steps step) Kernel.LeavesPriority (afterThreadStart b) k) :
    k.AlwaysServes ∧
    (∀ ev, k.LeavesPriority ev → step ev k ≠ .error (.panic .listRemoveInterior) ∧
      (step ev k = .error .undefined → ∃ l, ev.runs k = some (.lockAcquire l))) ∧
    ∀ ev k', ¬ k.LeavesPriority ev → step ev k = .ok k' → ¬ k'.AlwaysServes := by
  have he := reach_eligible h
  have hk := reach_coherent h.reach
  refine ⟨he.alwaysServes hk (reach_intr h.reach), fun ev hok => ⟨?_, fun hu => ?_⟩,
    fun ev k' hnot hx => he.not_served_of_step hk hnot hx⟩
  · exact he.avoids_step (.inl rfl) hok fun hne => by cases hne
  · by_contra hnone
    exact he.avoids_step (.inr rfl) hok (fun _ l hl => hnone ⟨l, hl⟩) hu

/-! ## Two runs -/

/-- The only thread in the system sets its priority to `-1`: `ready_list` holds it and nobody else,
and `next_thread_to_run` removes a null element. -/
theorem nobody_eligible : ¬ ∀ (b : Boot) (k : Kernel),
    Reach (Steps step) (afterThreadStart b) k →
    k.AlwaysServes ∧ ∀ ev, step ev k ≠ .error (.panic .listRemoveInterior) := by
  intro hall
  obtain ⟨k, hr, hp⟩ := exists_of_replay step (fun _ _ => true)
    [.call (.threadSetPriority (-1))] (afterThreadStart smallBoot)
    (fun k => match step (.run none) k with
      | .error e => decide (e = .panic .listRemoveInterior)
      | .ok _ => false) (by decide)
  refine (hall smallBoot k hr.reach).2 (.run none) ?_
  split at hp
  next e hstep => exact of_decide_eq_true hp ▸ hstep
  next => cases hp

/-- A test that implies `Kernel.LeavesPriority`. -/
def Kernel.leavesPriorityTest (k : Kernel) (e : Event) : Bool :=
  match e.runs k with
  | some (.threadSetPriority p) => decide (0 ≤ p)
  | some (.lockRelease _) => decide (0 ≤ k.base k.current)
  | _ => true

/-- The test decides the condition on the event. -/
theorem leavesPriority_of_test {ev : Event} (h : k.leavesPriorityTest ev = true) :
    k.LeavesPriority ev := by
  intro f hf
  unfold Kernel.leavesPriorityTest at h
  rw [hf] at h
  cases f with
  | threadSetPriority p => exact .inl (of_decide_eq_true h)
  | lockRelease l => exact .inl (of_decide_eq_true h)
  | _ => trivial

/-- `main` creates a thread of priority 20 and lowers its own priority to 10: the new thread runs,
and `main` is the one to be taken next. -/
theorem always_serves_lowered : ∃ k,
    ReachWhere (Steps step) Kernel.LeavesPriority (afterThreadStart smallBoot) k ∧ k.current = 2 ∧
      k.prio 0 = 10 ∧ nextThreadToRun k = .ok (0, { k with readyList := [] }) := by
  obtain ⟨k, hr, hp⟩ := exists_of_replay step Kernel.leavesPriorityTest
    (createEvents 2 20 ++ [.call (.threadSetPriority 10), .run none]) (afterThreadStart smallBoot)
    (fun k => k.current == 2 && k.prio 0 == 10 && k.readyList == [0]) (by decide +kernel)
  simp only [Bool.and_eq_true, beq_iff_eq] at hp
  obtain ⟨⟨hcur, hprio⟩, hready⟩ := hp
  have hr' := hr.weaken fun _ _ h => leavesPriority_of_test h
  obtain ⟨t, ht, hn⟩ := (always_serves smallBoot k hr').1.next (by rw [hready]; simp)
  rw [hready] at ht hn
  cases List.mem_singleton.mp ht
  exact ⟨k, hr', hcur, hprio, by simpa using hn⟩

end Pintos.Threads
