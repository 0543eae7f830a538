import Pintos.Lib.Donation
import Pintos.Threads.StrictPriority

/-!
# Priority donation: the invariant

`Donated k` ties the cached priorities of `k` to the locks. Its heart is `Exact`, from the
library: every priority is the largest of the base priority and the priorities of the threads
queued on the locks held. Around it stands the bookkeeping that the updates rely on: what a
lock records (`max_waiter_priority`, `holder`, the value of its semaphore), what a thread records
(`held_locks`, `waiting_lock`), and, for a lock that has been released and not yet taken again,
a woken thread that is at least as important as all threads still queued on it.

Here are the definitions and the steps that leave all of this alone.
-/

namespace Pintos.Threads

open Pintos.Lib

variable {page : Option ThreadRef} {k k' : Kernel} {f : Frame}

/-- `base_priority`. -/
def Kernel.base (k : Kernel) (t : ThreadRef) : Int := (k.threads t).basePriority

/-- The thread is queued on the lock. -/
def Kernel.Blocked (k : Kernel) (t : ThreadRef) (l : LockRef) : Prop := t ∈ k.waiters l

/-- `waiting_lock`. -/
def Kernel.waitingLock (k : Kernel) (t : ThreadRef) : Option LockRef := (k.threads t).waitingLock

/-- The value of the semaphore of a lock. -/
def Kernel.lockValue (k : Kernel) (l : LockRef) : Nat := (k.semas (.lock l)).value

/-- `max_waiter_priority`. -/
def Kernel.recorded (k : Kernel) (l : LockRef) : Int := (k.locks l).maxWaiterPriority

/-- The frame a thread runs next. -/
def Kernel.next (k : Kernel) (t : ThreadRef) : Option Frame := (k.threads t).frames.head?

/-- The lock a frame resumes the wait for. -/
def Frame.awaits : Frame → Option LockRef
  | .semaDownLoop _ m => m
  | _ => none

/-- The frames inside a lock operation: the return from a wait for a lock, and the end of a
successful `lock_try_acquire`. -/
def Frame.isReturn : Frame → Bool
  | .semaDownLoop _ (some _) => true
  | .lockTryAcquired _ => true
  | _ => false

/-- A frame that returns from no lock awaits none. -/
theorem Frame.awaits_of_plain {g : Frame} (hg : g.isReturn = false) : g.awaits = none := by
  cases g with
  | semaDownLoop s m =>
    cases m with
    | none => rfl
    | some l => cases hg
  | _ => rfl

/-- The semaphore of a lock is downed and upped by the operations of the lock. -/
def Frame.Shaped : Frame → Prop
  | .semaDown s | .semaUp s | .semaDownLoop s none => ∀ l, s ≠ .lock l
  | .semaDownLoop s (some l) => s = .lock l
  | _ => True

/-- The return point of a wait for a lock. -/
abbrev Frame.awaiting (l : LockRef) : Frame := .semaDownLoop (.lock l) (some l)

/-- The donation invariant; see the head of this module. -/
structure Donated (k : Kernel) : Prop where
  exact : Exact k.holder k.Blocked k.prio k.base k.Live
  baseNonneg : ∀ {t}, k.Live t → 0 ≤ k.base t
  recorded : ∀ l, k.recorded l = foldMax k.prio (-1) (k.waiters l).reverse
  holderLive : ∀ {l t}, k.holder l = some t → k.Live t ∧ (k.threads t).status ≠ .dying
  held : ∀ {l t}, k.holder l = some t → k.lockValue l = 0
  free : ∀ {l}, k.holder l = none →
    k.lockValue l = 1 ∨ (k.lockValue l = 0 ∧ k.next k.current = some (.lockTryAcquired l))
  heldLocks : ∀ {t l}, k.Live t → l ∈ (k.threads t).heldLocks → k.holder l = some t
  waiting : ∀ t, k.waitingLock t = (k.next t).bind Frame.awaits
  queued : ∀ {t l}, t ∈ k.waiters l → k.next t = some (.awaiting l)
  shaped : ∀ {t g}, g ∈ (k.threads t).frames → g.Shaped
  behind : ∀ {t g}, g ∈ (k.threads t).frames.tail → g.isReturn = false
  gap : ∀ {t l}, k.next t = some (.lockTryAcquired l) → t = k.current ∧
    k.scheduleTail = none ∧ k.holder l = none ∧ k.lockValue l = 0 ∧
    ∀ w ∈ k.waiters l, k.prio w ≤ k.prio t
  woken : ∀ {l}, k.lockValue l = 1 → k.waiters l ≠ [] →
    ∃ t, (t ∈ k.readyList ∨ t = k.current) ∧ k.next t = some (.awaiting l) ∧
      ∀ w ∈ k.waiters l, k.prio w ≤ k.prio t

/-! ## Steps that touch no lock -/

/-- Locks, and what threads record of them, are as they were, and so are all priorities. -/
structure SameLocks (k k' : Kernel) : Prop where
  prio : ∀ t, k'.prio t = k.prio t
  base : ∀ t, k'.base t = k.base t
  heldLocks : ∀ t, (k'.threads t).heldLocks = (k.threads t).heldLocks
  waitingLock : ∀ t, k'.waitingLock t = k.waitingLock t
  live : ∀ t, k'.Live t ↔ k.Live t
  locks : ∀ l, k'.locks l = k.locks l
  semas : ∀ l, k'.semas (.lock l) = k.semas (.lock l)

/-- Locks that two steps leave alone they leave alone together. -/
theorem SameLocks.trans {k₁ k₂ k₃ : Kernel} (h : SameLocks k₁ k₂) (h' : SameLocks k₂ k₃) :
    SameLocks k₁ k₃ :=
  ⟨fun t => (h'.prio t).trans (h.prio t), fun t => (h'.base t).trans (h.base t),
    fun t => (h'.heldLocks t).trans (h.heldLocks t),
    fun t => (h'.waitingLock t).trans (h.waitingLock t), fun t => (h'.live t).trans (h.live t),
    fun l => (h'.locks l).trans (h.locks l), fun l => (h'.semas l).trans (h.semas l)⟩

/-- What moves threads between queues leaves the locks alone. -/
theorem Same.sameLocks (h : Same k k') : SameLocks k k' where
  prio t := (h.thread t).priority
  base t := (h.thread t).basePriority
  heldLocks t := (h.thread t).heldLocks
  waitingLock t := (h.thread t).waitingLock
  live t := by
    unfold Kernel.Live
    rw [(h.thread t).magic]
  locks l := by rw [h.locks]
  semas l := by rw [h.semas]

theorem SameLocks.holder (h : SameLocks k k') (l : LockRef) : k'.holder l = k.holder l := by
  unfold Kernel.holder
  rw [h.locks]

theorem SameLocks.waiters (h : SameLocks k k') (l : LockRef) : k'.waiters l = k.waiters l := by
  unfold Kernel.waiters
  rw [h.semas]

theorem SameLocks.lockValue (h : SameLocks k k') (l : LockRef) :
    k'.lockValue l = k.lockValue l := by
  unfold Kernel.lockValue
  rw [h.semas]

theorem SameLocks.recorded (h : SameLocks k k') (l : LockRef) : k'.recorded l = k.recorded l := by
  unfold Kernel.recorded
  rw [h.locks]

/-- Exactness reads what `SameLocks` keeps. -/
theorem SameLocks.exact (h : SameLocks k k') (he : Exact k.holder k.Blocked k.prio k.base k.Live) :
    Exact k'.holder k'.Blocked k'.prio k'.base k'.Live := by
  have hblocked : ∀ t l, k'.Blocked t l ↔ k.Blocked t l := fun t l => by
    unfold Kernel.Blocked
    rw [h.waiters]
  refine ⟨fun t ht => ?_, ?_, fun t ht => ?_⟩
  · rw [h.prio, h.base]
    exact he.base_le t ((h.live t).mp ht)
  · intro l t w hl hb
    rw [h.holder] at hl
    rw [h.prio, h.prio]
    exact he.bound hl ((hblocked w l).mp hb)
  · rw [h.prio, h.base]
    refine (he.attained t ((h.live t).mp ht)).imp id ?_
    rintro ⟨l, w, hl, hb, hp⟩
    exact ⟨l, w, (h.holder l).trans hl, (hblocked w l).mpr hb, (h.prio w).trans hp⟩

/-- A record that was right stays right. -/
theorem SameLocks.recorded_eq (h : SameLocks k k') {l : LockRef}
    (hr : k.recorded l = foldMax k.prio (-1) (k.waiters l).reverse) :
    k'.recorded l = foldMax k'.prio (-1) (k'.waiters l).reverse := by
  have hprio : k'.prio = k.prio := funext h.prio
  rw [h.recorded, h.waiters, hprio]
  exact hr

/-- A step that touches no lock and moves the running thread from one plain piece of code to
another. -/
theorem Donated.of_sameLocks (h : Donated k) (hs : SameLocks k k')
    (hframes : ∀ t, t ≠ k.current → (k'.threads t).frames = (k.threads t).frames)
    (hold : ∀ g, k.next k.current = some g → g.isReturn = false)
    (hnew : ∀ g ∈ (k'.threads k.current).frames, g.isReturn = false ∧ g.Shaped)
    (hwait : k.waitingLock k.current = none)
    (hdying : ∀ {l t}, k.holder l = some t → (k'.threads t).status ≠ .dying)
    (hawake : ∀ t ∈ k.readyList, t ∈ k'.readyList ∨ t = k'.current) : Donated k' := by
  have hnext : ∀ t, t ≠ k.current → k'.next t = k.next t := fun t ht => by
    unfold Kernel.next
    rw [hframes t ht]
  have hcur : ∀ g, k'.next k.current = some g → g.isReturn = false := fun g hg =>
    (hnew g (List.mem_of_mem_head? hg)).1
  -- neither before nor after is the running thread at a return point
  have hne : ∀ {t g}, k.next t = some g → g.isReturn = true → t ≠ k.current := by
    rintro t g hg hr rfl
    rw [hold g hg] at hr
    cases hr
  have hne' : ∀ {t g}, k'.next t = some g → g.isReturn = true → t ≠ k.current := by
    rintro t g hg hr rfl
    rw [hcur g hg] at hr
    cases hr
  constructor
  case exact => exact hs.exact h.exact
  case baseNonneg =>
    intro t ht
    rw [hs.base]
    exact h.baseNonneg ((hs.live t).mp ht)
  case recorded => exact fun l => hs.recorded_eq (h.recorded l)
  case holderLive =>
    intro l t hl
    rw [hs.holder] at hl
    exact ⟨(hs.live t).mpr (h.holderLive hl).1, hdying hl⟩
  case held =>
    intro l t hl
    rw [hs.holder] at hl
    rw [hs.lockValue]
    exact h.held hl
  case free =>
    intro l hl
    rw [hs.holder] at hl
    rw [hs.lockValue]
    rcases h.free hl with hv | ⟨_, hg⟩
    · exact .inl hv
    · cases hold _ hg
  case heldLocks =>
    intro t l ht hl
    rw [hs.heldLocks] at hl
    rw [hs.holder]
    exact h.heldLocks ((hs.live t).mp ht) hl
  case waiting =>
    intro t
    rw [hs.waitingLock]
    by_cases ht : t = k.current
    · subst ht
      rw [hwait]
      cases hn : k'.next k.current with
      | none => rfl
      | some g =>
        exact (Frame.awaits_of_plain (hcur g hn)).symm
    · rw [hnext t ht]
      exact h.waiting t
  case queued =>
    intro t l ht
    rw [hs.waiters] at ht
    have hq := h.queued ht
    rw [hnext t (hne hq rfl)]
    exact hq
  case shaped =>
    intro t g hm
    by_cases ht : t = k.current
    · subst ht
      exact (hnew g hm).2
    · rw [hframes t ht] at hm
      exact h.shaped hm
  case behind =>
    intro t g hg
    by_cases ht : t = k.current
    · subst ht
      exact (hnew g (List.mem_of_mem_tail hg)).1
    · rw [hframes t ht] at hg
      exact h.behind hg
  case gap =>
    intro t l hg
    have ht := hne' hg rfl
    rw [hnext t ht] at hg
    exact absurd (h.gap hg).1 ht
  case woken =>
    intro l hv hw
    rw [hs.lockValue] at hv
    rw [hs.waiters] at hw ⊢
    obtain ⟨t, hmem, hn, hle⟩ := h.woken hv hw
    have ht := hne hn rfl
    refine ⟨t, ?_, ?_, fun w hwm => ?_⟩
    · exact hawake t (hmem.resolve_right ht)
    · rw [hnext t ht]
      exact hn
    · rw [hs.prio, hs.prio]
      exact hle w hwm

/-- Threads, locks and their semaphores are all there is. -/
theorem SameLocks.of_eq (ht : ∀ t, k'.threads t = k.threads t) (hl : ∀ l, k'.locks l = k.locks l)
    (hs : ∀ l, k'.semas (.lock l) = k.semas (.lock l)) : SameLocks k k' where
  prio t := by unfold Kernel.prio; rw [ht]
  base t := by unfold Kernel.base; rw [ht]
  heldLocks t := by rw [ht]
  waitingLock t := by unfold Kernel.waitingLock; rw [ht]
  live t := by unfold Kernel.Live; rw [ht]
  locks := hl
  semas := hs

theorem SameLocks.congr {k₁ : Kernel} (h : SameLocks k k₁) (ht : ∀ t, k'.threads t = k₁.threads t)
    (hl : ∀ l, k'.locks l = k₁.locks l) (hs : ∀ l, k'.semas (.lock l) = k₁.semas (.lock l)) :
    SameLocks k k' := h.trans (.of_eq ht hl hs)

/-- What an update of a thread must keep. -/
theorem sameLocks_modThread (k : Kernel) (t : ThreadRef) (g : Thread → Thread)
    (hg : ∀ th, (g th).priority = th.priority ∧ (g th).basePriority = th.basePriority ∧
      (g th).heldLocks = th.heldLocks ∧ (g th).waitingLock = th.waitingLock ∧
      (g th).magic = th.magic) : SameLocks k (k.modThread t g) := by
  have key : ∀ u, ((k.modThread t g).threads u).priority = (k.threads u).priority ∧
      ((k.modThread t g).threads u).basePriority = (k.threads u).basePriority ∧
      ((k.modThread t g).threads u).heldLocks = (k.threads u).heldLocks ∧
      ((k.modThread t g).threads u).waitingLock = (k.threads u).waitingLock ∧
      ((k.modThread t g).threads u).magic = (k.threads u).magic := by
    intro u
    rw [Kernel.modThread_threads]
    split
    next hu =>
      rw [hu]
      exact hg _
    next => exact ⟨rfl, rfl, rfl, rfl, rfl⟩
  refine ⟨fun u => (key u).1, fun u => (key u).2.1, fun u => (key u).2.2.1,
    fun u => (key u).2.2.2.1, fun u => ?_, fun _ => rfl, fun _ => rfl⟩
  unfold Kernel.Live
  rw [(key u).2.2.2.2]

theorem sameLocks_pushFrames (k : Kernel) (t : ThreadRef) (fs : List Frame) :
    SameLocks k (k.pushFrames t fs) :=
  sameLocks_modThread k t _ fun _ => ⟨rfl, rfl, rfl, rfl, rfl⟩

theorem setSema_lock (k : Kernel) {s : SemaRef} (v : Semaphore) (hs : ∀ l, s ≠ .lock l)
    (l : LockRef) : (k.setSema s v).semas (.lock l) = k.semas (.lock l) :=
  Function.update_of_ne (hs l).symm _ _

/-- A change of a semaphore that is no lock's leaves the locks alone. -/
theorem sameLocks_setSema (k : Kernel) {s : SemaRef} (v : Semaphore) (hs : ∀ l, s ≠ .lock l) :
    SameLocks k (k.setSema s v) :=
  .of_eq (fun _ => rfl) (fun _ => rfl) (setSema_lock k v hs)

/-- So does waiting at such a semaphore. -/
theorem sameLocks_semaDownLoop {s : SemaRef} (hs : ∀ l, s ≠ .lock l)
    (hd : semaDownLoop s none k = .ok k') : SameLocks k k' := by
  obtain ⟨_, hb⟩ | ⟨_, rfl⟩ := semaDownLoop_eq_ok hd
  · exact ((sameLocks_setSema k _ hs).trans (sameLocks_pushFrames _ _ _)).trans
      (threadBlock_same hb).sameLocks
  · exact sameLocks_setSema k _ hs

/-- So does going up on one. -/
theorem sameLocks_semaUpInternal {s : SemaRef} (hs : ∀ l, s ≠ .lock l)
    (hu : semaUpInternal s none k = .ok k') : SameLocks k k' := by
  obtain ⟨k₁, hw, hy⟩ := semaUpInternal_eq_ok hu
  have h₁ : SameLocks k k₁ := by
    obtain ⟨_, rfl⟩ | ⟨top, k₂, _, hub, rfl⟩ := semaWake_eq_ok hw
    · exact .of_eq (fun _ => rfl) (fun _ => rfl) fun _ => rfl
    · exact (sameLocks_setSema k _ hs).trans (threadUnblock_same hub).sameLocks
  have hinc : SameLocks k₁ (semaIncrement s k₁) := sameLocks_setSema k₁ _ hs
  exact (h₁.trans hinc).trans (threadYield_same hy).sameLocks

/-- The frames that change a priority or a lock. -/
def Frame.isLockOp : Frame → Bool
  | .threadSetPriority _ | .initThread _ _ | .semaDownLoop _ (some _) | .lockInit _
  | .lockAcquire _ | .lockTryAcquire _ | .lockTryAcquired _ | .lockRelease _ => true
  | _ => false

/-- All other frames leave locks and priorities alone. -/
theorem exec_sameLocks (hx : exec page k f = .ok k') (hf : f.isLockOp = false)
    (hshape : f.Shaped) : SameLocks k k' := by
  cases f with
  | threadSetPriority p => cases hf
  | initThread t p => cases hf
  | lockInit l => cases hf
  | lockAcquire l => cases hf
  | lockTryAcquire l => cases hf
  | lockTryAcquired l => cases hf
  | lockRelease l => cases hf
  | threadYield => exact (threadYield_same hx).sameLocks
  | threadYieldForSeconds e =>
    have hset := sameLocks_modThread k k.current (fun th => { th with endTick := e })
      fun _ => ⟨rfl, rfl, rfl, rfl, rfl⟩
    refine SameLocks.trans ?_ (threadBlock_same (threadYieldForSeconds_eq_ok hx).2).sameLocks
    exact hset.congr (fun _ => rfl) (fun _ => rfl) fun _ => rfl
  | timerSleep n =>
    cases hx
    exact sameLocks_pushFrames k _ _
  | threadExit =>
    have hset := sameLocks_modThread k k.current (fun th => { th with status := .dying })
      fun _ => ⟨rfl, rfl, rfl, rfl, rfl⟩
    refine SameLocks.trans ?_ (schedule_same (threadExit_eq_ok hx)).sameLocks
    exact hset.congr (fun _ => rfl) (fun _ => rfl) fun _ => rfl
  | threadCreate p =>
    cases hx
    exact sameLocks_pushFrames k _ _
  | bitmapScanAndFlip p =>
    obtain ⟨t, _, rfl⟩ | rfl := bitmapScanAndFlip_eq_ok hx
    · exact (sameLocks_pushFrames k k.current _).congr (fun _ => rfl) (fun _ => rfl) fun _ => rfl
    · exact sameLocks_pushFrames k _ _
  | allocateTid t =>
    cases hx
    exact (sameLocks_pushFrames k k.current _).congr (fun _ => rfl) (fun _ => rfl) fun _ => rfl
  | threadUnblock t tid =>
    have hset := sameLocks_modThread k t (fun th => { th with tid := tid, endTick := -1 })
      fun _ => ⟨rfl, rfl, rfl, rfl, rfl⟩
    exact hset.trans (threadUnblock_same hx).sameLocks
  | semaInit s v =>
    obtain ⟨_, rfl⟩ := execSemaInit_eq_ok hx
    exact sameLocks_setSema k _ fun _ => by simp
  | semaDown s => exact sameLocks_semaDownLoop hshape (semaDownInternal_eq_ok hx)
  | semaDownLoop s m =>
    cases m with
    | none => exact sameLocks_semaDownLoop hshape hx
    | some l => cases hf
  | semaTryDown s =>
    cases hx
    unfold semaTryDown
    split
    · exact sameLocks_setSema k _ fun _ => by simp
    · exact .of_eq (fun _ => rfl) (fun _ => rfl) fun _ => rfl
  | semaUp s => exact sameLocks_semaUpInternal hshape hx
  | condInit c =>
    cases execCondInit_eq_ok hx
    exact .of_eq (fun _ => rfl) (fun _ => rfl) fun _ => rfl
  | condWait c l =>
    obtain ⟨_, rfl⟩ := condWait_eq_ok hx
    have hset := sameLocks_setSema k (s := .waiter k.current) { value := 0, waiters := [] }
      fun _ => by simp
    exact (hset.trans (sameLocks_pushFrames _ k.current _)).congr (fun _ => rfl) (fun _ => rfl)
      fun _ => rfl
  | condPushBack c =>
    cases hx
    exact .of_eq (fun _ => rfl) (fun _ => rfl) fun _ => rfl
  | condSignal c l =>
    obtain ⟨_, rfl⟩ | ⟨top, _, rfl⟩ := condSignal_eq_ok hx
    · exact .of_eq (fun _ => rfl) (fun _ => rfl) fun _ => rfl
    · exact (sameLocks_pushFrames k k.current _).congr (fun _ => rfl) (fun _ => rfl) fun _ => rfl
  | condBroadcast c l =>
    cases hx
    unfold condBroadcast
    split
    · exact .of_eq (fun _ => rfl) (fun _ => rfl) fun _ => rfl
    · exact sameLocks_pushFrames k _ _
  | idleBlock =>
    exact (sameLocks_pushFrames k k.current _).trans (threadBlock_same hx).sameLocks
  | idleHalt =>
    cases hx
    exact sameLocks_pushFrames k _ _

/-- What follows a frame that is no lock operation is plain code. -/
theorem Follows.plain {fs : List Frame} (h : Follows page k f fs) (hf : f.isLockOp = false)
    (hshape : f.Shaped) : ∀ g ∈ fs, g.isReturn = false ∧ g.Shaped := by
  cases h with
  | done _ => simp
  | init => cases hf
  | acquire => cases hf
  | tried => cases hf
  | down =>
    intro g hg
    rw [List.mem_singleton.mp hg]
    exact ⟨rfl, hshape⟩
  | @again s m =>
    intro g hg
    rw [List.mem_singleton.mp hg]
    cases m with
    | none => exact ⟨rfl, hshape⟩
    | some l => cases hf
  | _ => simp [Frame.isReturn, Frame.Shaped]

end Pintos.Threads
