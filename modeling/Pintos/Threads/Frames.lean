import Pintos.Threads.Footprint

/-!
# What a frame leaves behind

Running a frame takes it off the running thread's stack and puts the code it calls, up to the
next switch, in its place. `Follows` lists what that can be, frame by frame, and `exec_frames`
says that nothing else happens to anybody's frames. What the frames of a whole system satisfy
(`Framed`) is then a matter of `Follows` alone: the idle thread runs its own loop and nothing
else, a thread that exits has nothing left to do, and a page that is being made into a thread
is in the hands of one `thread_create`.
-/

namespace Pintos.Threads

open Pintos.Lib

/-! ## Donation changes priorities only -/

/-- `k'` is `k` up to priorities and the recorded priorities of locks. -/
structure Raised (k k' : Kernel) : Prop where
  threads : ∀ t, k'.threads t = { k.threads t with priority := (k'.threads t).priority }
  locks : ∀ l, k'.locks l = { k.locks l with maxWaiterPriority := (k'.locks l).maxWaiterPriority }
  rest : k' = { k with threads := k'.threads, locks := k'.locks }

theorem Raised.refl (k : Kernel) : Raised k k := ⟨fun _ => rfl, fun _ => rfl, rfl⟩

/-- Donations in turn are a donation. -/
theorem Raised.trans {k₁ k₂ k₃ : Kernel} (h : Raised k₁ k₂) (h' : Raised k₂ k₃) :
    Raised k₁ k₃ := by
  refine ⟨fun t => ?_, fun l => ?_, ?_⟩
  · rw [h'.threads t, h.threads t]
  · rw [h'.locks l, h.locks l]
  · rw [h'.rest, h.rest]

/-- A donation changes no holder. -/
theorem Raised.holder {k k' : Kernel} (h : Raised k k') (l : LockRef) :
    k'.holder l = k.holder l := by
  unfold Kernel.holder
  rw [h.locks l]

/-- A donation changes no semaphore. -/
theorem Raised.semas {k k' : Kernel} (h : Raised k k') : k'.semas = k.semas := by
  rw [h.rest]

/-- A donation does not switch threads. -/
theorem Raised.current {k k' : Kernel} (h : Raised k k') : k'.current = k.current := by
  rw [h.rest]

/-- One turn of the walk. -/
def Kernel.donateTo (k : Kernel) (cur : ThreadRef) (l : LockRef) (h : ThreadRef) : Kernel :=
  (k.setLock l { k.locks l with maxWaiterPriority := k.prio cur }).setPriority h (k.prio cur)

/-- One donation raises one priority and one lock. -/
theorem raised_donateTo (k : Kernel) (cur : ThreadRef) (l : LockRef) (h : ThreadRef) :
    Raised k (k.donateTo cur l h) := by
  refine ⟨fun t => ?_, fun l' => ?_, rfl⟩
  · simp only [Kernel.donateTo, Kernel.setPriority, Kernel.modThread_threads]
    by_cases ht : t = h
    · subst ht
      simp [Kernel.setLock]
    · simp [ht, Kernel.setLock]
  · by_cases hl : l' = l
    · subst hl
      simp [Kernel.donateTo, Kernel.setPriority, Kernel.modThread, Kernel.setLock]
    · simp [Kernel.donateTo, Kernel.setPriority, Kernel.modThread, Kernel.setLock, hl]

/-- The walk of `lock_acquire`, turn by turn: it ends at no lock, at a lock nobody holds, or
raises the holder and goes on from the lock the holder waits for. -/
theorem donate_eq_ok {cur : ThreadRef} {fuel : Nat} {l : LockRef} {k k' : Kernel}
    (h : donate cur fuel (some l) k = .ok k') :
    (k.holder l = none ∧ k' = k) ∨
      ∃ t n, k.holder l = some t ∧ fuel = n + 1 ∧ (k.threads t).magic = true ∧
        k.prio t < k.prio cur ∧
        donate cur n (k.threads t).waitingLock (k.donateTo cur l t) = .ok k' := by
  cases fuel with
  | zero => cases h
  | succ n =>
    unfold donate at h
    split at h
    next hl =>
      cases h
      exact .inl ⟨hl, rfl⟩
    next t hl =>
      split at h
      next => cases h
      next hmagic =>
        split at h
        next hlt =>
          refine .inr ⟨t, n, hl, rfl, by simpa using hmagic, hlt, ?_⟩
          simpa [Kernel.donateTo, Kernel.setPriority, Kernel.setLock] using h
        next => cases h

/-- The whole loop of `lock_acquire` raises, and does nothing else. -/
theorem donate_raised {cur : ThreadRef} : ∀ (fuel : Nat) {l : Option LockRef} {k k' : Kernel},
    donate cur fuel l k = .ok k' → Raised k k'
  | fuel, none, k, k', h => by
    unfold donate at h
    cases h
    exact .refl _
  | fuel, some l, k, k', h => by
    obtain ⟨_, rfl⟩ | ⟨t, n, _, rfl, _, _, h⟩ := donate_eq_ok h
    · exact .refl _
    · exact (raised_donateTo k cur l t).trans (donate_raised n h)

/-! ## Frames in, frames out -/

/-- Nobody's frames change. -/
def SameFrames (k k' : Kernel) : Prop := ∀ u, (k'.threads u).frames = (k.threads u).frames

/-- The running thread gets `fs` in front of what it has to do, and nobody else anything. -/
def Pushes (k k' : Kernel) (fs : List Frame) : Prop :=
  ∀ u, (k'.threads u).frames =
    if u = k.current then fs ++ (k.threads u).frames else (k.threads u).frames

/-- To leave the frames alone is to push none. -/
theorem SameFrames.pushes {k k' : Kernel} (h : SameFrames k k') : Pushes k k' [] := by
  intro u
  rw [h u]
  split <;> rfl

/-- What follows may leave the frames alone. -/
theorem Pushes.same {k k₁ k' : Kernel} {fs : List Frame} (h : Pushes k k₁ fs)
    (h' : SameFrames k₁ k') : Pushes k k' fs := fun u => (h' u).trans (h u)

/-- Two steps that leave the frames alone leave them alone. -/
theorem SameFrames.trans {k k₁ k' : Kernel} (h : SameFrames k k₁) (h' : SameFrames k₁ k') :
    SameFrames k k' := fun u => (h' u).trans (h u)

/-- What comes before may leave the frames alone, on the same thread. -/
theorem SameFrames.pushes_of {k k₁ k' : Kernel} {fs : List Frame} (h : SameFrames k k₁)
    (hc : k₁.current = k.current) (h' : Pushes k₁ k' fs) : Pushes k k' fs := by
  intro u
  rw [h' u, h u, hc]

/-- A step that moves threads between queues leaves the frames alone. -/
theorem Same.frames {k k' : Kernel} (h : Same k k') : SameFrames k k' :=
  fun u => (h.thread u).frames

/-- A donation leaves the frames alone. -/
theorem Raised.frames {k k' : Kernel} (h : Raised k k') : SameFrames k k' := by
  intro u
  rw [h.threads u]

/-- A change of another field leaves the frames alone. -/
theorem sameFrames_modThread (k : Kernel) (t : ThreadRef) (f : Thread → Thread)
    (h : ∀ th, (f th).frames = th.frames) : SameFrames k (k.modThread t f) := by
  intro u
  rw [Kernel.modThread_threads]
  split
  next hu => rw [hu, h]
  next => rfl

/-- `pushFrames` pushes what it is given. -/
theorem pushes_pushFrames (k : Kernel) (fs : List Frame) :
    Pushes k (k.pushFrames k.current fs) fs := by
  intro u
  unfold Kernel.pushFrames
  rw [Kernel.modThread_threads]
  by_cases hu : u = k.current
  · simp [hu]
  · simp [hu]

/-- The books of a lock are no frames. -/
theorem sameFrames_updateIfLock (m : Option LockRef) (k : Kernel) :
    SameFrames k (updateIfLock m k) := by
  cases m with
  | none => exact fun _ => rfl
  | some l => exact fun _ => rfl

/-- A thread that waits will test the semaphore again. -/
theorem pushes_semaEnqueue (s : SemaRef) (m : Option LockRef) (k : Kernel) :
    Pushes k (semaEnqueue s m k) [.semaDownLoop s m] := by
  cases m with
  | none => exact pushes_pushFrames (k.setSema s _) _
  | some l =>
    have h : SameFrames k (k.setWaitingLock k.current (some l)) :=
      sameFrames_modThread k _ _ fun _ => rfl
    exact h.pushes_of rfl (pushes_pushFrames (updateLockMaxPriority l
      ((k.setSema s _).setWaitingLock k.current (some l))) _)

/-- A thread that takes the semaphore has nothing left to do. -/
theorem sameFrames_semaTake (s : SemaRef) (m : Option LockRef) (k : Kernel) :
    SameFrames k (semaTake s m k) := by
  cases m with
  | none => exact fun _ => rfl
  | some l =>
    exact sameFrames_modThread k k.current
      (fun th => { th with heldLocks := th.heldLocks ++ [l] }) fun _ => rfl

/-- To take a lock off the holder's list leaves the frames alone. -/
theorem sameFrames_lockReleased (l : LockRef) (k : Kernel) : SameFrames k (lockReleased l k) :=
  sameFrames_modThread k k.current
    (fun th => { th with
      priority := releasePriority l (k.threads k.current) k
      heldLocks := th.heldLocks.filter (· ≠ l) }) fun _ => rfl

/-- Waking a waiter leaves its frames where they were. -/
theorem sameFrames_semaWake {s : SemaRef} {m : Option LockRef} {k k' : Kernel}
    (h : semaWake s m k = .ok k') : SameFrames k k' := by
  obtain ⟨_, rfl⟩ | ⟨top, k₁, _, h₁, rfl⟩ := semaWake_eq_ok h
  · exact fun _ => rfl
  · exact (threadUnblock_same h₁).frames.trans (sameFrames_updateIfLock m k₁)

/-- All of `sema_up_internal` leaves the frames where they were. -/
theorem sameFrames_semaUpInternal {s : SemaRef} {m : Option LockRef} {k k' : Kernel}
    (h : semaUpInternal s m k = .ok k') : SameFrames k k' := by
  obtain ⟨k₁, h₁, h₂⟩ := semaUpInternal_eq_ok h
  exact (sameFrames_semaWake h₁).trans (threadYield_same h₂).frames

/-- The loop of `sema_down_internal` either goes through or leaves its return point behind. -/
theorem pushes_semaDownLoop {s : SemaRef} {m : Option LockRef} {k k' : Kernel}
    (h : semaDownLoop s m k = .ok k') : Pushes k k' [] ∨ Pushes k k' [.semaDownLoop s m] := by
  obtain ⟨_, h⟩ | ⟨_, rfl⟩ := semaDownLoop_eq_ok h
  · exact .inr ((pushes_semaEnqueue s m k).same (threadBlock_same h).frames)
  · exact .inl (sameFrames_semaTake s m k).pushes

/-- The frames that can be run to an end with nothing put in their place. -/
def Frame.mayReturn : Frame → Bool
  | .timerSleep _ | .threadCreate _ | .bitmapScanAndFlip _ | .initThread _ _ | .allocateTid _
  | .condWait _ _ | .idleBlock | .idleHalt => false
  | _ => true

/-- The frames put in the place of a frame that has been run. -/
inductive Follows (page : Option ThreadRef) (k : Kernel) : Frame → List Frame → Prop
  | done {f : Frame} : f.mayReturn = true → Follows page k f []
  | sleep {n e : Int} : Follows page k (.timerSleep n) [.threadYieldForSeconds e]
  | create {p : Int} :
      Follows page k (.threadCreate p) [.lockAcquire .poolLock, .bitmapScanAndFlip p]
  | found {t : ThreadRef} {p : Int} : k.usedMap t = false →
      Follows page k (.bitmapScanAndFlip p) [.lockRelease .poolLock, .initThread t p]
  | full {p : Int} : Follows page k (.bitmapScanAndFlip p) [.lockRelease .poolLock]
  | init {t : ThreadRef} {p : Int} :
      Follows page k (.initThread t p) [.lockAcquire .tidLock, .allocateTid t]
  | tid {t : ThreadRef} : Follows page k (.allocateTid t)
      [.lockRelease .tidLock, .threadUnblock t k.nextTid, .threadYield]
  | down {s : SemaRef} : Follows page k (.semaDown s) [.semaDownLoop s none]
  | again {s : SemaRef} {m : Option LockRef} :
      Follows page k (.semaDownLoop s m) [.semaDownLoop s m]
  | acquire {l : LockRef} :
      Follows page k (.lockAcquire l) [.semaDownLoop (.lock l) (some l)]
  | tried {l : Nat} : Follows page k (.lockTryAcquire l) [.lockTryAcquired (.user l)]
  | wait {c : CondRef} {l : Nat} : Follows page k (.condWait c l)
      [.condPushBack c, .lockRelease (.user l), .semaDown (.waiter k.current), .lockAcquire (.user l)]
  | signal {c : CondRef} {l : Nat} {top : ThreadRef} :
      Follows page k (.condSignal c l) [.semaUp (.waiter top)]
  | broadcast {c : CondRef} {l : Nat} :
      Follows page k (.condBroadcast c l) [.condSignal c l, .condBroadcast c l]
  | idleBlock : Follows page k .idleBlock [.idleHalt]
  | idleHalt : Follows page k .idleHalt [.idleBlock]

/-- A frame that ends without a call leaves nothing behind. -/
theorem follows_done {page : Option ThreadRef} {k k' : Kernel} {f : Frame}
    (hf : f.mayReturn = true) (h : SameFrames k k') :
    ∃ fs, Follows page k f fs ∧ Pushes k k' fs := ⟨[], .done hf, h.pushes⟩

/-- Running a frame puts in its place what `Follows` lists, and touches no other frames. -/
theorem exec_frames {page : Option ThreadRef} {f : Frame} {k k' : Kernel}
    (h : exec page k f = .ok k')
    (hinit : ∀ t p, f = .initThread t p → t ≠ k.current ∧ (k.threads t).frames = []) :
    ∃ fs, Follows page k f fs ∧ Pushes k k' fs := by
  cases f with
  | threadYield => exact follows_done rfl (threadYield_same h).frames
  | threadYieldForSeconds e =>
    have hset := sameFrames_modThread k k.current (fun th => { th with endTick := e })
      fun _ => rfl
    exact follows_done rfl
      (hset.trans (threadBlock_same (threadYieldForSeconds_eq_ok h).2).frames)
  | timerSleep n =>
    cases h
    exact ⟨_, .sleep, pushes_pushFrames k _⟩
  | threadSetPriority p =>
    have hset := sameFrames_modThread k k.current (fun th => { th with
      priority := newPriority (k.threads k.current) p, basePriority := p }) fun _ => rfl
    exact follows_done rfl (hset.trans (threadYield_same (threadSetPriority_eq_ok h)).frames)
  | threadExit =>
    have hset := sameFrames_modThread k k.current (fun th => { th with status := .dying })
      fun _ => rfl
    exact follows_done rfl (hset.trans (schedule_same (threadExit_eq_ok h)).frames)
  | threadCreate p =>
    cases h
    exact ⟨_, .create, pushes_pushFrames k _⟩
  | bitmapScanAndFlip p =>
    obtain ⟨t, hfree, rfl⟩ | rfl := bitmapScanAndFlip_eq_ok h
    · exact ⟨_, .found hfree, pushes_pushFrames
        { k with usedMap := Function.update k.usedMap t true } _⟩
    · exact ⟨_, .full, pushes_pushFrames k _⟩
  | initThread t p =>
    obtain ⟨hne, hempty⟩ := hinit t p rfl
    obtain ⟨k₁, h₁, h⟩ := bind_eq_ok.mp h
    obtain ⟨_, rfl⟩ := initThread_eq_ok h₁
    cases h
    have hreset : SameFrames k ({ k with allList := k.allList ++ [t] }.modThread t fun _ =>
        bootThread 0 p 0 .blocked []) := by
      intro u
      rw [Kernel.modThread_threads]
      split
      next hu => rw [hu, hempty]; rfl
      next => rfl
    exact ⟨_, .init, hreset.pushes_of rfl (pushes_pushFrames _ _)⟩
  | allocateTid t =>
    cases h
    exact ⟨_, .tid, pushes_pushFrames { k with nextTid := k.nextTid + 1 } _⟩
  | threadUnblock t tid =>
    have hset := sameFrames_modThread k t (fun th => { th with tid := tid, endTick := -1 })
      fun _ => rfl
    exact follows_done rfl (hset.trans (threadUnblock_same h).frames)
  | semaInit s v =>
    obtain ⟨_, rfl⟩ := execSemaInit_eq_ok h
    exact follows_done rfl fun _ => rfl
  | semaDown s =>
    rcases pushes_semaDownLoop (semaDownInternal_eq_ok h) with hp | hp
    · exact ⟨_, .done rfl, hp⟩
    · exact ⟨_, .down, hp⟩
  | semaDownLoop s m =>
    have hset : ∃ k₁, semaDownLoop s m k₁ = .ok k' ∧ k₁.current = k.current ∧
        SameFrames k k₁ := by
      cases m with
      | none => exact ⟨k, h, rfl, fun _ => rfl⟩
      | some l => exact ⟨_, h, rfl, sameFrames_modThread k _ _ fun _ => rfl⟩
    obtain ⟨k₁, h₁, hc, hs⟩ := hset
    rcases pushes_semaDownLoop h₁ with hp | hp
    · exact ⟨_, .done rfl, hs.pushes_of hc hp⟩
    · exact ⟨_, .again, hs.pushes_of hc hp⟩
  | semaTryDown s =>
    cases h
    refine follows_done rfl fun u => ?_
    unfold semaTryDown
    split <;> rfl
  | semaUp s => exact follows_done rfl (sameFrames_semaUpInternal h)
  | lockInit l =>
    obtain ⟨_, rfl⟩ := execLockInit_eq_ok h
    exact follows_done rfl fun _ => rfl
  | lockAcquire l =>
    obtain ⟨_, k₁, h₁, h₂⟩ := lockAcquire_eq_ok h
    have hr := donate_raised _ h₁
    rcases pushes_semaDownLoop h₂ with hp | hp
    · exact ⟨_, .done rfl, hr.frames.pushes_of hr.current hp⟩
    · exact ⟨_, .acquire, hr.frames.pushes_of hr.current hp⟩
  | lockTryAcquire l =>
    obtain ⟨_, ⟨_, rfl⟩ | ⟨_, rfl⟩⟩ := lockTryAcquire_eq_ok h
    · exact follows_done rfl fun _ => rfl
    · exact ⟨_, .tried, pushes_pushFrames (k.setSema (.lock (.user l)) _) _⟩
  | lockTryAcquired l =>
    cases lockTryAcquired_eq_ok h
    exact follows_done rfl fun _ => rfl
  | lockRelease l =>
    have hr := sameFrames_semaUpInternal (lockRelease_eq_ok h).2
    exact follows_done rfl ((sameFrames_lockReleased l k).trans hr)
  | condInit c =>
    cases execCondInit_eq_ok h
    exact follows_done rfl fun _ => rfl
  | condWait c l =>
    obtain ⟨_, rfl⟩ := condWait_eq_ok h
    exact ⟨_, .wait, fun u => pushes_pushFrames _ _ u⟩
  | condPushBack c =>
    cases h
    exact follows_done rfl fun _ => rfl
  | condSignal c l =>
    obtain ⟨_, rfl⟩ | ⟨top, _, rfl⟩ := condSignal_eq_ok h
    · exact follows_done rfl fun _ => rfl
    · exact ⟨_, .signal, pushes_pushFrames
        { k with conds := Function.update k.conds c ((k.conds c).erase top) } _⟩
  | condBroadcast c l =>
    cases h
    unfold condBroadcast
    split
    next => exact follows_done rfl fun _ => rfl
    next => exact ⟨_, .broadcast, pushes_pushFrames k _⟩
  | idleBlock =>
    exact ⟨_, .idleBlock, (pushes_pushFrames k _).same (threadBlock_same h).frames⟩
  | idleHalt =>
    cases h
    exact ⟨_, .idleHalt, pushes_pushFrames k _⟩

/-! ## Threads come to life, die, and hold their pages -/

/-- Nobody is born, nobody dies, no page changes hands, and only a thread itself joins the
private semaphore of its `cond_wait`. -/
structure Quiet (k k' : Kernel) : Prop where
  magic : ∀ t, (k'.threads t).magic = (k.threads t).magic
  dying : ∀ t, (k'.threads t).status = .dying → (k.threads t).status = .dying
  usedMap : k'.usedMap = k.usedMap
  idleThread : k'.idleThread = k.idleThread
  initialThread : k'.initialThread = k.initialThread
  waiter : ∀ x t, t ∈ (k'.semas (.waiter x)).waiters →
    t ∈ (k.semas (.waiter x)).waiters ∨ t = x

theorem Quiet.refl (k : Kernel) : Quiet k k :=
  ⟨fun _ => rfl, fun _ h => h, rfl, rfl, rfl, fun _ _ h => .inl h⟩

/-- A change outside the threads, the semaphores and the pages is quiet. -/
theorem Quiet.of_eq {k k' : Kernel} (ht : k'.threads = k.threads) (hs : k'.semas = k.semas)
    (hu : k'.usedMap = k.usedMap) (hi : k'.idleThread = k.idleThread)
    (hn : k'.initialThread = k.initialThread) : Quiet k k' :=
  ⟨fun t => by rw [ht], fun t => by rw [ht]; exact id, hu, hi, hn,
    fun x t => by rw [hs]; exact .inl⟩

/-- Two quiet steps are quiet. -/
theorem Quiet.trans {k₁ k₂ k₃ : Kernel} (h : Quiet k₁ k₂) (h' : Quiet k₂ k₃) : Quiet k₁ k₃ :=
  ⟨fun t => (h'.magic t).trans (h.magic t), fun t ht => h.dying t (h'.dying t ht),
    h'.usedMap.trans h.usedMap, h'.idleThread.trans h.idleThread,
    h'.initialThread.trans h.initialThread,
    fun x t ht => (h'.waiter x t ht).elim (h.waiter x t) .inr⟩

/-- What quiet steps leave alone may be read off where they end. -/
theorem Quiet.congr {k k₁ k' : Kernel} (h : Quiet k k₁) (ht : k'.threads = k₁.threads)
    (hs : k'.semas = k₁.semas) (hu : k'.usedMap = k₁.usedMap)
    (hi : k'.idleThread = k₁.idleThread) (hn : k'.initialThread = k₁.initialThread) :
    Quiet k k' := h.trans (.of_eq ht hs hu hi hn)

/-- A change that kills nobody and keeps the stack's magic is quiet. -/
theorem quiet_modThread (k : Kernel) (t : ThreadRef) (f : Thread → Thread)
    (hm : ∀ th, (f th).magic = th.magic) (hd : ∀ th, (f th).status = .dying → th.status = .dying) :
    Quiet k (k.modThread t f) := by
  refine ⟨fun u => ?_, fun u => ?_, rfl, rfl, rfl, fun _ _ h => .inl h⟩
  · rw [Kernel.modThread_threads]
    split
    next hu => rw [hu, hm]
    next => rfl
  · rw [Kernel.modThread_threads]
    split
    next hu =>
      rw [hu]
      exact hd _
    next => exact id

/-- A new status other than dying is quiet. -/
theorem quiet_setStatus (k : Kernel) (t : ThreadRef) {s : ThreadStatus} (hs : s ≠ .dying) :
    Quiet k (k.setStatus t s) :=
  quiet_modThread k t _ (fun _ => rfl) fun _ h => absurd h hs

/-- Fewer waiters are quiet, and one more at a semaphore of its own. -/
theorem quiet_setSema (k : Kernel) (s : SemaRef) (v : Semaphore)
    (h : ∀ t ∈ v.waiters, t ∈ (k.semas s).waiters ∨ s = .waiter t ∨ ∀ x, s ≠ .waiter x) :
    Quiet k (k.setSema s v) := by
  refine ⟨fun _ => rfl, fun _ h => h, rfl, rfl, rfl, fun x t ht => ?_⟩
  unfold Kernel.setSema at ht
  by_cases hs : SemaRef.waiter x = s
  · subst hs
    simp only [Function.update_self] at ht
    rcases h t ht with h | h | h
    · exact .inl h
    · exact .inr (SemaRef.waiter.inj h).symm
    · exact absurd rfl (h x)
  · exact .inl (by simpa [hs] using ht)

theorem quiet_pushFrames (k : Kernel) (t : ThreadRef) (fs : List Frame) :
    Quiet k (k.pushFrames t fs) :=
  quiet_modThread k t _ (fun _ => rfl) fun _ h => h

/-- A donation is quiet. -/
theorem Raised.quiet {k k' : Kernel} (h : Raised k k') : Quiet k k' := by
  refine ⟨fun t => ?_, fun t => ?_, ?_, ?_, ?_, fun x t => ?_⟩
  · rw [h.threads t]
  · rw [h.threads t]
    exact id
  · rw [h.rest]
  · rw [h.rest]
  · rw [h.rest]
  · rw [h.semas]
    exact .inl

/-- `thread_unblock` is quiet. -/
theorem quiet_threadUnblock {t : ThreadRef} {k k' : Kernel} (h : threadUnblock t k = .ok k') :
    Quiet k k' := by
  obtain ⟨_, _, rfl⟩ := threadUnblock_eq_ok h
  have hpush : Quiet k (k.pushReady t) := .of_eq rfl rfl rfl rfl rfl
  exact hpush.trans (quiet_setStatus _ t (by simp))

/-- The loop over the sleepers is quiet. -/
theorem quiet_wakeSleepers : ∀ (ts : List ThreadRef) {k k' : Kernel},
    wakeSleepers ts k = .ok k' → Quiet k k'
  | [], k, k', h => by
    cases h
    exact .refl k
  | t :: rest, k, k', h => by
    obtain ⟨_, ⟨_, h⟩ | ⟨_, k₁, h₁, h₂⟩⟩ := wakeSleepers_cons h
    · exact quiet_wakeSleepers rest h
    · have hlist : Quiet k { k with sleepList := k.sleepList.erase t } :=
        .of_eq rfl rfl rfl rfl rfl
      have hoff : Quiet k (k.offSleep t) :=
        hlist.trans (quiet_modThread _ t _ (fun _ => rfl) fun _ h => h)
      exact (hoff.trans (quiet_threadUnblock h₁)).trans (quiet_wakeSleepers rest h₂)

/-- `schedule` is quiet up to its tail. -/
theorem quiet_schedule {k k' : Kernel} (h : schedule k = .ok k') : Quiet k k' := by
  obtain ⟨k₁, k₂, next, hwake, hnext, _, _, rfl⟩ := schedule_eq_ok h
  have h₂ : Quiet k₁ k₂ := by
    obtain ⟨_, _, rfl⟩ | ⟨_, rfl⟩ := nextThreadToRun_eq_ok hnext
    · exact .refl _
    · exact .of_eq rfl rfl rfl rfl rfl
  exact ((quiet_wakeSleepers _ hwake).trans h₂).trans (.of_eq rfl rfl rfl rfl rfl)

theorem quiet_threadBlock {k k' : Kernel} (h : threadBlock k = .ok k') : Quiet k k' :=
  (quiet_setStatus k k.current (by simp)).trans (quiet_schedule (threadBlock_eq_ok h).2.2)

theorem quiet_threadYield {k k' : Kernel} (h : threadYield k = .ok k') : Quiet k k' := by
  have hq : Quiet k k.requeue := by
    unfold Kernel.requeue
    split
    · have hpush : Quiet k (k.pushReady k.current) := .of_eq rfl rfl rfl rfl rfl
      exact hpush.trans (quiet_setStatus _ k.current (by simp))
    · exact quiet_setStatus k k.current (by simp)
  exact hq.trans (quiet_schedule (threadYield_eq_ok h).2.2)

/-- Waking the first waiter of the greatest priority is quiet. -/
theorem quiet_semaWake {s : SemaRef} {m : Option LockRef} {k k' : Kernel}
    (h : semaWake s m k = .ok k') : Quiet k k' := by
  obtain ⟨_, rfl⟩ | ⟨top, k₁, _, h₁, rfl⟩ := semaWake_eq_ok h
  · exact .refl _
  · have hq : Quiet k₁ (updateIfLock m k₁) := by
      cases m with
      | none => exact .refl _
      | some l => exact .of_eq rfl rfl rfl rfl rfl
    exact ((quiet_setSema k s _ fun t ht => .inl (List.mem_of_mem_erase ht)).trans
      (quiet_threadUnblock h₁)).trans hq

/-- All of `sema_up_internal` is quiet. -/
theorem quiet_semaUpInternal {s : SemaRef} {m : Option LockRef} {k k' : Kernel}
    (h : semaUpInternal s m k = .ok k') : Quiet k k' := by
  obtain ⟨k₁, h₁, h₂⟩ := semaUpInternal_eq_ok h
  have hinc : Quiet k₁ (semaIncrement s k₁) := quiet_setSema k₁ s _ fun _ ht => .inl ht
  exact ((quiet_semaWake h₁).trans hinc).trans (quiet_threadYield h₂)

/-- The loop of `sema_down_internal` is quiet: a private semaphore is its owner's. -/
theorem quiet_semaDownLoop {s : SemaRef} {m : Option LockRef} {k k' : Kernel}
    (h : semaDownLoop s m k = .ok k') (hs : ∀ x, s = .waiter x → x = k.current) :
    Quiet k k' := by
  obtain ⟨_, h⟩ | ⟨_, rfl⟩ := semaDownLoop_eq_ok h
  · have hset := quiet_setSema k s
      { k.semas s with waiters := (k.semas s).waiters ++ [k.current] } (by
        intro t ht
        rcases List.mem_append.mp ht with ht | ht
        · exact .inl ht
        · rw [List.mem_singleton.mp ht]
          by_cases hx : ∃ x, s = .waiter x
          · obtain ⟨x, hx⟩ := hx
            exact .inr (.inl (by rw [hx, hs x hx]))
          · exact .inr (.inr fun x he => hx ⟨x, he⟩))
    have henq : Quiet k (semaEnqueue s m k) := by
      cases m with
      | none => exact hset.trans (quiet_pushFrames _ _ _)
      | some l =>
        have hwait := hset.trans (quiet_modThread _ k.current
          (fun th => { th with waitingLock := some l }) (fun _ => rfl) fun _ h => h)
        exact (hwait.trans (quiet_pushFrames _ k.current [.semaDownLoop s (some l)])).congr
          rfl rfl rfl rfl rfl
    exact henq.trans (quiet_threadBlock h)
  · have hset := quiet_setSema k s { k.semas s with value := (k.semas s).value - 1 }
      fun _ ht => .inl ht
    cases m with
    | none => exact hset
    | some l =>
      exact (hset.trans (quiet_modThread _ k.current
        (fun th => { th with heldLocks := th.heldLocks ++ [l] })
        (fun _ => rfl) fun _ h => h)).congr rfl rfl rfl rfl rfl

/-- The code a thread may have on its stack: idle's loop is the idle thread's, and a private
semaphore is downed by its owner. -/
def Frame.Fits (idle t : ThreadRef) : Frame → Prop
  | .idleBlock | .idleHalt => t = idle
  | .semaDown (.waiter x) | .semaDownLoop (.waiter x) _ => x = t
  | _ => True

/-- The frames that bear on who is alive and on who has which page. -/
def Frame.isVital : Frame → Bool
  | .threadExit | .bitmapScanAndFlip _ | .initThread _ _ => true
  | _ => false

/-- Every frame but the three vital ones is quiet. -/
theorem exec_quiet {page : Option ThreadRef} {f : Frame} {k k' : Kernel}
    (h : exec page k f = .ok k') (hv : f.isVital = false)
    (hfit : f.Fits k.idleThread k.current) : Quiet k k' := by
  cases f with
  | threadExit => cases hv
  | bitmapScanAndFlip p => cases hv
  | initThread t p => cases hv
  | threadYield => exact quiet_threadYield h
  | threadYieldForSeconds e =>
    have hset := quiet_modThread k k.current
      (fun th => { th with endTick := e }) (fun _ => rfl) fun _ h => h
    refine Quiet.trans ?_ (quiet_threadBlock (threadYieldForSeconds_eq_ok h).2)
    exact hset.congr rfl rfl rfl rfl rfl
  | timerSleep n =>
    cases h
    exact quiet_pushFrames _ _ _
  | threadSetPriority p =>
    have hset := quiet_modThread k k.current (fun th => { th with
      priority := newPriority (k.threads k.current) p, basePriority := p })
      (fun _ => rfl) fun _ h => h
    exact hset.trans (quiet_threadYield (threadSetPriority_eq_ok h))
  | threadCreate p =>
    cases h
    exact quiet_pushFrames _ _ _
  | allocateTid t =>
    cases h
    exact (quiet_pushFrames k k.current _).congr rfl rfl rfl rfl rfl
  | threadUnblock t tid =>
    have hset := quiet_modThread k t (fun th => { th with tid := tid, endTick := -1 })
      (fun _ => rfl) fun _ h => h
    exact hset.trans (quiet_threadUnblock h)
  | semaInit s v =>
    obtain ⟨_, rfl⟩ := execSemaInit_eq_ok h
    exact quiet_setSema k _ _ fun _ ht => absurd ht List.not_mem_nil
  | semaDown s =>
    refine quiet_semaDownLoop (semaDownInternal_eq_ok h) fun x hx => ?_
    subst hx
    exact hfit
  | semaDownLoop s m =>
    have hs : ∀ x, s = .waiter x → x = k.current := by
      intro x hx
      subst hx
      exact hfit
    cases m with
    | none => exact quiet_semaDownLoop h hs
    | some l =>
      have hset := quiet_modThread k k.current (fun th => { th with waitingLock := none })
        (fun _ => rfl) fun _ h => h
      exact hset.trans (quiet_semaDownLoop h hs)
  | semaTryDown s =>
    cases h
    unfold semaTryDown
    split
    · exact quiet_setSema k _ _ fun _ ht => .inl ht
    · exact .refl _
  | semaUp s => exact quiet_semaUpInternal h
  | lockInit l =>
    obtain ⟨_, rfl⟩ := execLockInit_eq_ok h
    have hset := quiet_setSema k (.lock (.user l)) { value := 1, waiters := [] }
      fun _ ht => absurd ht List.not_mem_nil
    exact hset.congr rfl rfl rfl rfl rfl
  | lockAcquire l =>
    obtain ⟨_, k₁, h₁, h₂⟩ := lockAcquire_eq_ok h
    exact (donate_raised _ h₁).quiet.trans (quiet_semaDownLoop h₂ fun x hx => by cases hx)
  | lockTryAcquire l =>
    obtain ⟨_, ⟨_, rfl⟩ | ⟨_, rfl⟩⟩ := lockTryAcquire_eq_ok h
    · exact .refl _
    · have hset := quiet_setSema k (.lock (.user l)) { k.semas (.lock (.user l)) with
        value := (k.semas (.lock (.user l))).value - 1 } fun _ ht => .inl ht
      exact hset.trans (quiet_pushFrames _ _ _)
  | lockTryAcquired l =>
    cases lockTryAcquired_eq_ok h
    exact .of_eq rfl rfl rfl rfl rfl
  | lockRelease l =>
    have hset := quiet_modThread k k.current (fun th => { th with
      priority := releasePriority l (k.threads k.current) k
      heldLocks := th.heldLocks.filter (· ≠ l) }) (fun _ => rfl) fun _ h => h
    have hrel : Quiet k (lockReleased l k) := hset.congr rfl rfl rfl rfl rfl
    exact hrel.trans (quiet_semaUpInternal (lockRelease_eq_ok h).2)
  | condInit c =>
    cases execCondInit_eq_ok h
    exact .refl _
  | condWait c l =>
    obtain ⟨_, rfl⟩ := condWait_eq_ok h
    have hset := quiet_setSema k (.waiter k.current) { value := 0, waiters := [] }
      fun _ ht => absurd ht List.not_mem_nil
    exact (hset.trans (quiet_pushFrames _ k.current _)).congr rfl rfl rfl rfl rfl
  | condPushBack c =>
    cases h
    exact (Quiet.refl k).congr rfl rfl rfl rfl rfl
  | condSignal c l =>
    obtain ⟨_, rfl⟩ | ⟨top, _, rfl⟩ := condSignal_eq_ok h
    · exact .refl _
    · exact (quiet_pushFrames k k.current _).congr rfl rfl rfl rfl rfl
  | condBroadcast c l =>
    cases h
    unfold condBroadcast
    split
    · exact .refl _
    · exact quiet_pushFrames _ _ _
  | idleBlock => exact (quiet_pushFrames k k.current _).trans (quiet_threadBlock h)
  | idleHalt =>
    cases h
    exact quiet_pushFrames _ _ _

end Pintos.Threads
