import Pintos.Threads.AllList
import Pintos.Threads.DonationRelease

/-!
# Priority donation along a run

`Donated` holds after `thread_start` and survives every event, under conditions on the event and
the state it is taken from. `Frame.Proper` is the interface of the primitives: a priority in
range, and no exit with a lock held. `Frame.Careful` lists the situations in which the code loses
a donation or invents one:

* `thread_set_priority` while the caller's base priority equals a donated one;
* `lock_release` while a more important thread waits for a lock the caller took with
  `lock_try_acquire`, which is not on `held_locks`;
* `lock_acquire` through a chain in which a thread has been woken and has not run since, so that
  its `waiting_lock` is out of date;
* the return from a wait for a lock that a less important thread has taken in between;
* a timer interrupt between the two halves of `lock_try_acquire`, when the lock is taken and has
  no holder.
-/

namespace Pintos.Threads

open Pintos.Lib

variable {page : Option ThreadRef} {k k' : Kernel} {f : Frame} {rest : List Frame}

/-- The interface of the primitives: priorities are in range, and a thread that exits holds no
lock. -/
def Frame.Proper (k : Kernel) : Frame → Prop
  | .threadSetPriority p => priMin ≤ p ∧ p ≤ priMax
  | .threadExit => ∀ l, k.holder l ≠ some k.current
  | _ => True

/-- The situations in which the code keeps donation exact; see the head of this module. -/
def Frame.Careful (k : Kernel) : Frame → Prop
  | .threadSetPriority p => k.prio k.current ≤ k.base k.current → ∀ l w,
      k.holder l = some k.current → w ∈ k.waiters l → k.prio w ≤ p
  | .lockRelease l => ∀ l' w, l' ≠ l → k.holder l' = some k.current →
      l' ∉ (k.threads k.current).heldLocks → w ∈ k.waiters l' →
      k.prio w ≤ k.base k.current ∨ ∃ l₁ ∈ (k.threads k.current).heldLocks, l₁ ≠ l ∧
        ∃ w₁ ∈ k.waiters l₁, k.prio w ≤ k.prio w₁
  | .lockAcquire l => ∀ u l', OnChain k.holder k.waitingLock (some l) u →
      k.waitingLock u = some l' → (u ∈ k.waiters l' ↔ k.holder l' ≠ none)
  | .semaDownLoop _ (some l) => ∀ t, k.holder l = some t → k.prio k.current ≤ k.prio t
  | _ => True

/-! ## One event -/

/-- Nobody that is READY is lost by running a frame. -/
theorem Coherent.exec_awake (hk : Coherent k) (hs : Strict k)
    (hf : (k.threads k.current).frames = f :: rest)
    (hx : exec page (k.setFrames k.current rest) f = .ok k') :
    ∀ t ∈ k.readyList, t ∈ k'.readyList ∨ t = k'.current := by
  intro t ht
  by_cases hu : ∃ u tid, f = .threadUnblock u tid
  · obtain ⟨u, tid, rfl⟩ := hu
    obtain ⟨_, _, rfl⟩ := threadUnblock_eq_ok hx
    exact .inl (List.mem_append_left _ ht)
  · have hne : ∀ u tid, f ≠ .threadUnblock u tid := fun u tid he => hu ⟨u, tid, he⟩
    rcases exec_best (hk.placed.setFrames k.current rest) (hk.runs hf) hs.fifo hne hx with hc | he
    · left
      rw [hc.readyList]
      exact ht
    · exact he.awake t ht

/-- A frame that touches no lock and leaves plain code behind. -/
theorem Donated.of_plain (h : Donated k) (fs : List Frame)
    (hf : (k.threads k.current).frames = f :: rest) (hret : f.isReturn = false)
    (hsame : SameLocks k k')
    (hframes : ∀ t, (k'.threads t).frames =
      if t = k.current then fs ++ rest else (k.threads t).frames)
    (hfs : ∀ g ∈ fs, g.isReturn = false ∧ g.Shaped)
    (hdying : ∀ {l t}, k.holder l = some t → (k'.threads t).status ≠ .dying)
    (hawake : ∀ t ∈ k.readyList, t ∈ k'.readyList ∨ t = k'.current) : Donated k' := by
  have hnext : k.next k.current = some f := by
    rw [Kernel.next, hf]
    rfl
  refine h.of_sameLocks hsame (fun t ht => by rw [hframes, if_neg ht]) (fun g hg => ?_)
    (fun g hg => ?_) ?_ hdying hawake
  · rw [hnext] at hg
    cases hg
    exact hret
  · rw [hframes, if_pos rfl] at hg
    rcases List.mem_append.mp hg with hg | hg
    · exact hfs g hg
    · refine ⟨h.behind (t := k.current) ?_, h.shaped (t := k.current) ?_⟩
      · rw [hf]
        exact hg
      · rw [hf]
        exact List.mem_cons_of_mem _ hg
  · exact h.stacked.waitingLock_of_plain hf hret

/-- A frame that is none of the lock's is no return from it. -/
theorem Frame.isReturn_of_plain (hf : f.isLockOp = false) : f.isReturn = false := by
  cases f with
  | semaDownLoop s m =>
    cases m with
    | none => rfl
    | some l => cases hf
  | lockTryAcquired l => cases hf
  | _ => rfl

/-- The frames are no lock. -/
theorem sameLocks_setFrames (k : Kernel) (rest : List Frame) :
    SameLocks k (k.setFrames k.current rest) :=
  sameLocks_modThread k k.current _ fun _ => ⟨rfl, rfl, rfl, rfl, rfl⟩

/-- The frames of the running thread and the page of another can be written in either order. -/
theorem initThread_swap {t : ThreadRef} {p : Int} (rest : List Frame) (hne : t ≠ k.current) :
    ({ k.setFrames k.current rest with allList := k.allList ++ [t] }.modThread t
      fun _ => bootThread 0 p 0 .blocked []).pushFrames k.current
        [.lockAcquire .tidLock, .allocateTid t] =
      ({ k with allList := k.allList ++ [t] }.modThread t
        fun _ => bootThread 0 p 0 .blocked []).setFrames k.current
          ([Frame.lockAcquire .tidLock, .allocateTid t] ++ rest) := by
  simp only [Kernel.pushFrames, Kernel.setFrames, Kernel.modThread, Kernel.mk.injEq, and_true]
  funext u
  by_cases hu : u = k.current
  · subst hu
    simp [Ne.symm hne]
  · simp [hu, Function.update_apply]

/-- `init_thread`, and the two frames that give the new thread its `tid`. -/
theorem Donated.of_initThread {t : ThreadRef} {p : Int} (h : Donated k) (hk : Coherent k)
    (hf : (k.threads k.current).frames = .initThread t p :: rest) (hp : 0 ≤ p) :
    Donated (({ k.setFrames k.current rest with allList := k.allList ++ [t] }.modThread t
      fun _ => bootThread 0 p 0 .blocked []).pushFrames k.current
        [.lockAcquire .tidLock, .allocateTid t]) := by
  have hdead : (k.threads t).magic = false := hk.framed.unmade (hf ▸ List.mem_cons_self)
  have hne : t ≠ k.current := by
    rintro rfl
    rw [(hk.placed.cpuLive rfl).1] at hdead
    cases hdead
  have hfresh := h.of_fresh hk (t := t) (p := p) (by simp [Kernel.Live, hdead]) hp
  rw [initThread_swap rest hne]
  have hcur : ({ k with allList := k.allList ++ [t] }.modThread t
      fun _ => bootThread 0 p 0 .blocked []).threads k.current = k.threads k.current :=
    Kernel.modThread_ne _ _ (Ne.symm hne)
  have hpop := popped_setFrames ({ k with allList := k.allList ++ [t] }.modThread t
    fun _ => bootThread 0 p 0 .blocked []) ([Frame.lockAcquire .tidLock, .allocateTid t] ++ rest)
  refine hfresh.of_plain [.lockAcquire .tidLock, .allocateTid t] (f := .initThread t p)
    ((congrArg Thread.frames hcur).trans hf) rfl (sameLocks_setFrames _ _) hpop.frames
    (by simp [Frame.isReturn, Frame.Shaped]) (fun {l u} hl => ?_) fun _ hm => .inl hm
  exact ((hpop.threads u).2.2.1).symm ▸ (hfresh.holderLive hl).2

/-- Running a frame keeps the invariant. -/
theorem Donated.of_run (h : Donated k) (hk : Coherent k) (hs : Strict k)
    (hn : k.scheduleTail = none) (hf : (k.threads k.current).frames = f :: rest)
    (hproper : f.Proper k) (hcareful : f.Careful k)
    (hx : exec page (k.setFrames k.current rest) f = .ok k') : Donated k' := by
  obtain ⟨fs, hfs, hpush⟩ := hk.pushes hf hx
  have hframes := frames_of_pushes hpush
  have hawake := hk.exec_awake hs hf hx
  have hshape : f.Shaped := h.shaped (t := k.current) (hf ▸ List.mem_cons_self)
  have hset := sameLocks_setFrames k rest
  have htop : f ≠ .threadYield → ∀ t ∈ k.readyList, k.prio t ≤ k.prio k.current := by
    intro hne
    refine (hs.top hn).resolve_right fun hy => ?_
    rw [hf] at hy
    exact hne (Option.some.inj hy)
  -- a frame kills nobody, `thread_exit` apart
  have hvital := exec_vital hx (hk.runs hf).fits
  have hdying : ∀ {l t}, k.holder l = some t → (k'.threads t).status ≠ .dying := by
    intro l t hl hd
    rcases hvital.dying t hd with hd | ⟨rfl, rfl⟩
    · rw [(setFrames_placed k k.current rest t).2] at hd
      exact (h.holderLive hl).2 hd
    · exact hproper l hl
  cases hop : f.isLockOp with
  | false =>
    exact h.of_plain fs hf (Frame.isReturn_of_plain hop)
      (hset.trans (exec_sameLocks hx hop hshape)) hframes (hfs.plain hop hshape) hdying hawake
  | true =>
    cases f with
    | threadSetPriority p => exact h.of_threadSetPriority hk hf hproper.1 hcareful hx
    | initThread t p =>
      obtain ⟨k₁, h₁, hx⟩ := bind_eq_ok.mp hx
      obtain ⟨hrange, rfl⟩ := initThread_eq_ok h₁
      cases hx
      exact h.of_initThread hk hf hrange.1
    | semaDownLoop s m =>
      cases m with
      | none => cases hop
      | some l =>
        have hsl : s = .lock l := hshape
        subst hsl
        exact h.of_resume hk (htop (by simp)) hf hcareful hawake hx
    | lockInit l =>
      obtain ⟨⟨hw, hh, hv⟩, rfl⟩ := execLockInit_eq_ok hx
      have hrec : k.recorded (.user l) = -1 := by
        rw [h.recorded, show k.waiters (.user l) = [] from hw]
        rfl
      refine h.of_plain [] hf rfl (hset.trans (sameLocks_lockInit hw hh hv hrec)) ?_
        (by simp) hdying hawake
      exact (popped_setFrames k rest).frames
    | lockAcquire l => exact h.of_lockAcquire hk (htop (by simp)) hf hcareful hawake hx
    | lockTryAcquire l =>
      obtain ⟨_, ⟨_, rfl⟩ | ⟨hv, rfl⟩⟩ := lockTryAcquire_eq_ok hx
      · exact h.of_plain [] hf rfl hset (popped_setFrames k rest).frames (by simp) hdying
          hawake
      · exact h.of_lockTryAcquire hk hn (htop (by simp)) hf hv
    | lockTryAcquired l =>
      rw [lockTryAcquired_eq_ok hx]
      exact h.of_lockTryAcquired hk hf
    | lockRelease l => exact h.of_lockRelease hk hf hcareful hx
    | _ => cases hop

/-- Status and pages apart, nothing has changed, and the holders are alive. -/
theorem Donated.of_still (h : Donated k)
    (hthreads : ∀ t, (k'.threads t).priority = (k.threads t).priority ∧
      (k'.threads t).basePriority = (k.threads t).basePriority ∧
      (k'.threads t).heldLocks = (k.threads t).heldLocks ∧
      (k'.threads t).waitingLock = (k.threads t).waitingLock ∧
      (k'.threads t).frames = (k.threads t).frames)
    (hmagic : ∀ t, k'.Live t → k.Live t) (hlocks : k'.locks = k.locks)
    (hsemas : k'.semas = k.semas) (hready : k'.readyList = k.readyList)
    (hcurrent : k'.current = k.current) (hnone : k'.scheduleTail = none)
    (hlive : ∀ {l t}, k.holder l = some t → k'.Live t ∧ (k'.threads t).status ≠ .dying) :
    Donated k' := by
  have hprio : k'.prio = k.prio := funext fun t => (hthreads t).1
  have hbase : k'.base = k.base := funext fun t => (hthreads t).2.1
  have hholder : k'.holder = k.holder := by
    funext l
    unfold Kernel.holder
    rw [hlocks]
  have hwaiters : k'.waiters = k.waiters := by
    funext l
    unfold Kernel.waiters
    rw [hsemas]
  have hvalue : k'.lockValue = k.lockValue := by
    funext l
    unfold Kernel.lockValue
    rw [hsemas]
  have hrecorded : k'.recorded = k.recorded := by
    funext l
    unfold Kernel.recorded
    rw [hlocks]
  have hnext : k'.next = k.next := by
    funext t
    unfold Kernel.next
    rw [(hthreads t).2.2.2.2]
  have hblocked : k'.Blocked = k.Blocked := by
    funext t l
    unfold Kernel.Blocked
    rw [hwaiters]
  constructor
  case exact =>
    rw [hholder, hblocked, hprio, hbase]
    exact ⟨fun t ht => h.exact.base_le t (hmagic t ht), h.exact.bound,
      fun t ht => h.exact.attained t (hmagic t ht)⟩
  case baseNonneg =>
    intro t ht
    rw [hbase]
    exact h.baseNonneg (hmagic t ht)
  case recorded =>
    rw [hrecorded, hprio, hwaiters]
    exact h.recorded
  case holderLive =>
    intro l t hl
    rw [hholder] at hl
    exact hlive hl
  case held =>
    rw [hholder, hvalue]
    exact h.held
  case free =>
    rw [hholder, hvalue, hnext, hcurrent]
    exact h.free
  case heldLocks =>
    intro t l ht hm
    rw [(hthreads t).2.2.1] at hm
    rw [hholder]
    exact h.heldLocks (hmagic t ht) hm
  case waiting =>
    intro t
    rw [hnext, Kernel.waitingLock, (hthreads t).2.2.2.1]
    exact h.waiting t
  case queued =>
    rw [hwaiters, hnext]
    exact h.queued
  case shaped =>
    intro t g hg
    rw [(hthreads t).2.2.2.2] at hg
    exact h.shaped hg
  case behind =>
    intro t g hg
    rw [(hthreads t).2.2.2.2] at hg
    exact h.behind hg
  case gap =>
    intro t l hg
    rw [hnext] at hg
    obtain ⟨hc, _, hrest⟩ := h.gap hg
    rw [hcurrent, hholder, hvalue, hwaiters, hprio]
    exact ⟨hc, hnone, hrest⟩
  case woken =>
    rw [hvalue, hwaiters, hready, hcurrent, hnext, hprio]
    exact h.woken

/-- The tail of a switch changes the status of the thread switched to, and may free the page of
the thread switched from, which has died without a lock. -/
theorem Donated.of_tail {prev : Option ThreadRef} (h : Donated k)
    (hx : threadScheduleTail prev { k with scheduleTail := none } = .ok k') : Donated k' := by
  have hrun : ∀ t, (k.setStatus k.current .running).threads t =
      if t = k.current then { k.threads t with status := .running } else k.threads t := by
    intro t
    unfold Kernel.setStatus
    rw [Kernel.modThread_threads]
    split
    next ht => rw [ht]
    next => rfl
  have hlive : ∀ {l t}, k.holder l = some t → ((k.setStatus k.current .running).threads t).magic =
      true ∧ ((k.setStatus k.current .running).threads t).status ≠ .dying := by
    intro l t hl
    rw [hrun]
    split
    · exact ⟨(h.holderLive hl).1, by simp⟩
    · exact h.holderLive hl
  have hkeep : ∀ t, SameThread (k.threads t) ((k.setStatus k.current .running).threads t) :=
    (same_setStatus k k.current .running).thread
  obtain ⟨rfl, _⟩ | ⟨p, rfl, hd, _, _, _, hk'⟩ := threadScheduleTail_eq_ok hx
  · refine h.of_still (fun t => ?_) (fun t ht => (hkeep t).magic.symm.trans ht) rfl rfl rfl rfl rfl
      hlive
    have ht := hkeep t
    exact ⟨ht.priority, ht.basePriority, ht.heldLocks, ht.waitingLock, ht.frames⟩
  · have hfree : ∀ t, k'.threads t =
        if t = p then { (k.setStatus k.current .running).threads t with magic := false }
        else (k.setStatus k.current .running).threads t := by
      intro t
      rw [hk', Kernel.modThread_threads]
      split
      next ht =>
        rw [ht]
        rfl
      next => rfl
    refine h.of_still (fun t => ?_) (fun t ht => ?_) (by rw [hk']; rfl) (by rw [hk']; rfl)
      (by rw [hk']; rfl) (by rw [hk']; rfl) (by rw [hk']; rfl) (fun {l t} hl => ?_)
    · have ht := hkeep t
      rw [hfree]
      split <;> exact ⟨ht.priority, ht.basePriority, ht.heldLocks, ht.waitingLock, ht.frames⟩
    · rw [Kernel.Live, hfree] at ht
      split at ht
      next => cases ht
      next => exact (hkeep t).magic.symm.trans ht
    · -- the freed thread was dying, so it held nothing
      have hne : t ≠ p := by
        rintro rfl
        exact (hlive hl).2 hd
      rw [Kernel.Live, hfree, if_neg hne]
      exact hlive hl

/-- A call is the beginning of a function. -/
theorem Call.frame_returns (c : Call) : c.frame.isReturn = false ∧ c.frame.Shaped := by
  cases c <;> simp [Call.frame, Frame.isReturn, Frame.Shaped]

/-- To call is to have a frame to run. -/
theorem Donated.of_call {c : Call} (h : Donated k) (hf : (k.threads k.current).frames = []) :
    Donated (k.setFrames k.current [c.frame]) := by
  have hpop := popped_setFrames k [c.frame]
  have hnext : k.next k.current = none := by
    rw [Kernel.next, hf]
    rfl
  refine h.of_sameLocks (sameLocks_setFrames k _) (fun t ht => ?_) (fun g hg => ?_)
    (fun g hg => ?_) ?_ (fun {l t} hl => ?_) fun _ hm => .inl hm
  · rw [hpop.frames, if_neg ht]
  · rw [hnext] at hg
    cases hg
  · rw [hpop.frames, if_pos rfl] at hg
    rw [List.mem_singleton.mp hg]
    exact c.frame_returns
  · rw [h.waiting, hnext]
    rfl
  · rw [(hpop.threads t).2.2.1]
    exact (h.holderLive hl).2

/-- A tick takes and frees no lock. -/
theorem sameLocks_timerInterrupt (hx : timerInterrupt k = .ok k') : SameLocks k k' := by
  have htick : SameLocks k (threadTick k) :=
    .of_eq (fun _ => rfl) (fun _ => rfl) fun _ => rfl
  rcases timerInterrupt_eq_ok hx with rfl | hy
  · exact htick
  · exact htick.trans (threadYield_same hy).sameLocks

/-- A timer interrupt, with the running thread not inside a lock operation. -/
theorem Donated.of_tick (h : Donated k)
    (hret : ∀ g, k.next k.current = some g → g.isReturn = false)
    (hx : timerInterrupt k = .ok k') : Donated k' := by
  have key : SameFrames k k' ∧
      (∀ t, (k'.threads t).status = .dying → (k.threads t).status = .dying) ∧
      ∀ t ∈ k.readyList, t ∈ k'.readyList ∨ t = k'.current := by
    rcases timerInterrupt_eq_ok hx with rfl | hy
    · exact ⟨fun _ => rfl, fun _ hd => hd, fun _ hm => .inl hm⟩
    · exact ⟨(threadYield_same hy).frames, (quiet_threadYield hy).dying,
        fun t hm => awake_threadYield hy t hm⟩
  obtain ⟨hframes, hdying, hawake⟩ := key
  refine h.of_sameLocks (sameLocks_timerInterrupt hx) (fun t _ => hframes t) hret (fun g hg => ?_) ?_
    (fun {l t} hl hd => (h.holderLive hl).2 (hdying t hd)) hawake
  · rw [hframes] at hg
    refine ⟨?_, h.shaped hg⟩
    cases hc : (k.threads k.current).frames with
    | nil =>
      rw [hc] at hg
      cases hg
    | cons f fs =>
      rw [hc] at hg
      rcases List.mem_cons.mp hg with rfl | hg
      · refine hret g ?_
        rw [Kernel.next, hc]
        rfl
      · refine h.behind (t := k.current) ?_
        rw [hc]
        exact hg
  · rw [h.waiting]
    cases hn : k.next k.current with
    | none => rfl
    | some g =>
      exact Frame.awaits_of_plain (hret g hn)

/-! ## Base priorities -/

/-- The base priority a frame gives out, and to whom: `thread_create` to the new thread,
`thread_set_priority` to its caller. -/
def Frame.gives (cur : ThreadRef) : Frame → Option (ThreadRef × Int)
  | .initThread t p => some (t, p)
  | .threadSetPriority p => some (cur, p)
  | _ => none

/-- `given` after a frame. -/
def Frame.give (cur : ThreadRef) (f : Frame) (given : ThreadRef → Int) : ThreadRef → Int :=
  match f.gives cur with
  | some (t, p) => Function.update given t p
  | none => given

theorem base_modThread (k : Kernel) (t : ThreadRef) (g : Thread → Thread)
    (hg : ∀ th, (g th).basePriority = th.basePriority) : (k.modThread t g).base = k.base := by
  funext u
  unfold Kernel.base
  rw [Kernel.modThread_threads]
  split
  next hu => rw [hu, hg]
  next => rfl

/-- What keeps the threads for the locks keeps the base priorities. -/
theorem Same.base (h : Same k k') : k'.base = k.base := funext fun t => (h.thread t).basePriority

/-- The tail of a switch keeps them. -/
theorem base_threadScheduleTail {prev : Option ThreadRef} (h : threadScheduleTail prev k = .ok k') :
    k'.base = k.base := by
  have hrun := (same_setStatus k k.current .running).base
  obtain ⟨rfl, _⟩ | ⟨p, rfl, _, _, _, _, rfl⟩ := threadScheduleTail_eq_ok h
  · exact hrun
  · refine (base_modThread _ p (fun th => { th with magic := false }) fun _ => rfl).trans ?_
    exact hrun

/-- Waiting for a lock keeps them. -/
theorem base_semaDownLoop {l : LockRef} (h : semaDownLoop (.lock l) (some l) k = .ok k') :
    k'.base = k.base := by
  obtain ⟨_, h⟩ | ⟨_, rfl⟩ := semaDownLoop_eq_ok h
  · rw [(threadBlock_same h).base]
    funext t
    unfold Kernel.base
    rw [semaEnqueue_threads]
    split <;> rfl
  · exact base_modThread k k.current (fun th => { th with heldLocks := th.heldLocks ++ [l] })
      fun _ => rfl

/-- Letting go of a lock keeps the base priorities. -/
theorem base_lockRelease {l : LockRef} (h : lockRelease l k = .ok k') : k'.base = k.base := by
  obtain ⟨k₁, hw, hy⟩ := semaUpInternal_eq_ok (lockRelease_eq_ok h).2
  funext t
  have ht := ((upped_of_semaWake hw).threads t).trans ((threadYield_same hy).thread t)
  unfold Kernel.base
  rw [ht.basePriority, lockReleased_threads]
  split <;> rfl

/-- `thread_set_priority` sets that of the running thread. -/
theorem base_threadSetPriority {p : Int} (h : threadSetPriority p k = .ok k') :
    k'.base = Function.update k.base k.current p := by
  rw [(threadYield_same (threadSetPriority_eq_ok h)).base]
  funext t
  unfold Kernel.base
  rw [Kernel.modThread_threads, Function.update_apply]
  split <;> rfl

/-- `init_thread` sets that of the new one. -/
theorem base_initThread {t : ThreadRef} {p : Int} (h : initThread t p k = .ok k') :
    k'.base = Function.update k.base t p := by
  obtain ⟨_, rfl⟩ := initThread_eq_ok h
  funext u
  unfold Kernel.base
  rw [Kernel.modThread_threads, Function.update_apply]
  split <;> rfl

/-- Base priorities change by being given out, and in no other way. -/
theorem exec_base (hx : exec page k f = .ok k') (hshape : f.Shaped) :
    k'.base = f.give k.current k.base := by
  cases hop : f.isLockOp with
  | false =>
    have hnone : f.gives k.current = none := by
      cases f with
      | initThread t p => cases hop
      | threadSetPriority p => cases hop
      | _ => rfl
    unfold Frame.give
    rw [hnone]
    exact funext (exec_sameLocks hx hop hshape).base
  | true =>
    cases f with
    | threadSetPriority p => exact base_threadSetPriority hx
    | initThread t p =>
      obtain ⟨k₁, h₁, hx⟩ := bind_eq_ok.mp hx
      cases hx
      refine Eq.trans ?_ (base_initThread h₁)
      exact funext (sameLocks_pushFrames k₁ k₁.current _).base
    | semaDownLoop s m =>
      cases m with
      | none => cases hop
      | some l =>
        have hsl : s = .lock l := hshape
        subst hsl
        refine (base_semaDownLoop hx).trans ?_
        exact base_modThread k k.current (fun th => { th with waitingLock := none }) fun _ => rfl
    | lockInit l =>
      obtain ⟨_, rfl⟩ := execLockInit_eq_ok hx
      rfl
    | lockAcquire l =>
      obtain ⟨_, k₁, hd, hx⟩ := lockAcquire_eq_ok hx
      rw [base_semaDownLoop hx]
      funext t
      unfold Kernel.base
      rw [(donate_raised _ hd).threads t]
      rfl
    | lockTryAcquire l =>
      obtain ⟨_, ⟨_, rfl⟩ | ⟨_, rfl⟩⟩ := lockTryAcquire_eq_ok hx
      · rfl
      · exact funext (sameLocks_pushFrames _ k.current _).base
    | lockTryAcquired l =>
      rw [lockTryAcquired_eq_ok hx]
      rfl
    | lockRelease l => exact base_lockRelease hx
    | _ => cases hop

/-! ## Runs -/

/-- The kernel, and beside it the priority last given to each thread by `thread_create` or
`thread_set_priority`. -/
structure Donating where
  kernel : Kernel
  given : ThreadRef → Int

/-- The frame an event runs. -/
def Event.runs (e : Event) (k : Kernel) : Option Frame :=
  match e with
  | .run _ => k.next k.current
  | _ => none

/-- One event, with what it gives. -/
def donatingStep (e : Event) (s : Donating) : Except Fault Donating := do
  let k ← step e s.kernel
  .ok { kernel := k, given := match e.runs s.kernel with
    | some f => f.give s.kernel.current s.given
    | none => s.given }

/-- The state in which `thread_start` returns: `main` has the priority `thread_init` gave it and
`idle` the one `thread_start` did. -/
def Donating.start (b : Boot) : Donating where
  kernel := afterThreadStart b
  given := fun t => if t = b.main then priDefault else if t = b.idle then priMin else 0

/-- The event keeps to the interface of the primitives. -/
def Donating.Proper (s : Donating) (e : Event) : Prop :=
  ∀ f, e.runs s.kernel = some f → f.Proper s.kernel

/-- The event avoids the situations in which the code loses or invents a donation. -/
def Donating.Careful (s : Donating) (e : Event) : Prop :=
  (∀ f, e.runs s.kernel = some f → f.Careful s.kernel) ∧
    (e = .tick → ∀ l, s.kernel.next s.kernel.current ≠ some (.lockTryAcquired l))

/-- A step of the run with the given priorities is a step, and its record. -/
theorem donatingStep_eq_ok {e : Event} {s s' : Donating} (h : donatingStep e s = .ok s') :
    step e s.kernel = .ok s'.kernel ∧ s'.given = match e.runs s.kernel with
      | some f => f.give s.kernel.current s.given
      | none => s.given := by
  obtain ⟨k, hk, h⟩ := bind_eq_ok.mp h
  cases h
  exact ⟨hk, rfl⟩

/-- A run of the kernel beside its ghost is a run of the kernel. -/
theorem Donating.reach {ok : Donating → Event → Prop} {b : Boot} {s : Donating}
    (h : ReachWhere (Steps donatingStep) ok (.start b) s) :
    Reach (Steps step) (afterThreadStart b) s.kernel :=
  h.map Donating.kernel (fun _ _ _ hx => (donatingStep_eq_ok hx).1) fun _ _ _ _ => trivial

/-- At first nobody waits for a lock. -/
theorem donated_afterThreadStart (b : Boot) : Donated (afterThreadStart b) := by
  have hframes : ∀ t, ((afterThreadStart b).threads t).frames =
      if t = b.main then [] else if t = b.idle then [.idleBlock] else [] := by
    intro t
    simp only [afterThreadStart]
    split
    · rfl
    · split <;> rfl
  have hnext : ∀ t g, (afterThreadStart b).next t = some g → g = .idleBlock := by
    intro t g hg
    rw [Kernel.next, hframes] at hg
    split at hg
    · cases hg
    · split at hg <;> cases hg
      rfl
  have hequal : ∀ t, (afterThreadStart b).prio t = (afterThreadStart b).base t ∧
      0 ≤ (afterThreadStart b).base t := by
    intro t
    simp only [Kernel.prio, Kernel.base, afterThreadStart]
    split
    · exact ⟨rfl, by decide⟩
    · split
      · exact ⟨rfl, by decide⟩
      · exact ⟨rfl, by decide⟩
  constructor
  case exact =>
    refine ⟨fun t _ => le_of_eq (hequal t).1.symm, fun hl => ?_, fun t _ => .inl (hequal t).1⟩
    cases hl
  case baseNonneg => exact fun {t} _ => (hequal t).2
  case recorded => exact fun _ => rfl
  case holderLive => exact fun hl => by cases hl
  case held => exact fun hl => by cases hl
  case free => exact fun _ => .inl rfl
  case heldLocks =>
    intro t l _ hm
    simp only [afterThreadStart] at hm
    split at hm
    · cases hm
    · split at hm <;> cases hm
  case waiting =>
    intro t
    have hnone : (afterThreadStart b).waitingLock t = none := by
      simp only [Kernel.waitingLock, afterThreadStart]
      split
      · rfl
      · split <;> rfl
    rw [hnone]
    cases hn : (afterThreadStart b).next t with
    | none => rfl
    | some g =>
      rw [hnext t g hn]
      rfl
  case queued => exact fun hm => by cases hm
  case shaped =>
    intro t g hg
    rw [hframes] at hg
    split at hg
    · cases hg
    · split at hg
      · rw [List.mem_singleton.mp hg]
        trivial
      · cases hg
  case behind =>
    intro t g hg
    rw [hframes] at hg
    split at hg
    · cases hg
    · split at hg <;> cases hg
  case gap =>
    intro t l hg
    cases hnext t _ hg
  case woken => exact fun _ hw => absurd rfl hw

/-- What a run keeps. -/
structure Donating.Kept (s : Donating) : Prop where
  donated : Donated s.kernel
  base : s.kernel.base = s.given

/-- Every careful step keeps the donations and the given priorities. -/
theorem Donating.Kept.of_step {b : Boot} {e : Event} {s s' : Donating} (h : s.Kept)
    (hr : Reach (Steps step) (afterThreadStart b) s.kernel) (hproper : s.Proper e)
    (hcareful : s.Careful e) (hx : donatingStep e s = .ok s') : s'.Kept := by
  have hk := reach_coherent hr
  have hs := reach_strict hr
  obtain ⟨hx, hgiven⟩ := donatingStep_eq_ok hx
  obtain ⟨prev, rfl, _, hx⟩ | ⟨c, rfl, _, hf, hk'⟩ | ⟨page, f, rest, rfl, hn, hf, hx⟩ |
    ⟨rfl, _, hx, hoff⟩ := step_eq_ok hx
  · refine ⟨h.donated.of_tail hx, ?_⟩
    rw [hgiven]
    exact (base_threadScheduleTail hx).trans h.base
  · refine ⟨hk' ▸ h.donated.of_call hf, ?_⟩
    rw [hk', hgiven]
    exact (funext (sameLocks_setFrames s.kernel _).base).trans h.base
  · have hruns : (Event.run page).runs s.kernel = some f := by
      show s.kernel.next s.kernel.current = some f
      rw [Kernel.next, hf]
      rfl
    refine ⟨h.donated.of_run hk hs hn hf (hproper f hruns) (hcareful.1 f hruns) hx, ?_⟩
    rw [hgiven, hruns, exec_base hx (h.donated.shaped (hf ▸ List.mem_cons_self)), ← h.base]
    congr 1
    exact funext (sameLocks_setFrames s.kernel rest).base
  · refine ⟨h.donated.of_tick (fun g hg => ?_) hx, ?_⟩
    · -- interrupts are off at the return from a wait, and no tick falls into the gap
      have hgoff := hoff g hg
      cases g with
      | semaDownLoop s m => cases hgoff
      | lockTryAcquired l => exact absurd hg (hcareful.2 rfl l)
      | _ => rfl
    · rw [hgiven]
      exact (funext (sameLocks_timerInterrupt hx).base).trans h.base

/-- Donations and given priorities are kept in every state of a careful run. -/
theorem Donating.kept {b : Boot} {s : Donating}
    (h : ReachWhere (Steps donatingStep) (fun s e => s.Proper e ∧ s.Careful e) (.start b) s) :
    s.Kept := by
  refine ReachWhere.invariant_with ?_ (fun s hs => Donating.reach hs)
    (fun s e s' hr hs hok hx => hs.of_step hr hok.1 hok.2 hx) h
  refine ⟨donated_afterThreadStart b, ?_⟩
  funext t
  simp only [Kernel.base, Donating.start, afterThreadStart]
  split
  · rfl
  · split <;> rfl

/-- Priority donation is exact along every run that avoids the listed situations: the priority of
each live thread is the largest of its base priority and the priorities of all threads blocked,
directly or through a chain of locks, on a lock it holds; and its base priority is the one it was
last given. -/
theorem donation_exact (b : Boot) (s : Donating)
    (h : ReachWhere (Steps donatingStep) (fun s e => s.Proper e ∧ s.Careful e) (.start b) s)
    (t : ThreadRef) (ht : s.kernel.Live t) :
    IsGreatest ({s.kernel.base t} ∪
      {p | ∃ w, Donor s.kernel.holder s.kernel.Blocked t w ∧ s.kernel.prio w = p})
      (s.kernel.prio t) ∧ s.kernel.base t = s.given t := by
  have hk := Donating.kept h
  exact ⟨hk.donated.exact.greatest ht, congrFun hk.base t⟩

/-! ## Two runs -/

/-- A thread of priority 33 waits for a lock that `main` holds, and `main` is back in thread
code, at priority 33. -/
def donorWaits : List Event :=
  [.call (.lockAcquire 0), .run none] ++ createEvents 2 33 ++
    [.call (.lockAcquire 0), .run none, .tail]

/-- `thread_set_priority`. -/
def changePriority (p : Int) : List Event :=
  [.call (.threadSetPriority p), .run none, .tail]

/-- A test that implies `Proper`. -/
def Donating.properTest (s : Donating) (e : Event) : Bool :=
  match e.runs s.kernel with
  | some (.threadSetPriority p) => decide (priMin ≤ p ∧ p ≤ priMax)
  | some .threadExit => false
  | _ => true

/-- The test decides the calls' own preconditions. -/
theorem Donating.proper_of_test {s : Donating} {e : Event} (h : s.properTest e = true) :
    s.Proper e := by
  intro f hf
  unfold Donating.properTest at h
  rw [hf] at h
  cases f with
  | threadSetPriority p => simpa [Frame.Proper] using h
  | threadExit => cases h
  | _ => trivial

/-- Two changes of priority under one donation lose it: `main` raises itself above its donor and
then drops below it. -/
theorem donation_lost : ¬ ∀ (b : Boot) (s : Donating),
    ReachWhere (Steps donatingStep) Donating.Proper (.start b) s → s.kernel.InThreadCode →
    ∀ t, s.kernel.Live t →
      IsGreatest ({s.kernel.base t} ∪
        {p | ∃ w, Donor s.kernel.holder s.kernel.Blocked t w ∧ s.kernel.prio w = p})
        (s.kernel.prio t) ∧ s.kernel.base t = s.given t := by
  intro hall
  obtain ⟨s, hr, hp⟩ := exists_of_replay donatingStep Donating.properTest
    (donorWaits ++ changePriority 40 ++ changePriority 20) (.start smallBoot)
    (fun s => s.kernel.scheduleTail.isNone && (s.kernel.threads s.kernel.current).frames == [] &&
      (s.kernel.threads 0).magic && s.kernel.prio 0 == 20 && s.kernel.prio 2 == 33 &&
      s.kernel.holder (.user 0) == some 0 && s.kernel.waiters (.user 0) == [2])
    (by decide +kernel)
  simp only [Bool.and_eq_true, beq_iff_eq, Option.isNone_iff_eq_none] at hp
  obtain ⟨⟨⟨⟨⟨⟨htail, hframes⟩, hlive⟩, hprio⟩, hdonor⟩, hholder⟩, hwaiters⟩ := hp
  have hr' := hr.weaken fun _ _ => Donating.proper_of_test
  have hgreatest := (hall smallBoot s hr' ⟨htail, hframes⟩ 0 hlive).1
  have hblocked : s.kernel.Blocked 2 (.user 0) := by
    unfold Kernel.Blocked
    rw [hwaiters]
    simp
  have hle := hgreatest.2 (.inr ⟨2, .direct hholder hblocked, rfl⟩)
  rw [hdonor, hprio] at hle
  omega

/-- A test that implies `Careful`, for runs in which nobody waits while `main` releases a lock. -/
def Donating.carefulTest (s : Donating) (e : Event) : Bool :=
  s.properTest e && e != .tick && match e.runs s.kernel with
  | some (.threadSetPriority _) => decide (s.kernel.base s.kernel.current <
      s.kernel.prio s.kernel.current)
  | some (.lockRelease _) => (s.kernel.initialThread :: s.kernel.allList).all fun w =>
      (s.kernel.waitingLock w).isNone
  | some (.lockAcquire l) => match s.kernel.holder l with
    | some t => (s.kernel.waitingLock t).isNone
    | none => true
  | some (.semaDownLoop _ (some _)) => false
  | _ => true

/-- The test decides the condition on the step. -/
theorem Donating.careful_of_test {b : Boot} {s : Donating} {e : Event}
    (hr : ReachWhere (Steps donatingStep) (fun s e => s.Proper e ∧ s.Careful e) (.start b) s)
    (h : s.carefulTest e = true) : s.Proper e ∧ s.Careful e := by
  unfold Donating.carefulTest at h
  simp only [Bool.and_eq_true, bne_iff_ne, ne_eq] at h
  obtain ⟨⟨hproper, htick⟩, h⟩ := h
  refine ⟨Donating.proper_of_test hproper, fun f hf => ?_, fun he => absurd he htick⟩
  rw [hf] at h
  cases f with
  | threadSetPriority p =>
    intro hle
    have hlt := of_decide_eq_true h
    omega
  | lockRelease l =>
    intro l' w _ _ _ hw
    exfalso
    -- a queued thread is on `all_list` and has a `waiting_lock`
    have hk := reach_coherent (Donating.reach hr)
    have hq : w ∈ s.kernel.queue (.sema (.lock l')) := hw
    have hd := (Donating.kept hr).donated
    have hwaits : s.kernel.waitingLock w = some l' := by
      rw [hd.waiting, hd.queued hw]
      rfl
    have hmem : w ∈ s.kernel.initialThread :: s.kernel.allList := by
      rcases reach_listed (Donating.reach hr) w (hk.placed.queued hq).1 with hm | hi | ⟨_, hdy⟩
      · exact List.mem_cons_of_mem _ hm
      · rw [hi]
        exact List.mem_cons_self
      · rw [(hk.placed.queued hq).2] at hdy
        cases hdy
    have hnone := List.all_eq_true.mp h w hmem
    rw [hwaits] at hnone
    cases hnone
  | lockAcquire l =>
    intro u l' hc hwu
    exfalso
    dsimp only at h
    cases hc with
    | here ht =>
      rw [ht] at h
      simp [hwu] at h
    | there ht hc =>
      rw [ht] at h
      rw [Option.isNone_iff_eq_none.mp h] at hc
      cases hc
  | semaDownLoop s' m =>
    cases m with
    | none => trivial
    | some l => cases h
  | _ => trivial

/-- With one change of priority the donation is kept: `main`, of base priority 20, runs at the
priority 33 of its donor. -/
theorem donation_kept : ∃ s,
    ReachWhere (Steps donatingStep) (fun s e => s.Proper e ∧ s.Careful e) (.start smallBoot) s ∧
    s.kernel.InThreadCode ∧ Donor s.kernel.holder s.kernel.Blocked 0 2 ∧ s.kernel.prio 0 = 33 ∧
    s.kernel.base 0 = 20 ∧ IsGreatest ({s.kernel.base 0} ∪
      {p | ∃ w, Donor s.kernel.holder s.kernel.Blocked 0 w ∧ s.kernel.prio w = p})
      (s.kernel.prio 0) := by
  obtain ⟨s, hr, hp⟩ := exists_of_replay donatingStep Donating.carefulTest
    (donorWaits ++ changePriority 20) (.start smallBoot)
    (fun s => s.kernel.scheduleTail.isNone && (s.kernel.threads s.kernel.current).frames == [] &&
      (s.kernel.threads 0).magic && s.kernel.prio 0 == 33 && s.kernel.base 0 == 20 &&
      s.kernel.holder (.user 0) == some 0 && s.kernel.waiters (.user 0) == [2])
    (by decide +kernel)
  simp only [Bool.and_eq_true, beq_iff_eq, Option.isNone_iff_eq_none] at hp
  obtain ⟨⟨⟨⟨⟨⟨htail, hframes⟩, hlive⟩, hprio⟩, hbase⟩, hholder⟩, hwaiters⟩ := hp
  have hr' := hr.follow fun _ _ => Donating.careful_of_test
  have hblocked : s.kernel.Blocked 2 (.user 0) := by
    unfold Kernel.Blocked
    rw [hwaiters]
    simp
  exact ⟨s, hr', ⟨htail, hframes⟩, .direct hholder hblocked, hprio, hbase,
    (donation_exact smallBoot s hr' 0 hlive).1⟩

end Pintos.Threads
