import Pintos.Threads.PriorityDonation
import Pintos.Threads.Semaphores
import Pintos.Threads.Sleep

/-!
# The books of a lock

Four pieces of data say who has a lock and who waits for it: `holder` and the value of the
semaphore, the `held_locks` of a thread, its `waiting_lock`, and the `max_waiter_priority` of the
lock. `Books` says that they agree with each other and with the queue of waiters.

They do along every run that avoids the situations of `Frame.Booked`. `lock_try_acquire` sets the
holder but does not put the lock on `held_locks`, as `lock_acquire` does. The walk of
`lock_acquire` writes its caller's priority into every lock on its way and raises every holder:
it is wrong about a lock that it reaches through a stale `waiting_lock`, about one with a waiter
of higher priority, and about one that a holder it raises is queued on and that nobody holds,
where it stops. A priority below the `-1` that stands for no waiters is never recorded. And a new
thread may get the page of one that exited with a lock, and is the holder then.
-/

namespace Pintos.Threads

open Pintos.Lib

variable {page : Option ThreadRef} {k k' : Kernel} {f : Frame} {rest : List Frame}

/-- The walk of `lock_acquire` gets the lock `l'` right, which it comes to through `u`: it stops
there if nobody holds `l'`, and records its caller's priority otherwise. -/
def Kernel.Walkable (k : Kernel) (u : ThreadRef) (l' : LockRef) : Prop :=
  match k.holder l' with
  | none => u ∈ k.waiters l' → ∃ w ∈ k.waiters l', k.prio k.current ≤ k.prio w
  | some _ => (u ∈ k.waiters l' ∨ ∃ w ∈ k.waiters l', k.prio w = k.prio k.current) ∧
      ∀ w ∈ k.waiters l', k.prio w ≤ k.prio k.current

/-- The situations in which the code keeps the books; see the head of this module. -/
def Frame.Booked (k : Kernel) : Frame → Prop
  | .lockTryAcquire l => k.lockValue (.user l) = 0
  | .lockTryAcquired _ => False
  | .lockAcquire l => k.lockValue l = 0 → -1 ≤ k.prio k.current ∧ ∀ u l',
      OnChain k.holder k.waitingLock (some l) u → k.waitingLock u = some l' → k.Walkable u l'
  | .initThread t _ => ∀ l, k.holder l ≠ some t
  | _ => True

/-- What is recorded about locks agrees; see the head of this module. -/
structure Books (k : Kernel) : Prop where
  stacked : Stacked k
  held : ∀ {l t}, k.holder l = some t → k.lockValue l = 0
  free : ∀ {l}, k.holder l = none → k.lockValue l = 1
  listed : ∀ {t l}, k.Live t → (l ∈ (k.threads t).heldLocks ↔ k.holder l = some t)
  nodup : ∀ {t}, k.Live t → (k.threads t).heldLocks.Nodup
  recorded : ∀ l, k.recorded l = foldMax k.prio (-1) (k.waiters l).reverse
  waits : ∀ {t l}, k.waitingLock t = some l → -1 ≤ k.prio t

/-! ## Steps that touch no lock -/

/-- Nothing that the books are about has changed, and nobody has come to life. -/
theorem Books.of_still (h : Books k) (hst : Stacked k')
    (hthreads : ∀ t, k'.prio t = k.prio t ∧ k'.waitingLock t = k.waitingLock t ∧
      (k'.threads t).heldLocks = (k.threads t).heldLocks)
    (hmagic : ∀ t, k'.Live t → k.Live t) (hholder : ∀ l, k'.holder l = k.holder l)
    (hvalue : ∀ l, k'.lockValue l = k.lockValue l)
    (hwaiters : ∀ l, k'.waiters l = k.waiters l)
    (hrecorded : ∀ l, k'.recorded l = k.recorded l) : Books k' where
  stacked := hst
  held := by
    intro l t hl
    rw [hholder] at hl
    rw [hvalue]
    exact h.held hl
  free := by
    intro l hl
    rw [hholder] at hl
    rw [hvalue]
    exact h.free hl
  listed := by
    intro t l ht
    rw [(hthreads t).2.2, hholder]
    exact h.listed (hmagic t ht)
  nodup := by
    intro t ht
    rw [(hthreads t).2.2]
    exact h.nodup (hmagic t ht)
  recorded := by
    intro l
    have hprio : k'.prio = k.prio := funext fun t => (hthreads t).1
    rw [hrecorded, hwaiters, hprio]
    exact h.recorded l
  waits := by
    intro t l ht
    rw [(hthreads t).2.1] at ht
    rw [(hthreads t).1]
    exact h.waits ht

/-- A step that leaves locks and priorities alone. -/
theorem Books.of_sameLocks (h : Books k) (hst : Stacked k') (hs : SameLocks k k') : Books k' :=
  h.of_still hst (fun t => ⟨hs.prio t, hs.waitingLock t, hs.heldLocks t⟩)
    (fun t => (hs.live t).mp) hs.holder hs.lockValue hs.waiters hs.recorded

/-- The running thread puts plain code in the place of plain code. -/
theorem Stacked.of_plain (h : Stacked k) (fs : List Frame)
    (hf : (k.threads k.current).frames = f :: rest) (hret : f.isReturn = false)
    (hs : SameLocks k k') (hnot : ∀ l, k.current ∉ k.waiters l)
    (hframes : ∀ t, (k'.threads t).frames =
      if t = k.current then fs ++ rest else (k.threads t).frames)
    (hfs : ∀ g ∈ fs, g.isReturn = false ∧ g.Shaped) : Stacked k' := by
  have hcur := h.waitingLock_of_plain hf hret
  refine h.of_frames fs hf hframes (fun g hg => (hfs g hg).2)
    (fun g hg => (hfs g (List.mem_of_mem_tail hg)).1) ?_ (fun t _ => hs.waitingLock t) hnot
    (fun l t ht => .inl (hs.waiters l ▸ ht))
  rw [hs.waitingLock, hcur]
  cases fs with
  | nil => rfl
  | cons g gs => exact (Frame.awaits_of_plain (hfs g List.mem_cons_self).1).symm

/-! ## Taking a lock and waiting for it -/

/-- A free lock that is taken is on the taker's list. -/
theorem Books.of_taken {l : LockRef} (h : Books k) (hk : Coherent k)
    (hf : (k.threads k.current).frames = f :: rest)
    (ht : Taken k k' l ((k.threads k.current).heldLocks ++ [l]) rest)
    (hfree : k.holder l = none) : Books k' := by
  have hother : ∀ {l'}, l' ≠ l → k'.holder l' = k.holder l' := fun hne => by
    rw [ht.holder, if_neg hne]
  have hself : k'.holder l = some k.current := by rw [ht.holder, if_pos rfl]
  constructor
  case stacked =>
    exact h.stacked.of_frames [] hf ht.frames (by simp) (by simp) ht.waitingSelf ht.waitingLock
      hk.not_waiting fun l' t hm => .inl (ht.waiters l' ▸ hm)
  case held =>
    intro l' t hl'
    rw [ht.lockValue]
    split
    next => rfl
    next he =>
      rw [hother he] at hl'
      exact h.held hl'
  case free =>
    intro l' hl'
    have he : l' ≠ l := by
      intro he
      rw [he, hself] at hl'
      cases hl'
    rw [hother he] at hl'
    rw [ht.lockValue, if_neg he]
    exact h.free hl'
  case listed =>
    intro t l' hl
    rw [ht.live] at hl
    have hold := h.listed (l := l') hl
    rw [ht.heldLocks, ht.holder]
    by_cases htc : t = k.current
    · subst htc
      by_cases he : l' = l
      · simp [he]
      · simp only [if_pos, List.mem_append, List.mem_singleton, he, or_false, if_false]
        exact hold
    · rw [if_neg htc]
      by_cases he : l' = l
      · rw [he, hfree] at hold
        rw [he, if_pos rfl]
        refine ⟨fun hm => ?_, fun hc => absurd (Option.some.inj hc).symm htc⟩
        cases hold.mp hm
      · rw [if_neg he]
        exact hold
  case nodup =>
    intro t hl
    rw [ht.live] at hl
    rw [ht.heldLocks]
    split
    next htc =>
      subst htc
      rw [← List.concat_eq_append]
      refine (h.nodup hl).concat fun hm => ?_
      rw [h.listed hl, hfree] at hm
      cases hm
    next => exact h.nodup hl
  case recorded =>
    intro l'
    have hprio : k'.prio = k.prio := funext ht.prio
    rw [ht.recorded, ht.waiters, hprio]
    exact h.recorded l'
  case waits =>
    intro t l' hl'
    have htc : t ≠ k.current := by
      intro he
      rw [he, ht.waitingSelf] at hl'
      cases hl'
    rw [ht.waitingLock t htc] at hl'
    rw [ht.prio]
    exact h.waits hl'

/-- Who waits has raised the record of the lock. -/
theorem Books.of_joined {l : LockRef} (h : Books k) (hk : Coherent k)
    (hf : (k.threads k.current).frames = f :: rest) (hj : Joined k k' l rest)
    (hrecorded : ∀ l', l' ≠ l → k'.recorded l' = foldMax k'.prio (-1) (k.waiters l').reverse)
    (hup : ∀ t, k.prio t ≤ k'.prio t) (hcur : -1 ≤ k.prio k.current) : Books k' := by
  constructor
  case stacked =>
    refine h.stacked.of_frames [.awaiting l] hf hj.frames ?_ (by simp) hj.waitingSelf
      hj.waitingLock hk.not_waiting fun l' t hm => ?_
    · intro g hg
      rw [List.mem_singleton.mp hg]
      rfl
    · rcases hj.blocked.mp hm with hm | ⟨ht, hl'⟩
      · exact .inl hm
      · exact .inr ⟨ht, by rw [hl']; rfl⟩
  case held =>
    intro l' t hl'
    rw [hj.holder] at hl'
    rw [hj.lockValue]
    exact h.held hl'
  case free =>
    intro l' hl'
    rw [hj.holder] at hl'
    rw [hj.lockValue]
    exact h.free hl'
  case listed =>
    intro t l' hl
    rw [hj.heldLocks, hj.holder]
    exact h.listed ((hj.live t).mp hl)
  case nodup =>
    intro t hl
    rw [hj.heldLocks]
    exact h.nodup ((hj.live t).mp hl)
  case recorded =>
    intro l'
    by_cases he : l' = l
    · rw [he]
      exact hj.recorded
    · rw [hj.waiters, if_neg he]
      exact hrecorded l' he
  case waits =>
    intro t l' hl'
    by_cases htc : t = k.current
    · rw [htc]
      exact le_trans hcur (hup _)
    · rw [hj.waitingLock t htc] at hl'
      exact le_trans (h.waits hl') (hup t)

/-- A lock that can be taken has no holder. -/
theorem Books.free_of_value {l : LockRef} (h : Books k) (hv : k.lockValue l ≠ 0) :
    k.holder l = none ∧ k.lockValue l = 1 := by
  cases hl : k.holder l with
  | none => exact ⟨rfl, h.free hl⟩
  | some t => exact absurd (h.held hl) hv

/-- The return from a wait. -/
theorem Books.of_resume {l : LockRef} (h : Books k) (hk : Coherent k)
    (hf : (k.threads k.current).frames = .awaiting l :: rest)
    (hawake : ∀ t ∈ k.readyList, t ∈ k'.readyList ∨ t = k'.current)
    (hx : semaDownResume (.lock l) (some l) (k.setFrames k.current rest) = .ok k') :
    Books k' := by
  obtain ⟨_, hj, hp, hrec⟩ | ⟨hnz, htaken⟩ := semaDownResume_spec hawake hx
  · have hpf : k'.prio = k.prio := funext hp
    apply h.of_joined hk hf hj
    · intro l' he
      rw [hrec l' he, hpf]
      exact h.recorded l'
    · intro t
      rw [hpf]
    · apply h.waits (l := l)
      rw [h.stacked.waiting, Kernel.next, hf]
      rfl
  · obtain ⟨hfree, hone⟩ := h.free_of_value hnz
    exact h.of_taken hk hf (htaken hone) hfree

/-- `lock_acquire`, with a walk that gets every lock on its way right. -/
theorem Books.of_lockAcquire {l : LockRef} (h : Books k) (hk : Coherent k)
    (hf : (k.threads k.current).frames = .lockAcquire l :: rest)
    (hbooked : Frame.Booked k (.lockAcquire l))
    (hawake : ∀ t ∈ k.readyList, t ∈ k'.readyList ∨ t = k'.current)
    (hx : lockAcquire l (k.setFrames k.current rest) = .ok k') : Books k' := by
  have hwait := h.stacked.waitingLock_of_plain hf rfl
  obtain ⟨hz, hj, hup, hrest, hpass, hkeep⟩ | ⟨hnz, htaken⟩ := lockAcquire_spec hwait hawake hx
  · obtain ⟨hcur, hwalk⟩ := hbooked hz
    have hmono : ∀ t, k.prio t ≤ k'.prio t := by
      intro t
      by_cases ht : OnChain k.holder k.waitingLock (some l) t
      · rw [(hup t ht).2]
        exact le_of_lt (hup t ht).1
      · rw [hrest t ht]
    have hwaits : ∀ {w l'}, w ∈ k.waiters l' → k.waitingLock w = some l' := by
      intro w l' hw
      rw [h.stacked.waiting, h.stacked.queued hw]
      rfl
    apply h.of_joined hk hf hj _ hmono hcur
    intro l' he
    by_cases hpl : Lib.Passes k.holder k.waitingLock (some l) l'
    · rw [hpass l' he hpl]
      obtain ⟨hprev, v, hv, _⟩ := hpl.prev rfl
      obtain ⟨u, hu, hwu⟩ := hprev.resolve_left he
      have hwalk' := hwalk u l' hu hwu
      unfold Kernel.Walkable at hwalk'
      rw [hv] at hwalk'
      obtain ⟨htop, hle⟩ := hwalk'
      have hle' : ∀ w ∈ k.waiters l', k'.prio w ≤ k.prio k.current := by
        intro w hw
        by_cases hcw : OnChain k.holder k.waitingLock (some l) w
        · rw [(hup w hcw).2]
        · rw [hrest w hcw]
          exact hle w hw
      refine (foldMax_eq hcur (fun w hw => hle' w (List.mem_reverse.mp hw)) (.inr ?_)).symm
      rcases htop with htop | ⟨w, hw, hpw⟩
      · exact ⟨u, List.mem_reverse.mpr htop, (hup u hu).2⟩
      · refine ⟨w, List.mem_reverse.mpr hw, le_antisymm (hle' w hw) ?_⟩
        rw [← hpw]
        exact hmono w
    · rw [hkeep l' he hpl, h.recorded l']
      -- whoever the walk has raised is queued on no lock, or on one where it stopped
      have hraised : ∀ w ∈ k.waiters l', OnChain k.holder k.waitingLock (some l) w →
          ∃ v ∈ k.waiters l', k.prio k.current ≤ k.prio v := by
        intro w hw hc
        have hwalk' := hwalk w l' hc (hwaits hw)
        unfold Kernel.Walkable at hwalk'
        cases hv : k.holder l' with
        | none =>
          rw [hv] at hwalk'
          exact hwalk' hw
        | some v => exact absurd (hc.passes (hwaits hw) hv) hpl
      refine (foldMax_of_le (fun w _ => hmono w) fun w hw => ?_).symm
      have hcap := (@foldMax_spec _ k.prio (k.waiters l').reverse (-1)).2.1
      by_cases hc : OnChain k.holder k.waitingLock (some l) w
      · obtain ⟨v, hv, hle⟩ := hraised w (List.mem_reverse.mp hw) hc
        rw [(hup w hc).2]
        exact le_trans hle (hcap v (List.mem_reverse.mpr hv))
      · rw [hrest w hc]
        exact hcap w hw
  · obtain ⟨hfree, hone⟩ := h.free_of_value hnz
    exact h.of_taken hk hf (htaken hfree hone) hfree

/-! ## Giving up a lock, and priorities -/

/-- A lock given up, if there is one, and new priorities for the running thread. -/
theorem Books.of_recomputed {given : Option LockRef} (h : Books k) (hk : Coherent k)
    (hf : (k.threads k.current).frames = f :: rest) (hret : f.isReturn = false)
    (hr : Recomputed k k' given rest)
    (hheld : ∀ l, given = some l → k.holder l = some k.current) : Books k' := by
  have hkept : ∀ {l t}, k'.holder l = some t → given ≠ some l ∧ k.holder l = some t := by
    intro l t hl
    rw [hr.holder] at hl
    split at hl
    next => cases hl
    next hg => exact ⟨hg, hl⟩
  have hne : ∀ {w l}, w ∈ k.waiters l → w ≠ k.current := by
    intro w l hw he
    exact hk.not_waiting l (he ▸ hw)
  constructor
  case stacked =>
    exact h.stacked.of_frames [] hf hr.frames (by simp) (by simp)
      ((hr.waitingLock _).trans (h.stacked.waitingLock_of_plain hf hret))
      (fun t _ => hr.waitingLock t) hk.not_waiting fun l t hm => .inl (hr.waiters_sub l t hm)
  case held =>
    intro l t hl
    rw [hr.lockValue, if_neg (hkept hl).1]
    exact h.held (hkept hl).2
  case free =>
    intro l hl
    rw [hr.holder] at hl
    rw [hr.lockValue]
    split at hl
    next hg => exact if_pos hg
    next hg =>
      rw [if_neg hg]
      exact h.free hl
  case listed =>
    intro t l hl
    have hold := h.listed (l := l) ((hr.live t).mp hl)
    rw [hr.heldLocks, hr.holder]
    by_cases hg : given = some l
    · rw [if_pos hg]
      rw [hheld l hg] at hold
      split
      next => simp [hg]
      next ht =>
        rw [hold]
        exact ⟨fun he => absurd (Option.some.inj he).symm ht, fun he => by cases he⟩
    · rw [if_neg hg, ← hold]
      split
      next => simp [hg]
      next => exact Iff.rfl
  case nodup =>
    intro t hl
    have hold := h.nodup ((hr.live t).mp hl)
    rw [hr.heldLocks]
    split
    · exact hold.filter _
    · exact hold
  case recorded =>
    intro l
    by_cases hg : given = some l
    · exact hr.recordedGiven l hg
    · rw [hr.recorded l hg, hr.waiters l hg]
      refine (h.recorded l).trans (foldMax_congr fun w hw => ?_)
      exact (hr.prio w (hne (List.mem_reverse.mp hw))).symm
  case waits =>
    intro t l hl
    rw [hr.waitingLock] at hl
    have ht : t ≠ k.current := by
      intro he
      rw [he, h.stacked.waitingLock_of_plain hf hret] at hl
      cases hl
    rw [hr.prio t ht]
    exact h.waits hl

/-- `lock_release`. -/
theorem Books.of_lockRelease {l : LockRef} (h : Books k) (hk : Coherent k)
    (hf : (k.threads k.current).frames = .lockRelease l :: rest)
    (hx : lockRelease l (k.setFrames k.current rest) = .ok k') : Books k' := by
  obtain ⟨hl, hx⟩ := lockRelease_eq_ok hx
  have hl' : k.holder l = some k.current := hl
  obtain ⟨hr, _, _⟩ := recomputed_of_release hk (h.held hl') (h.recorded l) hx
  apply h.of_recomputed hk hf rfl hr
  intro l₁ hg
  cases hg
  exact hl'

/-- `thread_set_priority`. -/
theorem Books.of_threadSetPriority {p : Int} (h : Books k) (hk : Coherent k)
    (hf : (k.threads k.current).frames = .threadSetPriority p :: rest)
    (hx : threadSetPriority p (k.setFrames k.current rest) = .ok k') : Books k' := by
  obtain ⟨hr, _, _⟩ := recomputed_of_setPriority hx
  apply h.of_recomputed hk hf rfl hr
  intro l hg
  cases hg

/-! ## A new thread -/

/-- A thread on a page that held none has no lock and waits for none. -/
theorem Books.of_fresh {t : ThreadRef} {p : Int} (h : Books k) (hk : Coherent k)
    (hdead : ¬ k.Live t) (hholds : ∀ l, k.holder l ≠ some t) :
    Books ({ k with allList := k.allList ++ [t] }.modThread t fun _ =>
      bootThread 0 p 0 .blocked []) := by
  have hframes₀ : (k.threads t).frames = [] :=
    hk.framed.dead t (by simpa [Kernel.Live] using hdead)
  have hthreads : ∀ u, ({ k with allList := k.allList ++ [t] }.modThread t fun _ =>
      bootThread 0 p 0 .blocked []).threads u =
      if u = t then bootThread 0 p 0 .blocked [] else k.threads u :=
    fun u => Kernel.modThread_threads _ _ _ _
  have hlocks : ({ k with allList := k.allList ++ [t] }.modThread t fun _ =>
      bootThread 0 p 0 .blocked []).locks = k.locks := rfl
  have hsemas : ({ k with allList := k.allList ++ [t] }.modThread t fun _ =>
      bootThread 0 p 0 .blocked []).semas = k.semas := rfl
  generalize ({ k with allList := k.allList ++ [t] }.modThread t fun _ =>
      bootThread 0 p 0 .blocked []) = k₁ at hthreads hlocks hsemas ⊢
  have hself : k₁.threads t = bootThread 0 p 0 .blocked [] := by rw [hthreads, if_pos rfl]
  have hother : ∀ u, u ≠ t → k₁.threads u = k.threads u := fun u hu => by
    rw [hthreads, if_neg hu]
  have hframes : ∀ u, (k₁.threads u).frames = (k.threads u).frames := by
    intro u
    by_cases hu : u = t
    · rw [hu, hself, hframes₀]
      rfl
    · rw [hother u hu]
  have hholder : k₁.holder = k.holder := by
    unfold Kernel.holder
    rw [hlocks]
  have hwaiters : k₁.waiters = k.waiters := by
    unfold Kernel.waiters
    rw [hsemas]
  have hvalue : k₁.lockValue = k.lockValue := by
    unfold Kernel.lockValue
    rw [hsemas]
  -- nobody has dealt with the new thread yet
  have hnotQueued : ∀ {l u}, u ∈ k.waiters l → u ≠ t := by
    intro l u hu he
    have hq : u ∈ k.queue (.sema (.lock l)) := hu
    exact hdead (he ▸ (hk.placed.queued hq).1)
  constructor
  case stacked =>
    have hnext : k₁.next = k.next := by
      funext u
      unfold Kernel.next
      rw [hframes]
    refine ⟨fun u => ?_, fun {u l} hu => ?_, fun {u g} hg => ?_, fun {u g} hg => ?_⟩
    · rw [hnext]
      by_cases hu : u = t
      · rw [hu, Kernel.waitingLock, hself, Kernel.next, hframes₀]
        rfl
      · rw [Kernel.waitingLock, hother u hu]
        exact h.stacked.waiting u
    · rw [hwaiters] at hu
      rw [hnext]
      exact h.stacked.queued hu
    · rw [hframes] at hg
      exact h.stacked.shaped hg
    · rw [hframes] at hg
      exact h.stacked.behind hg
  case held =>
    rw [hholder, hvalue]
    exact h.held
  case free =>
    rw [hholder, hvalue]
    exact h.free
  case listed =>
    intro u l hu
    rw [hholder]
    by_cases he : u = t
    · rw [he, hself]
      constructor
      · intro hm
        cases hm
      · intro hl
        exact absurd hl (hholds l)
    · rw [Kernel.Live, hother u he] at hu
      rw [hother u he]
      exact h.listed hu
  case nodup =>
    intro u hu
    by_cases he : u = t
    · rw [he, hself]
      exact List.nodup_nil
    · rw [Kernel.Live, hother u he] at hu
      rw [hother u he]
      exact h.nodup hu
  case recorded =>
    intro l
    unfold Kernel.recorded
    rw [hlocks, hwaiters]
    refine (h.recorded l).trans (foldMax_congr fun w hw => ?_)
    unfold Kernel.prio
    rw [hother w (hnotQueued (List.mem_reverse.mp hw))]
  case waits =>
    intro u l hu
    by_cases he : u = t
    · rw [he, Kernel.waitingLock, hself] at hu
      cases hu
    · rw [Kernel.waitingLock, hother u he] at hu
      rw [Kernel.prio, hother u he]
      exact h.waits hu

/-- A frame that touches no lock and leaves plain code behind. -/
theorem Books.of_plain (h : Books k) (hk : Coherent k) (fs : List Frame)
    (hf : (k.threads k.current).frames = f :: rest) (hret : f.isReturn = false)
    (hs : SameLocks k k')
    (hframes : ∀ t, (k'.threads t).frames =
      if t = k.current then fs ++ rest else (k.threads t).frames)
    (hfs : ∀ g ∈ fs, g.isReturn = false ∧ g.Shaped) : Books k' :=
  h.of_sameLocks (h.stacked.of_plain fs hf hret hs hk.not_waiting hframes hfs) hs

/-- `init_thread`, and the two frames that give the new thread its `tid`. -/
theorem Books.of_initThread {t : ThreadRef} {p : Int} (h : Books k) (hk : Coherent k)
    (hf : (k.threads k.current).frames = .initThread t p :: rest)
    (hholds : ∀ l, k.holder l ≠ some t) :
    Books (({ k.setFrames k.current rest with allList := k.allList ++ [t] }.modThread t
      fun _ => bootThread 0 p 0 .blocked []).pushFrames k.current
        [.lockAcquire .tidLock, .allocateTid t]) := by
  have hdead : (k.threads t).magic = false := hk.framed.unmade (hf ▸ List.mem_cons_self)
  have hne : t ≠ k.current := by
    intro he
    rw [he, (hk.placed.cpuLive rfl).1] at hdead
    cases hdead
  have hfresh := h.of_fresh hk (t := t) (p := p) (by simp [Kernel.Live, hdead]) hholds
  rw [initThread_swap rest hne]
  have hcur : ({ k with allList := k.allList ++ [t] }.modThread t
      fun _ => bootThread 0 p 0 .blocked []).threads k.current = k.threads k.current :=
    Kernel.modThread_ne _ _ (Ne.symm hne)
  have hpop := popped_setFrames ({ k with allList := k.allList ++ [t] }.modThread t
    fun _ => bootThread 0 p 0 .blocked []) ([Frame.lockAcquire .tidLock, .allocateTid t] ++ rest)
  have hs := sameLocks_setFrames ({ k with allList := k.allList ++ [t] }.modThread t
    fun _ => bootThread 0 p 0 .blocked []) ([Frame.lockAcquire .tidLock, .allocateTid t] ++ rest)
  apply hfresh.of_sameLocks _ hs
  exact hfresh.stacked.of_plain [.lockAcquire .tidLock, .allocateTid t] (f := .initThread t p)
    ((congrArg Thread.frames hcur).trans hf) rfl hs hk.not_waiting hpop.frames
    (by simp [Frame.isReturn, Frame.Shaped])

/-! ## Events -/

/-- Running a frame keeps the books. -/
theorem Books.of_run (h : Books k) (hk : Coherent k) (hs : Strict k)
    (hf : (k.threads k.current).frames = f :: rest) (hbooked : f.Booked k)
    (hx : exec page (k.setFrames k.current rest) f = .ok k') : Books k' := by
  obtain ⟨fs, hfs, hpush⟩ := hk.pushes hf hx
  have hframes := frames_of_pushes hpush
  have hawake := hk.exec_awake hs hf hx
  have hshape : f.Shaped := h.stacked.shaped (t := k.current) (hf ▸ List.mem_cons_self)
  have hset := sameLocks_setFrames k rest
  cases hop : f.isLockOp with
  | false =>
    exact h.of_plain hk fs hf (Frame.isReturn_of_plain hop)
      (hset.trans (exec_sameLocks hx hop hshape)) hframes (hfs.plain hop hshape)
  | true =>
    cases f with
    | threadSetPriority p => exact h.of_threadSetPriority hk hf hx
    | initThread t p =>
      obtain ⟨k₁, h₁, hx⟩ := bind_eq_ok.mp hx
      obtain ⟨hrange, rfl⟩ := initThread_eq_ok h₁
      cases hx
      exact h.of_initThread hk hf hbooked
    | semaDownLoop s m =>
      cases m with
      | none => cases hop
      | some l =>
        have hsl : s = .lock l := hshape
        subst hsl
        exact h.of_resume hk hf hawake hx
    | lockInit l =>
      obtain ⟨⟨hw, hh, hv⟩, rfl⟩ := execLockInit_eq_ok hx
      have hrec : k.recorded (.user l) = -1 := by
        rw [h.recorded, show k.waiters (.user l) = [] from hw]
        rfl
      exact h.of_plain hk [] hf rfl (hset.trans (sameLocks_lockInit hw hh hv hrec))
        (popped_setFrames k rest).frames (by simp)
    | lockAcquire l => exact h.of_lockAcquire hk hf hbooked hawake hx
    | lockTryAcquire l =>
      obtain ⟨_, ⟨_, rfl⟩ | ⟨hv, rfl⟩⟩ := lockTryAcquire_eq_ok hx
      · exact h.of_plain hk [] hf rfl hset (popped_setFrames k rest).frames (by simp)
      · have hzero : k.lockValue (.user l) = 0 := hbooked
        have hv' : 0 < k.lockValue (.user l) := hv
        omega
    | lockTryAcquired l => exact hbooked.elim
    | lockRelease l => exact h.of_lockRelease hk hf hx
    | _ => cases hop

/-- The stacks are frames and waiters. -/
theorem Stacked.of_same (h : Stacked k)
    (hthreads : ∀ t, k'.waitingLock t = k.waitingLock t ∧
      (k'.threads t).frames = (k.threads t).frames)
    (hwaiters : ∀ l, k'.waiters l = k.waiters l) : Stacked k' := by
  have hnext : k'.next = k.next := by
    funext t
    unfold Kernel.next
    rw [(hthreads t).2]
  refine ⟨fun t => ?_, fun {t l} ht => ?_, fun {t g} hg => ?_, fun {t g} hg => ?_⟩
  · rw [hnext, (hthreads t).1]
    exact h.waiting t
  · rw [hwaiters] at ht
    rw [hnext]
    exact h.queued ht
  · rw [(hthreads t).2] at hg
    exact h.shaped hg
  · rw [(hthreads t).2] at hg
    exact h.behind hg

/-- The tail of a switch changes a status and may free a page. -/
theorem Books.of_tail {prev : Option ThreadRef} (h : Books k)
    (hx : threadScheduleTail prev { k with scheduleTail := none } = .ok k') : Books k' := by
  have hkeep : ∀ t, SameThread (k.threads t) ((k.setStatus k.current .running).threads t) :=
    (same_setStatus k k.current .running).thread
  have hthreads : ∀ t, (k'.threads t).priority = (k.threads t).priority ∧
      (k'.threads t).waitingLock = (k.threads t).waitingLock ∧
      (k'.threads t).heldLocks = (k.threads t).heldLocks ∧
      (k'.threads t).frames = (k.threads t).frames ∧
      (k'.Live t → k.Live t) := by
    intro t
    have ht := hkeep t
    obtain ⟨rfl, _⟩ | ⟨p, rfl, _, _, _, _, rfl⟩ := threadScheduleTail_eq_ok hx
    · exact ⟨ht.priority, ht.waitingLock, ht.heldLocks, ht.frames,
        fun hl => ht.magic.symm.trans hl⟩
    · unfold Kernel.Live
      rw [Kernel.modThread_threads]
      split
      next he =>
        rw [← he]
        exact ⟨ht.priority, ht.waitingLock, ht.heldLocks, ht.frames, fun hl => by cases hl⟩
      next =>
        exact ⟨ht.priority, ht.waitingLock, ht.heldLocks, ht.frames,
          fun hl => ht.magic.symm.trans hl⟩
  have hsame : k'.locks = k.locks ∧ k'.semas = k.semas := by
    obtain ⟨rfl, _⟩ | ⟨p, rfl, _, _, _, _, rfl⟩ := threadScheduleTail_eq_ok hx
    · exact ⟨rfl, rfl⟩
    · exact ⟨rfl, rfl⟩
  obtain ⟨hlocks, hsemas⟩ := hsame
  have hwaiters : ∀ l, k'.waiters l = k.waiters l := fun l => by
    unfold Kernel.waiters
    rw [hsemas]
  apply h.of_still
  · exact h.stacked.of_same (fun t => ⟨(hthreads t).2.1, (hthreads t).2.2.2.1⟩) hwaiters
  · exact fun t => ⟨(hthreads t).1, (hthreads t).2.1, (hthreads t).2.2.1⟩
  · exact fun t => (hthreads t).2.2.2.2
  · intro l
    unfold Kernel.holder
    rw [hlocks]
  · intro l
    unfold Kernel.lockValue
    rw [hsemas]
  · exact hwaiters
  · intro l
    unfold Kernel.recorded
    rw [hlocks]

/-- A call from thread code. -/
theorem Books.of_call {c : Call} (h : Books k) (hk : Coherent k)
    (hf : (k.threads k.current).frames = []) : Books (k.setFrames k.current [c.frame]) := by
  have hpop := popped_setFrames k [c.frame]
  have hs := sameLocks_setFrames k [c.frame]
  obtain ⟨hreturn, hshaped⟩ := c.frame_returns
  have hself : ((k.setFrames k.current [c.frame]).threads k.current).frames = [c.frame] := by
    rw [hpop.frames, if_pos rfl]
  have hother : ∀ {t}, t ≠ k.current →
      ((k.setFrames k.current [c.frame]).threads t).frames = (k.threads t).frames := by
    intro t ht
    rw [hpop.frames, if_neg ht]
  apply h.of_sameLocks _ hs
  refine ⟨fun t => ?_, fun {t l} ht => ?_, fun {t g} hg => ?_, fun {t g} hg => ?_⟩
  · rw [hs.waitingLock, h.stacked.waiting]
    unfold Kernel.next
    by_cases ht : t = k.current
    · rw [ht, hself, hf]
      exact (Frame.awaits_of_plain hreturn).symm
    · rw [hother ht]
  · have hw : t ∈ k.waiters l := hs.waiters l ▸ ht
    have hne : t ≠ k.current := fun he => hk.not_waiting l (he ▸ hw)
    rw [Kernel.next, hother hne]
    exact h.stacked.queued hw
  · by_cases ht : t = k.current
    · rw [ht, hself] at hg
      rw [List.mem_singleton.mp hg]
      exact hshaped
    · rw [hother ht] at hg
      exact h.stacked.shaped hg
  · by_cases ht : t = k.current
    · rw [ht, hself] at hg
      cases hg
    · rw [hother ht] at hg
      exact h.stacked.behind hg

/-- A timer interrupt. -/
theorem Books.of_tick (h : Books k) (hx : timerInterrupt k = .ok k') : Books k' := by
  have hs := sameLocks_timerInterrupt hx
  have hframes : SameFrames k k' := by
    rcases timerInterrupt_eq_ok hx with rfl | hy
    · exact fun _ => rfl
    · exact (threadYield_same hy).frames
  apply h.of_sameLocks _ hs
  exact h.stacked.of_same (fun t => ⟨hs.waitingLock t, hframes t⟩) hs.waiters

/-! ## Runs -/

/-- What a run keeps: the books, and that a thread inside a wait for a lock is asleep nowhere
else. -/
structure Tidy (k : Kernel) : Prop where
  books : Books k
  parked : k.Parked
  asleep : ∀ t ∈ k.sleepList, ∀ g, k.next t = some g → g.isReturn = false
  newborn : ∀ t, k.New t → (k.threads t).frames = []

/-- The event avoids the situations in which the code loses track of a lock. -/
def Kernel.Booked (k : Kernel) (e : Event) : Prop := ∀ f, e.runs k = some f → f.Booked k

/-- Who is being created after an event was so before, or had no page of its own. -/
theorem Coherent.new_of_step {e : Event} {t : ThreadRef} (h : Coherent k)
    (hx : step e k = .ok k') (ht : k'.New t) : k.New t ∨ (k.threads t).magic = false := by
  obtain ⟨u, g, hg, hs⟩ := ht
  rcases h.step_frames hx u with hsame | ⟨rfl, _, c, hc⟩ |
    ⟨rfl, page, f, rest, fs, _, hf, _, hfollow, hframes⟩
  · rw [hsame] at hg
    exact .inl ⟨u, g, hg, hs⟩
  · rw [hc] at hg
    have hcreates := creates_of_starts hs
    rw [List.mem_singleton.mp hg, c.frame_plain.1] at hcreates
    cases hcreates
  · rw [hframes] at hg
    rcases List.mem_append.mp hg with hg | hg
    · rcases hfollow.starts.mp ⟨g, hg, hs⟩ with rfl | ⟨p, rfl⟩
      · exact .inl ⟨k.current, _, hf ▸ List.mem_cons_self, rfl⟩
      · exact .inr (h.framed.unmade (hf ▸ List.mem_cons_self))
    · exact .inl ⟨k.current, g, hf ▸ List.mem_cons_of_mem _ hg, hs⟩

/-- Every step that meets the condition keeps the books tidy. -/
theorem Tidy.of_step {e : Event} (h : Tidy k) (hk : Coherent k) (hs : Strict k)
    (hbooked : k.Booked e) (hx : step e k = .ok k') : Tidy k' where
  books := by
    obtain ⟨prev, rfl, _, hx⟩ | ⟨c, rfl, _, hf, rfl⟩ | ⟨page, f, rest, rfl, _, hf, hx⟩ |
      ⟨rfl, _, hx, _⟩ := step_eq_ok hx
    · exact h.books.of_tail hx
    · exact h.books.of_call hk hf
    · apply h.books.of_run hk hs hf _ hx
      apply hbooked
      show k.next k.current = some f
      rw [Kernel.next, hf]
      rfl
    · exact h.books.of_tick hx
  parked := h.parked.of_step hk hx
  asleep := by
    intro t ht g hg
    rcases hk.sleeper_of_step hx ht with hold | ⟨rfl, hsleep⟩
    · have hq : t ∈ k.queue .sleep := hold
      have hne : t ≠ k.current := fun he => hk.placed.notCpu hq (he ▸ rfl)
      rcases hk.step_frames hx t with hsame | ⟨he, _⟩ | ⟨he, _⟩
      · rw [Kernel.next, hsame] at hg
        exact h.asleep t hold g hg
      · exact absurd he hne
      · exact absurd he hne
    · -- the frames behind `thread_yield_for_seconds` are plain
      obtain ⟨tick, rest, hf⟩ := Event.frames_of_sleepsUntil hsleep
      rcases hk.step_frames hx k.current with hsame | ⟨_, hnil, _⟩ |
        ⟨_, page, f, rest', fs, _, hf', _, hfollow, hframes⟩
      · rw [Kernel.next, hsame, hf] at hg
        cases hg
        rfl
      · rw [hf] at hnil
        cases hnil
      · rw [hf] at hf'
        cases hf'
        cases hfollow
        rw [Kernel.next, hframes] at hg
        apply h.books.stacked.behind (t := k.current)
        rw [hf]
        exact List.mem_of_mem_head? hg
  newborn := by
    intro t ht
    have hold : (k.threads t).frames = [] ∧ t ≠ k.current := by
      rcases hk.new_of_step hx ht with hnew | hdead
      · exact ⟨h.newborn t hnew, fun he => (hk.placed.cpuLive rfl).2.2 (he ▸ hnew)⟩
      · refine ⟨hk.framed.dead t hdead, fun he => ?_⟩
        rw [he, (hk.placed.cpuLive rfl).1] at hdead
        cases hdead
    rcases hk.step_frames hx t with hsame | ⟨he, _⟩ | ⟨he, _⟩
    · exact hsame.trans hold.1
    · exact absurd he hold.2
    · exact absurd he hold.2

/-- At first no lock is held. -/
theorem tidy_afterThreadStart (b : Boot) : Tidy (afterThreadStart b) where
  books := by
    have hd := donated_afterThreadStart b
    have hnothing : ∀ t, ((afterThreadStart b).threads t).heldLocks = [] ∧
        (afterThreadStart b).waitingLock t = none := by
      intro t
      simp only [Kernel.waitingLock, afterThreadStart]
      split
      · exact ⟨rfl, rfl⟩
      · split <;> exact ⟨rfl, rfl⟩
    refine ⟨hd.stacked, hd.held, fun _ => rfl, fun {t l} _ => ?_, fun {t} _ => ?_, hd.recorded,
      fun {t l} hw => ?_⟩
    · rw [(hnothing t).1]
      exact ⟨fun hm => absurd hm List.not_mem_nil, fun hl => by cases hl⟩
    · rw [(hnothing t).1]
      exact List.nodup_nil
    · rw [(hnothing t).2] at hw
      cases hw
  parked := by
    intro s t ht
    cases s <;> cases ht
  asleep := by
    intro t ht
    cases ht
  newborn := by
    intro t ht
    obtain ⟨u, g, hg, hs⟩ := ht
    simp only [afterThreadStart] at hg
    split at hg
    · cases hg
    · split at hg
      · rw [List.mem_singleton.mp hg] at hs
        cases hs
      · cases hg

/-- The books are tidy in every state of a run that meets the condition. -/
theorem reach_tidy {b : Boot}
    (h : ReachWhere (Steps step) Kernel.Booked (afterThreadStart b) k) : Tidy k :=
  ReachWhere.invariant_with (tidy_afterThreadStart b) (fun _ hs => hs.reach)
    (fun _ _ _ hr hs hok hx => hs.of_step (reach_coherent hr) (reach_strict hr) hok hx) h

/-- Nobody is in the middle of a lock operation, waits apart: no switch is under way, and the
threads inside `lock_acquire` and `lock_try_acquire` are blocked there. -/
def Kernel.BetweenOperations (k : Kernel) : Prop :=
  k.scheduleTail = none ∧ ∀ t g, k.next t = some g → g.isReturn = true →
    (k.threads t).status = .blocked

/-- The four pieces of data agree. -/
structure Kernel.Consistent (k : Kernel) : Prop where
  holder : ∀ l, k.holder l = none ↔ k.lockValue l = 1
  held : ∀ t l, k.Live t →
    (k.threads t).heldLocks.count l = if k.holder l = some t then 1 else 0
  waiting : ∀ t l, k.Live t → (k.waitingLock t = some l ↔ t ∈ k.waiters l)
  recorded : ∀ l, if k.waiters l = [] then k.recorded l = -1
    else IsGreatest {p | ∃ w ∈ k.waiters l, k.prio w = p} (k.recorded l)

/-- Inside a wait for a lock, and blocked: in the queue of the lock. -/
theorem Tidy.waiting {t : ThreadRef} {l : LockRef} (h : Tidy k) (hk : Coherent k)
    (hrest : k.BetweenOperations) (ht : k.Live t) :
    k.waitingLock t = some l ↔ t ∈ k.waiters l := by
  constructor
  · intro hw
    have hw' := hw
    rw [h.books.stacked.waiting] at hw'
    obtain ⟨g, hg, hawaits⟩ := Option.bind_eq_some_iff.mp hw'
    obtain ⟨rest, hf⟩ := List.head?_eq_some_iff.mp hg
    cases g with
    | semaDownLoop s m =>
      cases hawaits
      have hs : Frame.Shaped (.semaDownLoop s (some l)) :=
        h.books.stacked.shaped (t := t) (hf ▸ List.mem_cons_self)
      have hs' : s = .lock l := hs
      subst hs'
      have hblocked := hrest.2 t _ hg rfl
      have hcpu : some k.current ≠ some t := by
        intro he
        rw [← Option.some.inj he, hk.running hrest.1] at hblocked
        cases hblocked
      have hidle : t ≠ k.idleThread := by
        intro he
        rcases hk.framed.idle with hi | hi
        · rw [← he, hf] at hi
          cases hi
        · rw [← he, hf] at hi
          cases hi
      have hnew : ¬ k.New t := by
        intro hnew
        rw [h.newborn t hnew] at hf
        cases hf
      obtain ⟨q, hq, hm⟩ := hk.placed.blocked ht hblocked hidle hcpu hnew
      cases q with
      | ready => exact absurd rfl hq
      | sleep =>
        have hplain := h.asleep t hm _ hg
        cases hplain
      | sema s =>
        obtain ⟨m, rest', hf'⟩ := h.parked s t hm
        rw [hf] at hf'
        cases hf'
        exact hm
    | _ => cases hawaits
  · intro hm
    rw [h.books.stacked.waiting, h.books.stacked.queued hm]
    rfl

/-- The books of every lock agree, between operations, along every run that avoids the listed
situations. -/
theorem lock_books_consistent (b : Boot) (k : Kernel)
    (h : ReachWhere (Steps step) Kernel.Booked (afterThreadStart b) k)
    (hrest : k.BetweenOperations) : k.Consistent := by
  have ht := reach_tidy h
  constructor
  case holder =>
    intro l
    constructor
    · exact ht.books.free
    · intro hv
      exact (ht.books.free_of_value (by omega)).1
  case held =>
    intro t l hl
    have hlisted := ht.books.listed (l := l) hl
    split
    next hh => exact List.count_eq_one_of_mem (ht.books.nodup hl) (hlisted.mpr hh)
    next hh => exact List.count_eq_zero_of_not_mem fun hm => hh (hlisted.mp hm)
  case waiting => exact fun t l hl => ht.waiting (reach_coherent h.reach) hrest hl
  case recorded =>
    intro l
    rw [ht.books.recorded]
    have hspec := @foldMax_spec _ k.prio (k.waiters l).reverse (-1)
    generalize foldMax k.prio (-1) (k.waiters l).reverse = m at hspec ⊢
    obtain ⟨hge, hall, hex⟩ := hspec
    have hle : ∀ w ∈ k.waiters l, k.prio w ≤ m := fun w hw => hall w (List.mem_reverse.mpr hw)
    split
    next hempty =>
      rcases hex with hex | ⟨w, hw, _⟩
      · exact hex
      · rw [hempty] at hw
        cases hw
    next hne =>
      constructor
      · rcases hex with hex | ⟨w, hw, hpw⟩
        · -- nobody is more important than `-1`, and nobody less
          obtain ⟨w, hw⟩ := List.exists_mem_of_ne_nil _ hne
          have hw' : -1 ≤ k.prio w := ht.books.waits (l := l) (by
            rw [ht.books.stacked.waiting, ht.books.stacked.queued hw]
            rfl)
          have := hle w hw
          exact ⟨w, hw, by omega⟩
        · exact ⟨w, List.mem_reverse.mp hw, hpw⟩
      · intro p hp
        obtain ⟨w, hw, hpw⟩ := hp
        rw [← hpw]
        exact hle w hw

/-! ## Two runs -/

/-- A test that implies `BetweenOperations`. -/
def Kernel.betweenTest (k : Kernel) : Bool :=
  k.scheduleTail.isNone && (k.initialThread :: k.allList).all fun t =>
    match k.next t with
    | some g => !g.isReturn || (k.threads t).status == .blocked
    | none => true

/-- The test decides that no lock is in the middle of an operation. -/
theorem betweenOperations_of_test {b : Boot} (hr : Reach (Steps step) (afterThreadStart b) k)
    (h : k.betweenTest = true) : k.BetweenOperations := by
  unfold Kernel.betweenTest at h
  rw [Bool.and_eq_true, Option.isNone_iff_eq_none, List.all_eq_true] at h
  obtain ⟨htail, hall⟩ := h
  refine ⟨htail, fun t g hg hret => ?_⟩
  have hk := reach_coherent hr
  have hframes : (k.threads t).frames ≠ [] := by
    intro hnil
    rw [Kernel.next, hnil] at hg
    cases hg
  have hlive : k.Live t := by
    cases hm : (k.threads t).magic with
    | true => exact hm
    | false => exact absurd (hk.framed.dead t hm) hframes
  have hmem : t ∈ k.initialThread :: k.allList := by
    rcases reach_listed hr t hlive with hm | hi | ⟨_, hd⟩
    · exact List.mem_cons_of_mem _ hm
    · rw [hi]
      exact List.mem_cons_self
    · exact absurd (hk.framed.dying t hd) hframes
  have htest := hall t hmem
  rw [hg] at htest
  simpa [hret] using htest

/-- A lock taken with `lock_try_acquire` is not on `held_locks`. -/
theorem tried_lock_not_listed : ¬ ∀ (b : Boot) (k : Kernel),
    Reach (Steps step) (afterThreadStart b) k → k.BetweenOperations → k.Consistent := by
  intro hall
  obtain ⟨k, hr, hp⟩ := exists_of_replay step (fun _ _ => true)
    [.call (.lockTryAcquire 0), .run none, .run none] (afterThreadStart smallBoot)
    (fun k => k.betweenTest && (k.threads 0).magic && k.holder (.user 0) == some 0 &&
      (k.threads 0).heldLocks == []) (by decide +kernel)
  simp only [Bool.and_eq_true, beq_iff_eq] at hp
  obtain ⟨⟨⟨hbetween, hlive⟩, hholder⟩, hheld⟩ := hp
  have hc := hall smallBoot k hr.reach (betweenOperations_of_test hr.reach hbetween)
  have hcount := hc.held 0 (.user 0) hlive
  rw [hheld, hholder, if_pos rfl] at hcount
  cases hcount

/-- A test that implies `Booked`. -/
def Donating.bookedTest (s : Donating) (e : Event) : Bool :=
  s.carefulTest e && match e.runs s.kernel with
  | some (.lockTryAcquire _) | some (.lockTryAcquired _) => false
  | _ => true

/-- The test decides that a step keeps the books. -/
theorem Donating.booked_of_test {b : Boot} {s : Donating} {e : Event}
    (hr : ReachWhere (Steps donatingStep) (fun s e => s.Proper e ∧ s.Careful e) (.start b) s)
    (h : s.bookedTest e = true) : s.kernel.Booked e := by
  have hd := (Donating.kept hr).donated
  have hk := reach_coherent (Donating.reach hr)
  unfold Donating.bookedTest Donating.carefulTest at h
  simp only [Bool.and_eq_true] at h
  obtain ⟨⟨_, hcareful⟩, htest⟩ := h
  intro f hf
  rw [hf] at hcareful htest
  cases f with
  | lockTryAcquire l => cases htest
  | lockTryAcquired l => cases htest
  | lockAcquire l =>
    intro _
    have hlive := (hk.placed.cpuLive rfl).1
    have hprio := le_trans (hd.baseNonneg hlive) (hd.exact.base_le _ hlive)
    refine ⟨by omega, fun u l' hc hwu => ?_⟩
    dsimp only at hcareful
    cases hc with
    | here ht =>
      rw [ht] at hcareful
      simp [hwu] at hcareful
    | there ht hc =>
      rw [ht] at hcareful
      rw [Option.isNone_iff_eq_none.mp hcareful] at hc
      cases hc
  | initThread t p =>
    intro l hl
    have hframes : ∃ rest, (s.kernel.threads s.kernel.current).frames = .initThread t p :: rest := by
      cases e with
      | run page => exact List.head?_eq_some_iff.mp hf
      | _ => cases hf
    obtain ⟨rest, hframes⟩ := hframes
    have hdead := hk.framed.unmade (hframes ▸ List.mem_cons_self)
    have hlive := (hd.holderLive hl).1
    rw [Kernel.Live, hdead] at hlive
    cases hlive
  | _ => trivial

/-- A run that passes the test keeps the books. -/
theorem Donating.booked_of_tests {b : Boot} {s : Donating}
    (hr : ReachWhere (Steps donatingStep) (fun s e => s.bookedTest e = true) (.start b) s) :
    ReachWhere (Steps step) Kernel.Booked (afterThreadStart b) s.kernel := by
  have hboth : ∀ s e, ReachWhere (Steps donatingStep) (fun s e => s.Proper e ∧ s.Careful e)
      (.start b) s → s.bookedTest e = true → s.Proper e ∧ s.Careful e := by
    intro s e hs he
    apply Donating.careful_of_test hs
    exact (Bool.and_eq_true _ _ ▸ he).1
  exact hr.map Donating.kernel (fun _ _ _ hx => (donatingStep_eq_ok hx).1)
    fun _ _ hs he => Donating.booked_of_test (hs.follow hboth) he

/-- `main` holds a lock that a thread of priority 33 waits for, and the books say so. -/
theorem waited_lock_consistent : ∃ k,
    ReachWhere (Steps step) Kernel.Booked (afterThreadStart smallBoot) k ∧ k.BetweenOperations ∧
      k.holder (.user 0) = some 0 ∧ k.waiters (.user 0) = [2] ∧ k.recorded (.user 0) = 33 ∧
      k.Consistent := by
  obtain ⟨s, hr, hp⟩ := exists_of_replay donatingStep Donating.bookedTest donorWaits
    (.start smallBoot)
    (fun s => s.kernel.betweenTest && s.kernel.holder (.user 0) == some 0 &&
      s.kernel.waiters (.user 0) == [2] && s.kernel.recorded (.user 0) == 33)
    (by decide +kernel)
  simp only [Bool.and_eq_true, beq_iff_eq] at hp
  obtain ⟨⟨⟨hbetween, hholder⟩, hwaiters⟩, hrecorded⟩ := hp
  have hr' := Donating.booked_of_tests hr
  have hrest := betweenOperations_of_test hr'.reach hbetween
  exact ⟨s.kernel, hr', hrest, hholder, hwaiters, hrecorded,
    lock_books_consistent smallBoot s.kernel hr' hrest⟩

end Pintos.Threads
