import Pintos.Threads.PriorityDonation

/-!
# What the maximum searches compare

`next_thread_to_run` and `sema_up_internal` look for the largest priority of a thread,
`cond_signal` for the largest priority recorded when a thread joined the condition. Six pieces of
code change a priority, a recorded priority or the waiters of a condition; `KeyMoves` says what
each of them does, and that all other code leaves the three alone.
-/

namespace Pintos.Threads

open Pintos.Lib

variable {page : Option ThreadRef} {k k' : Kernel} {f : Frame}

/-- The waiters of every condition, with the priorities recorded of them, are as they were. -/
structure SameElems (k k' : Kernel) : Prop where
  elemPriority : k'.elemPriority = k.elemPriority
  conds : k'.conds = k.conds

/-- And so are the priorities of all threads. -/
structure SameKeys (k k' : Kernel) : Prop extends SameElems k k' where
  prio : k'.prio = k.prio

/-- Waiters that two steps leave alone they leave alone together. -/
theorem SameElems.trans {k₁ k₂ k₃ : Kernel} (h : SameElems k₁ k₂) (h' : SameElems k₂ k₃) :
    SameElems k₁ k₃ :=
  ⟨h'.elemPriority.trans h.elemPriority, h'.conds.trans h.conds⟩

/-- Keys that two steps leave alone they leave alone together. -/
theorem SameKeys.trans {k₁ k₂ k₃ : Kernel} (h : SameKeys k₁ k₂) (h' : SameKeys k₂ k₃) :
    SameKeys k₁ k₃ :=
  ⟨h.toSameElems.trans h'.toSameElems, h'.prio.trans h.prio⟩

/-- A change outside the threads and the conditions. -/
theorem SameKeys.congr {k₁ : Kernel} (h : SameKeys k k₁) (ht : k'.threads = k₁.threads)
    (he : k'.elemPriority = k₁.elemPriority) (hc : k'.conds = k₁.conds) : SameKeys k k' := by
  refine ⟨⟨he.trans h.elemPriority, hc.trans h.conds⟩, Eq.trans ?_ h.prio⟩
  unfold Kernel.prio
  rw [ht]

/-- Threads and conditions are all there is to the keys. -/
theorem SameKeys.of_eq (ht : k'.threads = k.threads) (he : k'.elemPriority = k.elemPriority)
    (hc : k'.conds = k.conds) : SameKeys k k' :=
  SameKeys.congr ⟨⟨rfl, rfl⟩, rfl⟩ ht he hc

/-- What moves threads between queues keeps the keys. -/
theorem Same.keys (h : Same k k') : SameKeys k k' := ⟨⟨h.elemPriority, h.conds⟩, h.prio⟩

/-- A donation is about threads, and not about the waiters of a condition. -/
theorem Raised.elems (h : Raised k k') : SameElems k k' := by
  constructor
  · rw [h.rest]
  · rw [h.rest]

/-- Another field is no key. -/
theorem sameKeys_modThread (k : Kernel) (t : ThreadRef) (g : Thread → Thread)
    (hg : ∀ th, (g th).priority = th.priority) : SameKeys k (k.modThread t g) :=
  ⟨⟨rfl, rfl⟩, funext (prio_modThread k t g hg)⟩

theorem sameKeys_pushFrames (k : Kernel) (t : ThreadRef) (fs : List Frame) :
    SameKeys k (k.pushFrames t fs) :=
  sameKeys_modThread k t _ fun _ => rfl

/-- The priorities after an update of one thread. -/
theorem prio_of_modThread (k : Kernel) (t : ThreadRef) (g : Thread → Thread) :
    (k.modThread t g).prio = Function.update k.prio t (g (k.threads t)).priority := by
  ext u
  unfold Kernel.prio
  rw [Kernel.modThread_threads, Function.update_apply]
  split <;> rfl

/-! ## Semaphores -/

/-- Waiting at a semaphore keeps the keys. -/
theorem sameKeys_semaEnqueue (s : SemaRef) (m : Option LockRef) (k : Kernel) :
    SameKeys k (semaEnqueue s m k) := by
  have hqueued : SameKeys k (k.setSema s
      { k.semas s with waiters := (k.semas s).waiters ++ [k.current] }) := .of_eq rfl rfl rfl
  cases m with
  | none => exact hqueued.trans (sameKeys_pushFrames _ _ _)
  | some l =>
    have hwaits := hqueued.trans (sameKeys_modThread _ k.current
      (fun th => { th with waitingLock := some l }) fun _ => rfl)
    refine SameKeys.trans ?_ (sameKeys_pushFrames (updateLockMaxPriority l _) _ _)
    exact hwaits.congr rfl rfl rfl

theorem sameKeys_semaTake (s : SemaRef) (m : Option LockRef) (k : Kernel) :
    SameKeys k (semaTake s m k) := by
  cases m with
  | none => exact .of_eq rfl rfl rfl
  | some l =>
    have hset := sameKeys_modThread k k.current
      (fun th => { th with heldLocks := th.heldLocks ++ [l] }) fun _ => rfl
    exact hset.congr rfl rfl rfl

/-- `sema_down` keeps the keys. -/
theorem sameKeys_semaDownLoop {s : SemaRef} {m : Option LockRef}
    (h : semaDownLoop s m k = .ok k') : SameKeys k k' := by
  obtain ⟨_, hb⟩ | ⟨_, rfl⟩ := semaDownLoop_eq_ok h
  · exact (sameKeys_semaEnqueue s m k).trans (threadBlock_same hb).keys
  · exact sameKeys_semaTake s m k

theorem sameKeys_semaWake {s : SemaRef} {m : Option LockRef} (h : semaWake s m k = .ok k') :
    SameKeys k k' := by
  obtain ⟨_, rfl⟩ | ⟨top, k₁, _, hu, rfl⟩ := semaWake_eq_ok h
  · exact .of_eq rfl rfl rfl
  · have hoff : SameKeys k (k.setSema s
        { k.semas s with waiters := (k.semas s).waiters.erase top }) := .of_eq rfl rfl rfl
    have hwoken := hoff.trans (threadUnblock_same hu).keys
    cases m <;> exact hwoken.congr rfl rfl rfl

/-- `sema_up` keeps the keys. -/
theorem sameKeys_semaUpInternal {s : SemaRef} {m : Option LockRef}
    (h : semaUpInternal s m k = .ok k') : SameKeys k k' := by
  obtain ⟨k₁, hw, hy⟩ := semaUpInternal_eq_ok h
  have hwoken := sameKeys_semaWake hw
  have hup : SameKeys k (semaIncrement s k₁) := hwoken.congr rfl rfl rfl
  exact hup.trans (threadYield_same hy).keys

/-! ## The frames -/

/-- The code that changes a priority or the waiters of a condition. -/
def Frame.isKeyOp : Frame → Bool
  | .threadSetPriority _ | .initThread _ _ | .lockAcquire _ | .lockRelease _
  | .condWait _ _ | .condPushBack _ | .condSignal _ _ => true
  | _ => false

/-- What a frame does to priorities and to the waiters of conditions. -/
inductive KeyMoves (k k' : Kernel) : Frame → Prop
  | same {f : Frame} : f.isKeyOp = false → SameKeys k k' → KeyMoves k k' f
  | set {p : Int} : SameElems k k' →
      k'.prio = Function.update k.prio k.current (newPriority (k.threads k.current) p) →
      KeyMoves k k' (.threadSetPriority p)
  | init {t : ThreadRef} {p : Int} : SameElems k k' → priMin ≤ p →
      k'.prio = Function.update k.prio t p → KeyMoves k k' (.initThread t p)
  | acquire {l : LockRef} : SameElems k k' →
      (∀ t, k'.prio t = k.prio t ∨
        (OnChain k.holder k.waitingLock (some l) t ∧ k'.prio t = k.prio k.current)) →
      KeyMoves k k' (.lockAcquire l)
  | release {l : LockRef} : SameElems k k' →
      k'.prio = Function.update k.prio k.current
        (releasePriority l (k.threads k.current) k) → KeyMoves k k' (.lockRelease l)
  | record {c : CondRef} {l : Nat} : k'.prio = k.prio →
      k'.elemPriority = Function.update k.elemPriority k.current (k.prio k.current) →
      k'.conds = k.conds → KeyMoves k k' (.condWait c l)
  | join {c : CondRef} : k'.prio = k.prio → k'.elemPriority = k.elemPriority →
      k'.conds = Function.update k.conds c (k.conds c ++ [k.current]) →
      KeyMoves k k' (.condPushBack c)
  | signal {c : CondRef} {l : Nat} : k'.prio = k.prio → k'.elemPriority = k.elemPriority →
      (∀ c, (k'.conds c).Sublist (k.conds c)) → KeyMoves k k' (.condSignal c l)

/-- `lock_acquire` raises the keys of holders. -/
theorem keyMoves_lockAcquire {l : LockRef} (h : lockAcquire l k = .ok k') :
    KeyMoves k k' (.lockAcquire l) := by
  obtain ⟨_, k₁, hd, hs⟩ := lockAcquire_eq_ok h
  have hdown := sameKeys_semaDownLoop hs
  obtain ⟨hup, hrest, _, _⟩ := donate_spec _ hd
  refine .acquire ((donate_raised _ hd).elems.trans hdown.toSameElems) fun t => ?_
  rw [hdown.prio]
  by_cases hc : OnChain k.holder k.waitingLock (some l) t
  · exact .inr ⟨hc, (hup t hc).2⟩
  · exact .inl (hrest t hc)

/-- `lock_release` recomputes the caller's key, and changes no other. -/
theorem keyMoves_lockRelease {l : LockRef} (h : lockRelease l k = .ok k') :
    KeyMoves k k' (.lockRelease l) := by
  have hup := sameKeys_semaUpInternal (lockRelease_eq_ok h).2
  refine .release ⟨hup.elemPriority, hup.conds⟩ (hup.prio.trans ?_)
  exact prio_of_modThread k k.current fun th =>
    { th with
      priority := releasePriority l (k.threads k.current) k
      heldLocks := th.heldLocks.filter (· ≠ l) }

/-- `cond_signal` takes one waiter, and changes no key. -/
theorem keyMoves_condSignal {c : CondRef} {l : Nat} (h : condSignal c (.user l) k = .ok k') :
    KeyMoves k k' (.condSignal c l) := by
  obtain ⟨_, rfl⟩ | ⟨top, _, rfl⟩ := condSignal_eq_ok h
  · exact .signal rfl rfl fun _ => .refl _
  · refine .signal (sameKeys_pushFrames k k.current _).prio rfl fun c' => ?_
    show (Function.update k.conds c _ c').Sublist _
    by_cases hc : c' = c
    · rw [hc, Function.update_self]
      exact List.erase_sublist
    · rw [Function.update_of_ne hc]

/-- What running a frame does to the keys of the searches. -/
theorem exec_keys (hx : exec page k f = .ok k') : KeyMoves k k' f := by
  cases f with
  | threadSetPriority p =>
    have hset := threadYield_same (threadSetPriority_eq_ok hx)
    exact .set ⟨hset.elemPriority, hset.conds⟩ (hset.prio.trans (prio_of_modThread k k.current _))
  | initThread t p =>
    obtain ⟨k₁, h₁, hx⟩ := bind_eq_ok.mp hx
    obtain ⟨hrange, rfl⟩ := initThread_eq_ok h₁
    cases hx
    refine .init ⟨rfl, rfl⟩ hrange.1 ((sameKeys_pushFrames _ _ _).prio.trans ?_)
    exact prio_of_modThread k t fun _ => bootThread 0 p 0 .blocked []
  | lockAcquire l => exact keyMoves_lockAcquire hx
  | lockRelease l => exact keyMoves_lockRelease hx
  | condWait c l =>
    obtain ⟨_, rfl⟩ := condWait_eq_ok hx
    exact .record (sameKeys_pushFrames k k.current _).prio rfl rfl
  | condPushBack c =>
    cases hx
    exact .join rfl rfl rfl
  | condSignal c l => exact keyMoves_condSignal hx
  | threadYield => exact .same rfl (threadYield_same hx).keys
  | threadYieldForSeconds e =>
    have hset := sameKeys_modThread k k.current (fun th => { th with endTick := e }) fun _ => rfl
    refine .same rfl (SameKeys.trans ?_ (threadBlock_same (threadYieldForSeconds_eq_ok hx).2).keys)
    exact hset.congr rfl rfl rfl
  | timerSleep n =>
    cases hx
    exact .same rfl (sameKeys_pushFrames k _ _)
  | threadExit =>
    have hset := sameKeys_modThread k k.current (fun th => { th with status := .dying }) fun _ => rfl
    refine .same rfl (SameKeys.trans ?_ (schedule_same (threadExit_eq_ok hx)).keys)
    exact hset.congr rfl rfl rfl
  | threadCreate p =>
    cases hx
    exact .same rfl (sameKeys_pushFrames k _ _)
  | bitmapScanAndFlip p =>
    obtain ⟨t, _, rfl⟩ | rfl := bitmapScanAndFlip_eq_ok hx
    · exact .same rfl ((sameKeys_pushFrames k k.current
        [.lockRelease .poolLock, .initThread t p]).congr rfl rfl rfl)
    · exact .same rfl (sameKeys_pushFrames k _ _)
  | allocateTid t =>
    cases hx
    exact .same rfl ((sameKeys_pushFrames k k.current
      [.lockRelease .tidLock, .threadUnblock t k.nextTid, .threadYield]).congr rfl rfl rfl)
  | threadUnblock t tid =>
    have hset := sameKeys_modThread k t (fun th => { th with tid := tid, endTick := -1 })
      fun _ => rfl
    exact .same rfl (hset.trans (threadUnblock_same hx).keys)
  | semaInit s v =>
    obtain ⟨_, rfl⟩ := execSemaInit_eq_ok hx
    exact .same rfl (.of_eq rfl rfl rfl)
  | semaDown s => exact .same rfl (sameKeys_semaDownLoop (semaDownInternal_eq_ok hx))
  | semaDownLoop s m =>
    refine .same rfl ?_
    cases m with
    | none => exact sameKeys_semaDownLoop hx
    | some l =>
      exact (sameKeys_modThread k k.current (fun th => { th with waitingLock := none })
        fun _ => rfl).trans (sameKeys_semaDownLoop hx)
  | semaTryDown s =>
    cases hx
    unfold semaTryDown
    split <;> exact .same rfl (.of_eq rfl rfl rfl)
  | semaUp s => exact .same rfl (sameKeys_semaUpInternal hx)
  | lockInit l =>
    obtain ⟨_, rfl⟩ := execLockInit_eq_ok hx
    exact .same rfl (.of_eq rfl rfl rfl)
  | lockTryAcquire l =>
    obtain ⟨_, ⟨_, rfl⟩ | ⟨_, rfl⟩⟩ := lockTryAcquire_eq_ok hx
    · exact .same rfl (.of_eq rfl rfl rfl)
    · exact .same rfl ((sameKeys_pushFrames k k.current
        [.lockTryAcquired (.user l)]).congr rfl rfl rfl)
  | lockTryAcquired l =>
    cases lockTryAcquired_eq_ok hx
    exact .same rfl (.of_eq rfl rfl rfl)
  | condInit c =>
    cases execCondInit_eq_ok hx
    exact .same rfl (.of_eq rfl rfl rfl)
  | condBroadcast c l =>
    cases hx
    unfold condBroadcast
    split
    · exact .same rfl (.of_eq rfl rfl rfl)
    · exact .same rfl (sameKeys_pushFrames k _ _)
  | idleBlock =>
    exact .same rfl ((sameKeys_pushFrames k k.current _).trans (threadBlock_same hx).keys)
  | idleHalt =>
    cases hx
    exact .same rfl (sameKeys_pushFrames k _ _)

/-! ## The events -/

/-- The frame that is run is off the stack already; nothing `KeyMoves` reads is on the stack. -/
theorem KeyMoves.of_setFrames {rest : List Frame}
    (h : KeyMoves (k.setFrames k.current rest) k' f) : KeyMoves k k' f := by
  have hprio : (k.setFrames k.current rest).prio = k.prio := funext (setFrames_prio k rest)
  have hself : (k.setFrames k.current rest).threads k.current =
      { k.threads k.current with frames := rest } := Kernel.modThread_self _ _ _
  have hnew : ∀ p, newPriority ((k.setFrames k.current rest).threads k.current) p =
      newPriority (k.threads k.current) p := fun p => by rw [hself]; rfl
  have hrel : ∀ l, releasePriority l ((k.setFrames k.current rest).threads k.current)
      (k.setFrames k.current rest) = releasePriority l (k.threads k.current) k :=
    fun l => by rw [hself]; rfl
  cases h with
  | same hf hs =>
    have hset := sameKeys_modThread k k.current (fun th => { th with frames := rest }) fun _ => rfl
    exact .same hf (hset.trans hs)
  | set he hp =>
    refine .set ⟨he.elemPriority, he.conds⟩ (hp.trans ?_)
    rw [hprio, ← hnew]
    rfl
  | init he hr hp => exact .init ⟨he.elemPriority, he.conds⟩ hr (hprio ▸ hp)
  | acquire he hp =>
    rw [hprio, setFrames_waitingLock] at hp
    exact .acquire ⟨he.elemPriority, he.conds⟩ hp
  | release he hp =>
    refine .release ⟨he.elemPriority, he.conds⟩ (hp.trans ?_)
    rw [hprio, ← hrel]
    rfl
  | record hp he hc =>
    rw [hprio] at hp he
    exact .record hp he hc
  | join hp he hc =>
    rw [hprio] at hp
    exact .join hp he hc
  | signal hp he hc =>
    rw [hprio] at hp
    exact .signal hp he hc

/-- What an event does to the keys of the searches. -/
theorem step_keys {e : Event} (hx : step e k = .ok k') :
    (e.runs k = none ∧ SameKeys k k') ∨ ∃ f, e.runs k = some f ∧ KeyMoves k k' f := by
  obtain ⟨prev, rfl, ht, hx⟩ | ⟨c, rfl, hn, _, rfl⟩ | ⟨page, f, rest, rfl, hn, hfr, hx⟩ |
    ⟨rfl, hn, hx, _⟩ := step_eq_ok hx
  · refine .inl ⟨rfl, ?_⟩
    have hset := sameKeys_modThread k k.current (fun th => { th with status := .running })
      fun _ => rfl
    obtain ⟨rfl, _⟩ | ⟨p, rfl, _, _, _, _, rfl⟩ := threadScheduleTail_eq_ok hx
    · exact hset.congr rfl rfl rfl
    · have hfree := sameKeys_modThread (k.setStatus k.current .running) p
        (fun th => { th with magic := false }) fun _ => rfl
      exact (hset.trans hfree).congr rfl rfl rfl
  · exact .inl ⟨rfl, sameKeys_modThread k k.current (fun th => { th with frames := [c.frame] })
      fun _ => rfl⟩
  · refine .inr ⟨f, ?_, (exec_keys hx).of_setFrames⟩
    simp [Event.runs, Kernel.next, hfr]
  · refine .inl ⟨rfl, ?_⟩
    rcases timerInterrupt_eq_ok hx with rfl | hy
    · exact .of_eq rfl rfl rfl
    · have htick : SameKeys k (threadTick k) := .of_eq rfl rfl rfl
      exact htick.trans (threadYield_same hy).keys

end Pintos.Threads
