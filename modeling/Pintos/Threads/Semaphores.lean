import Pintos.Lib.Semaphore
import Pintos.Threads.StrictPriority

/-!
# The semaphores of the threads project

Every frame does at most one operation on one semaphore, which `Frame.semaOp` names: a lock is
taken and released through its semaphore, and `cond_wait` starts a semaphore of its own. What the
code does is what the operation does in `Pintos.Lib.Semaphore` (`exec_operates`), with
`IsFirstMax` for the waiter an up picks. So the books balance and the units are covered, whatever
the order in which any number of threads use the semaphores.

`Counted` is the kernel with a ghost beside it, the operations completed on each semaphore.
-/

namespace Pintos.Threads

open Pintos.Lib

variable {page : Option ThreadRef} {k k' : Kernel} {f : Frame} {new : ThreadRef → Prop}

/-! ## One frame, one operation -/

/-- The range of `unsigned`. -/
def semaSize : Nat := 2 ^ 32

def Semaphore.sem (v : Semaphore) : Sem ThreadRef := ⟨v.value, v.waiters⟩

/-- The operation a frame of the thread `cur` does. -/
def Frame.semaOp (cur : ThreadRef) : Frame → Option (SemaRef × SemOp)
  | .semaInit s v => some (.plain s, .init (v % semaSize))
  | .semaDown s | .semaDownLoop s _ => some (s, .down)
  | .semaTryDown s => some (.plain s, .tryDown)
  | .semaUp s => some (s, .up)
  | .lockInit l => some (.lock (.user l), .init 1)
  | .lockAcquire l => some (.lock l, .down)
  | .lockTryAcquire l => some (.lock (.user l), .tryDown)
  | .lockRelease l => some (.lock l, .up)
  | .condWait _ _ => some (.waiter cur, .init 0)
  | _ => none

/-- The semaphores change by the operation given; a caller that joins the waiters will go on with
the test of the value. -/
def Operates (k k' : Kernel) : Option (SemaRef × SemOp) → Prop
  | none => k'.semas = k.semas
  | some (s, op) =>
    op.Does semaSize (IsFirstMax k.prio) k.current (k.semas s).sem (k'.semas s).sem ∧
    (∀ s', s' ≠ s → k'.semas s' = k.semas s') ∧
    (op = .down → (k.semas s).value = 0 →
      ∃ m rest, (k'.threads k.current).frames = .semaDownLoop s m :: rest)

/-- A change of one semaphore that is not a down. -/
theorem operates_of_update {s : SemaRef} {v : Semaphore} {op : SemOp}
    (hs : k'.semas = Function.update k.semas s v) (hne : op ≠ .down)
    (hd : op.Does semaSize (IsFirstMax k.prio) k.current (k.semas s).sem v.sem) :
    Operates k k' (some (s, op)) := by
  refine ⟨?_, fun s' hs' => ?_, fun hop => absurd hop hne⟩
  · rw [hs, Function.update_self]
    exact hd
  · rw [hs, Function.update_of_ne hs']

/-- What came before left the semaphores alone, and the priorities an up goes by. -/
theorem Operates.after {k₁ : Kernel} {op : Option (SemaRef × SemOp)} (h : Operates k₁ k' op)
    (hs : k₁.semas = k.semas) (hc : k₁.current = k.current)
    (hp : ∀ s, op = some (s, .up) → ∀ t ∈ (k.semas s).waiters, k.prio t = k₁.prio t) :
    Operates k k' op := by
  match op with
  | none => exact Eq.trans h hs
  | some (s, op) =>
    obtain ⟨hd, hother, hjoin⟩ := h
    rw [hs, hc] at hd
    refine ⟨?_, fun s' hne => by rw [hother s' hne, hs], fun hop hv => ?_⟩
    · exact hd.mono fun hop t hpick => hpick.congr (hp s (by rw [hop]))
    · rw [hs, hc] at hjoin
      exact hjoin hop hv

theorem operates_semaDownLoop {s : SemaRef} {m : Option LockRef}
    (hd : semaDownLoop s m k = .ok k') : Operates k k' (some (s, .down)) := by
  obtain ⟨hv, hb⟩ | ⟨hv, rfl⟩ := semaDownLoop_eq_ok hd
  · have hsame := threadBlock_same hb
    have hsemas : k'.semas = Function.update k.semas s
        { k.semas s with waiters := (k.semas s).waiters ++ [k.current] } :=
      hsame.semas.trans (semaEnqueue_semas s m k)
    refine ⟨?_, fun s' hne => by rw [hsemas, Function.update_of_ne hne], 
      fun _ _ => ⟨m, (k.threads k.current).frames, ?_⟩⟩
    · rw [hsemas, Function.update_self]
      exact .waits hv
    · have hpush := (pushes_semaEnqueue s m k).same hsame.frames
      have hcur := hpush k.current
      rw [if_pos rfl] at hcur
      exact hcur
  · have hsemas : (semaTake s m k).semas = Function.update k.semas s
        { k.semas s with value := (k.semas s).value - 1 } := by
      cases m <;> rfl
    refine ⟨?_, fun s' hne => by rw [hsemas, Function.update_of_ne hne],
      fun _ h0 => absurd h0 hv⟩
    rw [hsemas, Function.update_self]
    exact .takes hv

theorem operates_semaUpInternal {s : SemaRef} {m : Option LockRef}
    (hu : semaUpInternal s m k = .ok k') : Operates k k' (some (s, .up)) := by
  obtain ⟨k₁, hw, hy⟩ := semaUpInternal_eq_ok hu
  have hsame := (threadYield_same hy).semas
  obtain ⟨hempty, rfl⟩ | ⟨top, k₂, htop, hun, rfl⟩ := semaWake_eq_ok hw
  · refine operates_of_update hsame (by simp) ?_
    show SemOp.up.Does _ _ _ _ ⟨_, (k₁.semas s).waiters⟩
    rw [hempty]
    exact .ups (v := (k₁.semas s).sem) hempty
  · have hsemas : (updateIfLock m k₂).semas = Function.update k.semas s
        { k.semas s with waiters := (k.semas s).waiters.erase top } := by
      obtain ⟨_, _, rfl⟩ := threadUnblock_eq_ok hun
      cases m <;> rfl
    have hfinal : k'.semas = Function.update k.semas s
        { value := ((k.semas s).value + 1) % semaSize
          waiters := (k.semas s).waiters.erase top } := by
      rw [hsame, semaIncrement, Kernel.setSema]
      simp only [hsemas, Function.update_self, Function.update_idem]
      rfl
    exact operates_of_update hfinal (by simp) (.wakes htop.mem htop)

/-- Every frame does to the semaphores what its operation does. -/
theorem exec_operates (h : Placed k (some k.current) new) (hx : exec page k f = .ok k') :
    Operates k k' (f.semaOp k.current) := by
  cases f with
  | threadYield => exact (threadYield_same hx).semas
  | threadYieldForSeconds e => exact (threadBlock_same (threadYieldForSeconds_eq_ok hx).2).semas
  | timerSleep n =>
    cases hx
    rfl
  | threadSetPriority p => exact (threadYield_same (threadSetPriority_eq_ok hx)).semas
  | threadExit => exact (schedule_same (threadExit_eq_ok hx)).semas
  | threadCreate p =>
    cases hx
    rfl
  | bitmapScanAndFlip p =>
    obtain ⟨t, _, rfl⟩ | rfl := bitmapScanAndFlip_eq_ok hx
    · rfl
    · rfl
  | initThread t p =>
    obtain ⟨k₁, h₁, hx⟩ := bind_eq_ok.mp hx
    obtain ⟨_, rfl⟩ := initThread_eq_ok h₁
    cases hx
    rfl
  | allocateTid t =>
    cases hx
    rfl
  | threadUnblock t tid => exact (threadUnblock_same hx).semas
  | semaInit s v =>
    obtain ⟨_, rfl⟩ := execSemaInit_eq_ok hx
    exact operates_of_update rfl (by simp) (.init (Nat.mod_lt _ (by decide)))
  | semaDown s => exact operates_semaDownLoop (semaDownInternal_eq_ok hx)
  | semaDownLoop s m =>
    cases m with
    | none => exact operates_semaDownLoop hx
    | some l =>
      refine (operates_semaDownLoop hx).after rfl rfl fun _ hop => ?_
      cases hop
  | semaTryDown s =>
    cases hx
    unfold semaTryDown
    split
    next hv => exact operates_of_update rfl (by simp) (.tries (Nat.pos_iff_ne_zero.mp hv))
    next hv =>
      refine ⟨.fails (Nat.eq_zero_of_not_pos hv), fun _ _ => rfl, fun hop => ?_⟩
      cases hop
  | semaUp s => exact operates_semaUpInternal hx
  | lockInit l =>
    obtain ⟨_, rfl⟩ := execLockInit_eq_ok hx
    exact operates_of_update rfl (by simp) (.init (by decide))
  | lockAcquire l =>
    obtain ⟨_, k₁, h₁, h₂⟩ := lockAcquire_eq_ok hx
    have hr := donate_raised _ h₁
    refine (operates_semaDownLoop h₂).after hr.semas hr.current fun _ hop => ?_
    cases hop
  | lockTryAcquire l =>
    obtain ⟨_, ⟨hv, rfl⟩ | ⟨hv, rfl⟩⟩ := lockTryAcquire_eq_ok hx
    · refine ⟨.fails hv, fun _ _ => rfl, fun hop => ?_⟩
      cases hop
    · exact operates_of_update rfl (by simp) (.tries (Nat.pos_iff_ne_zero.mp hv))
  | lockTryAcquired l =>
    cases lockTryAcquired_eq_ok hx
    rfl
  | lockRelease l =>
    have hup := operates_semaUpInternal (lockRelease_eq_ok hx).2
    refine hup.after rfl rfl fun s _ t ht => ?_
    -- the releaser's priority changes, but it does not wait
    have hm : t ∈ k.queue (.sema s) := ht
    have hne : t ≠ k.current := fun he => h.notCpu hm (he ▸ rfl)
    simp [Kernel.prio, lockReleased, Kernel.setLock, Kernel.modThread, hne]
  | condInit c =>
    cases execCondInit_eq_ok hx
    rfl
  | condWait c l =>
    obtain ⟨_, rfl⟩ := condWait_eq_ok hx
    exact operates_of_update rfl (by simp) (.init (by decide))
  | condPushBack c =>
    cases hx
    rfl
  | condSignal c l =>
    obtain ⟨_, rfl⟩ | ⟨top, _, rfl⟩ := condSignal_eq_ok hx
    · rfl
    · rfl
  | condBroadcast c l =>
    cases hx
    show (condBroadcast c l k).semas = k.semas
    unfold condBroadcast
    split <;> rfl
  | idleBlock => exact (threadBlock_same hx).semas
  | idleHalt =>
    cases hx
    rfl

/-! ## One event -/

/-- The operation of an event. -/
def Event.semaOp (k : Kernel) : Event → Option (SemaRef × SemOp)
  | .run _ => (k.threads k.current).frames.head?.bind (Frame.semaOp k.current)
  | _ => none

/-- Every event does to the semaphores what its operation does. -/
theorem Coherent.operates {e : Event} (h : Coherent k) (hx : step e k = .ok k') :
    Operates k k' (e.semaOp k) := by
  obtain ⟨prev, rfl, _, hx⟩ | ⟨c, rfl, _, _, rfl⟩ | ⟨page, f, rest, rfl, _, hf, hx⟩ |
    ⟨rfl, _, hx, _⟩ := step_eq_ok hx
  · obtain ⟨rfl, _⟩ | ⟨p, _, _, _, _, _, rfl⟩ := threadScheduleTail_eq_ok hx
    · rfl
    · rfl
  · rfl
  · have hop : Event.semaOp k (.run page) = f.semaOp k.current := by
      simp [Event.semaOp, hf]
    rw [hop]
    refine (exec_operates (h.placed.setFrames k.current rest) hx).after rfl rfl fun _ _ t _ => ?_
    exact (prio_modThread k k.current (fun th => { th with frames := rest }) (fun _ => rfl) t).symm
  · obtain rfl | hy := timerInterrupt_eq_ok hx
    · rfl
    · exact (threadYield_same hy).semas

/-- The threads that wait for a semaphore will go on with the test of its value. -/
def Kernel.Parked (k : Kernel) : Prop :=
  ∀ s, ∀ t ∈ (k.semas s).waiters, ∃ m rest, (k.threads t).frames = .semaDownLoop s m :: rest

/-- An up has unblocked the thread, and it has not yet tested the value again. -/
def Kernel.Woken (k : Kernel) (s : SemaRef) (t : ThreadRef) : Prop :=
  (∃ m rest, (k.threads t).frames = .semaDownLoop s m :: rest) ∧ t ∉ (k.semas s).waiters

/-- The frames of a thread that is about to test the value are its own business. -/
theorem Coherent.testing_of_step {e : Event} {s : SemaRef} {m : Option LockRef} {t : ThreadRef}
    {rest : List Frame} (h : Coherent k) (hx : step e k = .ok k')
    (hf : (k.threads t).frames = .semaDownLoop s m :: rest) :
    (k'.threads t).frames = (k.threads t).frames ∨
      t = k.current ∧ e.semaOp k = some (s, .down) := by
  rcases h.step_frames hx t with hsame | ⟨rfl, hnil, _⟩ |
    ⟨rfl, page, f, rest', fs, rfl, hf', _, _, _⟩
  · exact .inl hsame
  · rw [hf] at hnil
    cases hnil
  · exact .inr ⟨rfl, by simp [Event.semaOp, hf, Frame.semaOp]⟩

theorem Coherent.waiter_ne (h : Coherent k) {s : SemaRef} {t : ThreadRef}
    (ht : t ∈ (k.semas s).waiters) : t ≠ k.current := by
  have hm : t ∈ k.queue (.sema s) := ht
  exact fun he => h.placed.notCpu hm (he ▸ rfl)

/-- Who waits after an event waited before it, or is the running thread and has just joined. -/
theorem Operates.joined {op : Option (SemaRef × SemOp)} {s : SemaRef} {t : ThreadRef}
    (h : Operates k k' op) (ht : t ∈ (k'.semas s).waiters) :
    t ∈ (k.semas s).waiters ∨ (t = k.current ∧ op = some (s, .down) ∧
      ∃ m rest, (k'.threads t).frames = .semaDownLoop s m :: rest) := by
  match op with
  | none =>
    have hs : k'.semas = k.semas := h
    exact .inl (hs ▸ ht)
  | some (s', op) =>
    obtain ⟨hd, hother, hjoin⟩ := h
    by_cases hs : s = s'
    · subst hs
      rcases hd.mem_waiters ht with hold | ⟨rfl, hdown, hv⟩
      · exact .inl hold
      · exact .inr ⟨rfl, by rw [hdown], hjoin hdown hv⟩
    · rw [hother s hs] at ht
      exact .inl ht

theorem Kernel.Parked.of_step {e : Event} (h : k.Parked) (hk : Coherent k)
    (hx : step e k = .ok k') : k'.Parked := by
  intro s t ht
  rcases (hk.operates hx).joined ht with hold | ⟨_, _, hjoined⟩
  · obtain ⟨m, rest, hf⟩ := h s t hold
    rcases hk.testing_of_step hx hf with hsame | ⟨hcur, _⟩
    · exact ⟨m, rest, hsame.trans hf⟩
    · exact absurd hcur (hk.waiter_ne hold)
  · exact hjoined

/-- A woken thread stays woken until it runs and tests the value. -/
theorem Coherent.woken_of_step {e : Event} {s : SemaRef} {t : ThreadRef} (h : Coherent k)
    (hx : step e k = .ok k') (hw : k.Woken s t)
    (hrun : t = k.current → e.semaOp k ≠ some (s, .down)) : k'.Woken s t := by
  obtain ⟨⟨m, rest, hf⟩, hout⟩ := hw
  rcases h.testing_of_step hx hf with hsame | ⟨hcur, hop⟩
  · refine ⟨⟨m, rest, hsame.trans hf⟩, fun ht => ?_⟩
    rcases (h.operates hx).joined ht with hold | ⟨hcur, hop, _⟩
    · exact hout hold
    · exact hrun hcur hop
  · exact absurd hop (hrun hcur)

/-- An event keeps the units of every semaphore covered. -/
theorem Coherent.covered_of_step {e : Event} (h : Coherent k) (hp : k.Parked)
    (hx : step e k = .ok k') (s : SemaRef)
    (hc : Covered (k.semas s).sem { t | k.Woken s t }) :
    Covered (k'.semas s).sem { t | k'.Woken s t } := by
  have hops := h.operates hx
  -- nobody leaves the woken threads but the running thread, by a test of this value
  have hstay : e.semaOp k ≠ some (s, .down) → { t | k.Woken s t } ⊆ { t | k'.Woken s t } :=
    fun hne _ ht => h.woken_of_step hx ht fun _ => hne
  cases hop : e.semaOp k with
  | none =>
    rw [hop] at hops hstay
    have hs : k'.semas = k.semas := hops
    rw [hs]
    exact hc.mono (hstay (by simp))
  | some sop =>
    obtain ⟨s', op⟩ := sop
    rw [hop] at hops hstay
    obtain ⟨hd, hother, _⟩ := hops
    by_cases hs : s = s'
    · subst hs
      refine hc.of_does hd (fun t ht hne => h.woken_of_step hx ht fun he => absurd he hne) ?_ ?_
        (h.placed.nodup (.sema s))
      · rintro rfl ⟨⟨m, rest, hf⟩, _⟩
        cases e with
        | run page => simp [Event.semaOp, hf, Frame.semaOp] at hop
        | _ => cases hop
      · intro t ht hgone
        obtain ⟨m, rest, hf⟩ := hp s t ht
        refine ⟨⟨⟨m, rest, ?_⟩, hgone⟩, fun hw => hw.2 ht⟩
        rcases h.testing_of_step hx hf with hsame | ⟨hcur, _⟩
        · exact hsame.trans hf
        · exact absurd hcur (h.waiter_ne ht)
    · rw [hother s hs]
      refine hc.mono (hstay ?_)
      intro he
      cases he
      exact hs rfl

/-! ## Every run -/

/-- The kernel, and beside it the operations completed on each semaphore since it was
initialised. -/
structure Counted where
  kernel : Kernel
  tally : SemaRef → Tally

/-- The tallies after an event. -/
def Counted.next (c : Counted) (e : Event) : SemaRef → Tally :=
  match e.semaOp c.kernel with
  | some (s, op) =>
    Function.update c.tally s (op.tally (c.kernel.semas s).value (c.tally s))
  | none => c.tally

def countedStep (e : Event) (c : Counted) : Except Fault Counted := do
  let k ← step e c.kernel
  .ok { kernel := k, tally := c.next e }

def countedStart (b : Boot) : Counted where
  kernel := afterThreadStart b
  tally := fun s =>
    { initial := ((afterThreadStart b).semas s).value, ups := 0, downs := 0 }

/-- What holds of the semaphores between any two events. -/
structure Accounted (c : Counted) : Prop where
  coherent : Coherent c.kernel
  parked : c.kernel.Parked
  balanced : ∀ s, Balanced semaSize (c.kernel.semas s).value (c.tally s)
  covered : ∀ s, Covered (c.kernel.semas s).sem { t | c.kernel.Woken s t }

theorem Accounted.of_step {e : Event} {c c' : Counted} (h : Accounted c)
    (hx : countedStep e c = .ok c') : Accounted c' := by
  obtain ⟨k', hstep, hc⟩ := bind_eq_ok.mp hx
  cases hc
  refine ⟨h.coherent.of_step hstep, h.parked.of_step h.coherent hstep, fun s => ?_,
    fun s => h.coherent.covered_of_step h.parked hstep s (h.covered s)⟩
  have hops := h.coherent.operates hstep
  show Balanced semaSize (k'.semas s).value (c.next e s)
  unfold Counted.next
  cases hop : e.semaOp c.kernel with
  | none =>
    rw [hop] at hops
    have hs : k'.semas = c.kernel.semas := hops
    rw [hs]
    exact h.balanced s
  | some sop =>
    obtain ⟨s', op⟩ := sop
    rw [hop] at hops
    obtain ⟨hd, hother, _⟩ := hops
    dsimp only
    by_cases hs : s = s'
    · subst hs
      rw [Function.update_self]
      have hbal : Balanced semaSize (c.kernel.semas s).sem.value (c.tally s) := h.balanced s
      exact hbal.of_does (by decide) hd
    · rw [Function.update_of_ne hs, hother s hs]
      exact h.balanced s

theorem accounted_countedStart (b : Boot) : Accounted (countedStart b) where
  coherent := coherent_afterThreadStart b
  parked := by
    intro s t ht
    cases s <;> cases ht
  balanced := by
    intro s
    have hlt : ((afterThreadStart b).semas s).value < semaSize := by
      cases s with
      | plain n => exact b.value_lt n
      | lock l => exact (by decide : 1 < semaSize)
      | waiter t => exact (by decide : 0 < semaSize)
    show ((((afterThreadStart b).semas s).value : Nat) : Int) = _
    simp only [countedStart]
    rw [Int.emod_eq_of_lt] <;> omega
  covered := by
    intro s hw
    cases s <;> exact absurd rfl hw

theorem reach_accounted {b : Boot} {c : Counted}
    (h : Reach (Steps countedStep) (countedStart b) c) : Accounted c :=
  h.invariant (accounted_countedStart b) fun _ _ _ ha hx => ha.of_step hx

/-- The thread an up wakes has the highest priority among the waiters, and has waited longest of
those that have it. -/
theorem Coherent.wakes_first {e : Event} {s : SemaRef} (h : Coherent k) (hp : k.Parked)
    (hop : e.semaOp k = some (s, .up)) (hw : (k.semas s).waiters ≠ []) (hx : step e k = .ok k') :
    ∃ t, IsFirstMax k.prio (k.semas s).waiters t ∧
      (k'.semas s).waiters = (k.semas s).waiters.erase t ∧ k'.Woken s t := by
  have hops := h.operates hx
  rw [hop] at hops
  obtain ⟨hd, _, _⟩ := hops
  obtain ⟨t, hmem, hfirst, hwaiters⟩ := hd.woken_of_up hw
  have hmem' : t ∈ (k.semas s).waiters := hmem
  have hout : t ∉ (k'.semas s).waiters := by
    have herase : (k'.semas s).waiters = (k.semas s).waiters.erase t := hwaiters
    rw [herase]
    exact (h.placed.nodup (.sema s)).not_mem_erase
  obtain ⟨m, rest, hf⟩ := hp s t hmem'
  refine ⟨t, hfirst, hwaiters, ⟨m, rest, ?_⟩, hout⟩
  rcases h.testing_of_step hx hf with hsame | ⟨hcur, _⟩
  · exact hsame.trans hf
  · exact absurd hcur (h.waiter_ne hmem')

end Pintos.Threads
