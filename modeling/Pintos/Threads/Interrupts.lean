import Pintos.Threads.QueueMembership

/-!
# External interrupts

`intr_handler` of `threads/interrupt.c` around the machine of `Machine`. An interrupt enters where a
tick could, its handler makes calls one after another with interrupts off, and `leave` acknowledges
the interrupt and then yields if it was told to. The body of `timer_interrupt` is one of the calls,
and so is `interrupt_handler` of `devices/ide.c`; `timer_is_tick` says that an interrupt which runs
the former is the tick of `Machine`.

Threads may also block themselves with `thread_block`, outside of any list, which is what
`thread_unblock` in a handler is for. A thread whose list element is in a list is not unblocked
behind the back of that list: a handler may call `thread_unblock` on it, but the run is not
followed any further.
-/

namespace Pintos.Threads

open Pintos.Lib

/-- The kernel with what an external interrupt adds. -/
structure Machine where
  kernel : Kernel
  /-- `yield_on_return`. -/
  yieldOnReturn : Bool
  /-- The interrupt the PIC has delivered, until it is acknowledged. -/
  inService : Option Nat
  /-- The threads that have blocked themselves outside of any list. -/
  aside : ThreadRef → Bool
  /-- `expecting_interrupt` of the channel with a given `completion_wait`. -/
  expecting : Nat → Bool

/-- What an external interrupt handler may call. -/
inductive HandlerCall where
  | semaUp (s : Nat)
  | semaTryDown (s : Nat)
  | lockTryAcquire (l : Nat)
  | threadUnblock (t : ThreadRef)
  | intrYieldOnReturn
  /-- `timer_interrupt`. -/
  | timerInterrupt
  /-- `interrupt_handler` of the channel with this `completion_wait`. -/
  | ideInterrupt (s : Nat)
  deriving DecidableEq, Repr

/-- `intr_yield_on_return`. -/
def intrYieldOnReturn (s : Machine) : Except Fault Machine :=
  if s.kernel.inExternalIntr = true then .ok { s with yieldOnReturn := true }
  else .error .notEnabled

/-- `lock_try_acquire` with interrupts off: the holder is set at once. -/
def handlerLockTryAcquire (l : LockRef) (k : Kernel) : Except Fault Kernel := do
  let held ← lockHeldByCurrentThread l k
  assert .lockNotHeld (held = false)
  let (success, k) := semaTryDown (.lock l) k
  if success then lockTryAcquired l k else .ok k

/-- A call, to the point where it returns to the handler. -/
def runHandlerCall (c : HandlerCall) (s : Machine) : Except Fault Machine :=
  match c with
  | .semaUp n => do
    let k ← semaUpInternal (.plain n) none s.kernel
    .ok { s with kernel := k }
  | .semaTryDown n => .ok { s with kernel := (semaTryDown (.plain n) s.kernel).2 }
  | .lockTryAcquire l => do
    let k ← handlerLockTryAcquire (.user l) s.kernel
    .ok { s with kernel := k }
  | .threadUnblock t => do
    let k ← threadUnblock t s.kernel
    .ok { s with kernel := k, aside := Function.update s.aside t false }
  | .intrYieldOnReturn => intrYieldOnReturn s
  | .timerInterrupt => do
    let _ ← threadCurrent s.kernel
    let s := { s with kernel := threadTick s.kernel }
    if s.kernel.threadTicks ≥ timeSlice then intrYieldOnReturn s else .ok s
  | .ideInterrupt n =>
    if s.expecting n then do
      let k ← semaUpInternal (.plain n) none s.kernel
      .ok { s with kernel := k }
    else .ok s

/-- What can happen next. -/
inductive IntrEvent where
  | thread (e : Event)
  /-- Thread code calls `thread_block`. -/
  | threadBlock
  /-- `issue_pio_command` on the channel with this `completion_wait`. -/
  | issuePioCommand (s : Nat)
  /-- An external interrupt: `intr_handler` to the call of the handler. -/
  | enter (vecNo : Nat)
  | handler (c : HandlerCall)
  /-- The handler returns: the rest of `intr_handler`. -/
  | leave
  deriving DecidableEq, Repr

/-- Interrupts are on, so that one may enter here. -/
def Kernel.intrOn (k : Kernel) : Bool :=
  k.scheduleTail.isNone && ((k.threads k.current).frames.head?.all fun f => !f.intrOff)

/-- `in_external_intr = false` and `pic_end_of_interrupt` in `intr_handler`. -/
def intrAcknowledge (s : Machine) : Machine :=
  { s with kernel := { s.kernel with inExternalIntr := false }, inService := none }

/-- The end of `intr_handler`: the interrupt is acknowledged before anything is yielded. -/
def intrReturn (s : Machine) : Except Fault Machine :=
  if s.yieldOnReturn then do
    let k ← threadYield (intrAcknowledge s).kernel
    .ok { intrAcknowledge s with kernel := k }
  else .ok (intrAcknowledge s)

/-- Whether the run is followed after a call. -/
def followed (c : HandlerCall) (s : Machine) : Bool :=
  match c with
  | .threadUnblock t => s.aside t
  | _ => true

/-- One event. -/
def intrStep (e : IntrEvent) (s : Machine) : Except Fault Machine :=
  if s.kernel.inExternalIntr = true then
    match e with
    | .handler c => if followed c s = true then runHandlerCall c s else .error .notEnabled
    | .leave => intrReturn s
    | _ => .error .notEnabled
  else
    match e with
    | .thread .tick => .error .notEnabled
    | .thread e => do
      let k ← step e s.kernel
      .ok { s with kernel := k }
    | .threadBlock =>
      if s.kernel.scheduleTail = none ∧ (s.kernel.threads s.kernel.current).frames = [] then do
        let k ← threadBlock s.kernel
        .ok { s with kernel := k, aside := Function.update s.aside s.kernel.current true }
      else .error .notEnabled
    | .issuePioCommand n =>
      if s.kernel.scheduleTail = none ∧ (s.kernel.threads s.kernel.current).frames = [] then
        .ok { s with expecting := Function.update s.expecting n true }
      else .error .notEnabled
    | .enter vecNo =>
      if s.kernel.intrOn = true ∧ 0x20 ≤ vecNo ∧ vecNo < 0x30 then
        .ok { s with kernel := { s.kernel with inExternalIntr := true }, yieldOnReturn := false
                     inService := some vecNo }
      else .error .notEnabled
    | _ => .error .notEnabled

/-- The machine when `thread_start` returns. -/
def bootMachine (b : Boot) : Machine :=
  { kernel := afterThreadStart b, yieldOnReturn := false, inService := none
    aside := fun _ => false, expecting := fun _ => false }

/-! ## The parts of an event -/

variable {k k' : Kernel} {s s' : Machine} {new aside : ThreadRef → Prop}

/-- In the handler a call is run. -/
theorem intrStep_handler {c : HandlerCall} (h : s.kernel.inExternalIntr = true)
    (hf : followed c s = true) : intrStep (.handler c) s = runHandlerCall c s := by
  unfold intrStep
  rw [if_pos h]
  exact if_pos hf

/-- The handler leaves by returning. -/
theorem intrStep_leave (h : s.kernel.inExternalIntr = true) :
    intrStep .leave s = intrReturn s := by
  unfold intrStep
  rw [if_pos h]

/-- What happens in a handler. -/
theorem intrStep_handling (h : s.kernel.inExternalIntr = true) {e : IntrEvent}
    (hx : intrStep e s = .ok s') :
    (∃ c, e = .handler c ∧ followed c s = true ∧ runHandlerCall c s = .ok s') ∨
      (e = .leave ∧ intrReturn s = .ok s') := by
  unfold intrStep at hx
  rw [if_pos h] at hx
  cases e with
  | handler c =>
    simp only at hx
    split at hx
    next hc => exact .inl ⟨c, rfl, hc, hx⟩
    next => cases hx
  | leave => exact .inr ⟨rfl, hx⟩
  | _ => cases hx

/-- What happens outside of a handler. -/
theorem intrStep_thread (h : s.kernel.inExternalIntr = false) {e : IntrEvent}
    (hx : intrStep e s = .ok s') :
    (∃ e' k', e = .thread e' ∧ step e' s.kernel = .ok k' ∧ s' = { s with kernel := k' }) ∨
    (∃ k', e = .threadBlock ∧ s.kernel.scheduleTail = none ∧
      (s.kernel.threads s.kernel.current).frames = [] ∧ threadBlock s.kernel = .ok k' ∧
      s' = { s with kernel := k', aside := Function.update s.aside s.kernel.current true }) ∨
    (∃ n, e = .issuePioCommand n ∧
      s' = { s with expecting := Function.update s.expecting n true }) ∨
    (∃ vecNo, e = .enter vecNo ∧ s.kernel.intrOn = true ∧
      s' = { s with kernel := { s.kernel with inExternalIntr := true }, yieldOnReturn := false
                    inService := some vecNo }) := by
  unfold intrStep at hx
  rw [if_neg (by rw [h]; decide)] at hx
  cases e with
  | thread e =>
    cases e with
    | tick => cases hx
    | _ =>
      obtain ⟨k', hk, hx⟩ := bind_eq_ok.mp hx
      cases hx
      exact .inl ⟨_, k', rfl, hk, rfl⟩
  | threadBlock =>
    simp only at hx
    split at hx
    next hc =>
      obtain ⟨k', hk, hx⟩ := bind_eq_ok.mp hx
      cases hx
      exact .inr (.inl ⟨k', rfl, hc.1, hc.2, hk, rfl⟩)
    next => cases hx
  | issuePioCommand n =>
    simp only at hx
    split at hx
    next =>
      cases hx
      exact .inr (.inr (.inl ⟨n, rfl, rfl⟩))
    next => cases hx
  | enter vecNo =>
    simp only at hx
    split at hx
    next hc =>
      cases hx
      exact .inr (.inr (.inr ⟨vecNo, rfl, hc.1, rfl⟩))
    next => cases hx
  | handler c => cases hx
  | leave => cases hx

/-! ## The interrupt flag -/

/-- `sema_up` does not return in a handler. -/
theorem semaUpInternal_intr {r : SemaRef} {m : Option LockRef} (h : k.inExternalIntr = true) :
    semaUpInternal r m k ≠ .ok k' := by
  intro hx
  obtain ⟨k₁, hwake, hyield⟩ := semaUpInternal_eq_ok hx
  have hk₁ : k₁.inExternalIntr = true := by
    obtain ⟨_, rfl⟩ | ⟨top, k₂, _, hunblock, rfl⟩ := semaWake_eq_ok hwake
    · exact h
    · have hsame := (threadUnblock_same hunblock).inExternalIntr
      cases m <;> exact hsame.trans h
  obtain ⟨_, _, hyield⟩ := bind_eq_ok.mp hyield
  obtain ⟨_, hintr, _⟩ := bind_eq_ok.mp hyield
  have hfalse : k₁.inExternalIntr = false := assert_eq_ok.mp hintr
  rw [hk₁] at hfalse
  cases hfalse

/-- No frame touches `in_external_intr`. -/
theorem exec_intr {page : Option ThreadRef} {f : Frame} (h : exec page k f = .ok k') :
    k'.inExternalIntr = k.inExternalIntr := by
  have hdown : ∀ {r : SemaRef} {m : Option LockRef} (k₁ : Kernel), semaDownLoop r m k₁ = .ok k' →
      k'.inExternalIntr = k₁.inExternalIntr := by
    intro r m k₁ hd
    obtain ⟨_, hb⟩ | ⟨_, rfl⟩ := semaDownLoop_eq_ok hd
    · have := (threadBlock_same hb).inExternalIntr
      cases m <;> exact this
    · cases m <;> rfl
  have hup : ∀ {r : SemaRef} {m : Option LockRef} (k₁ : Kernel), semaUpInternal r m k₁ = .ok k' →
      k'.inExternalIntr = k₁.inExternalIntr := by
    intro r m k₁ hu
    obtain ⟨k₂, hwake, hyield⟩ := semaUpInternal_eq_ok hu
    refine (threadYield_same hyield).inExternalIntr.trans ?_
    obtain ⟨_, rfl⟩ | ⟨top, k₃, _, hunblock, rfl⟩ := semaWake_eq_ok hwake
    · rfl
    · have := (threadUnblock_same hunblock).inExternalIntr
      cases m <;> exact this
  cases f with
  | threadYield => exact (threadYield_same h).inExternalIntr
  | threadYieldForSeconds e => exact (threadBlock_same (threadYieldForSeconds_eq_ok h).2).inExternalIntr
  | threadSetPriority p => exact (threadYield_same (threadSetPriority_eq_ok h)).inExternalIntr
  | threadExit => exact (schedule_same (threadExit_eq_ok h)).inExternalIntr
  | bitmapScanAndFlip p => obtain ⟨t, _, rfl⟩ | rfl := bitmapScanAndFlip_eq_ok h <;> rfl
  | initThread t p =>
    obtain ⟨k₁, h₁, h⟩ := bind_eq_ok.mp h
    obtain ⟨_, rfl⟩ := initThread_eq_ok h₁
    cases h
    rfl
  | threadUnblock t tid => exact (threadUnblock_same h).inExternalIntr
  | semaInit n v =>
    obtain ⟨_, rfl⟩ := execSemaInit_eq_ok h
    rfl
  | semaDown r => exact hdown k (semaDownInternal_eq_ok h)
  | semaDownLoop r m =>
    cases m with
    | none => exact hdown k h
    | some l => exact hdown (k.setWaitingLock k.current none) h
  | semaTryDown n =>
    cases h
    unfold semaTryDown
    split <;> rfl
  | semaUp r => exact hup k h
  | lockInit l =>
    obtain ⟨_, rfl⟩ := execLockInit_eq_ok h
    rfl
  | lockAcquire l =>
    obtain ⟨_, k₁, h₁, h₂⟩ := lockAcquire_eq_ok h
    refine (hdown k₁ h₂).trans ?_
    have := (donate_raised _ h₁).rest
    rw [this]
  | lockTryAcquire l =>
    obtain ⟨_, ⟨_, rfl⟩ | ⟨_, rfl⟩⟩ := lockTryAcquire_eq_ok h <;> rfl
  | lockTryAcquired l =>
    cases lockTryAcquired_eq_ok h
    rfl
  | lockRelease l => exact hup (lockReleased l k) (lockRelease_eq_ok h).2
  | condInit c =>
    cases execCondInit_eq_ok h
    rfl
  | condWait c l =>
    obtain ⟨_, rfl⟩ := condWait_eq_ok h
    rfl
  | condSignal c l => obtain ⟨_, rfl⟩ | ⟨top, _, rfl⟩ := condSignal_eq_ok h <;> rfl
  | condBroadcast c l =>
    cases h
    unfold condBroadcast
    split <;> rfl
  | idleBlock => exact (threadBlock_same h).inExternalIntr
  | _ =>
    cases h
    rfl

/-- An interrupt that runs `timer_interrupt` is a tick of the machine without interrupts. -/
theorem timer_is_tick {vecNo : Nat} (hin : s.kernel.inExternalIntr = false)
    (hvec : 0x20 ≤ vecNo ∧ vecNo < 0x30) (hx : step .tick s.kernel = .ok k') :
    ∃ s₁ s₂ s₃, intrStep (.enter vecNo) s = .ok s₁ ∧
      intrStep (.handler .timerInterrupt) s₁ = .ok s₂ ∧ intrStep .leave s₂ = .ok s₃ ∧
      s₃.kernel = k' := by
  obtain ⟨_, he, _⟩ | ⟨_, he, _⟩ | ⟨_, _, _, he, _⟩ | ⟨_, hn, htimer, hoff⟩ := step_eq_ok hx
  · cases he
  · cases he
  · cases he
  have hon : s.kernel.intrOn = true := by
    unfold Kernel.intrOn
    rw [hn, Option.isNone_none, Bool.true_and, Option.all_eq_true]
    intro f hf
    rw [hoff f hf]
    rfl
  have henter : intrStep (.enter vecNo) s = .ok { s with
      kernel := { s.kernel with inExternalIntr := true }, yieldOnReturn := false
      inService := some vecNo } := by
    unfold intrStep
    rw [if_neg (by rw [hin]; decide)]
    exact if_pos ⟨hon, hvec⟩
  -- acknowledged, the kernel is the one `timer_interrupt` ticks
  have hback : { threadTick { s.kernel with inExternalIntr := true } with inExternalIntr := false } =
      threadTick s.kernel := by
    rw [← hin]
    rfl
  unfold timerInterrupt at htimer
  obtain ⟨_, _, htimer⟩ := bind_eq_ok.mp htimer
  obtain ⟨c, hcur, htimer⟩ := bind_eq_ok.mp htimer
  have hcur' : threadCurrent { s.kernel with inExternalIntr := true } = .ok c := hcur
  split at htimer
  next hslice =>
    refine ⟨_, { s with kernel := threadTick { s.kernel with inExternalIntr := true }
                        yieldOnReturn := true, inService := some vecNo },
      { s with kernel := k', yieldOnReturn := true, inService := none }, henter, ?_, ?_, rfl⟩
    · refine (intrStep_handler rfl rfl).trans ?_
      simp only [runHandlerCall, hcur', bind_ok]
      exact if_pos hslice
    · refine (intrStep_leave rfl).trans ?_
      simp only [intrReturn, intrAcknowledge, if_true, hback, htimer, bind_ok]
  next hslice =>
    cases htimer
    refine ⟨_, { s with kernel := threadTick { s.kernel with inExternalIntr := true }
                        yieldOnReturn := false, inService := some vecNo },
      { s with kernel := threadTick s.kernel, yieldOnReturn := false, inService := none }, henter,
      ?_, ?_, rfl⟩
    · refine (intrStep_handler rfl rfl).trans ?_
      simp only [runHandlerCall, hcur', bind_ok]
      exact if_neg hslice
    · refine (intrStep_leave rfl).trans ?_
      simp only [intrReturn, intrAcknowledge, Bool.false_eq_true, if_false, hback]

/-- The threads do not enter a handler by themselves. -/
theorem step_intr {e : Event} (h : step e k = .ok k') : k'.inExternalIntr = k.inExternalIntr := by
  obtain ⟨prev, _, _, hx⟩ | ⟨c, _, _, _, rfl⟩ | ⟨page, f, rest, _, _, _, hx⟩ | ⟨_, _, hx, _⟩ :=
    step_eq_ok h
  · obtain ⟨rfl, _⟩ | ⟨p, _, _, _, _, _, rfl⟩ := threadScheduleTail_eq_ok hx <;> rfl
  · rfl
  · exact (exec_intr hx).trans rfl
  · rcases timerInterrupt_eq_ok hx with rfl | hy
    · rfl
    · exact (threadYield_same hy).inExternalIntr

/-! ## The invariant -/

/-- The running thread blocks itself, in no queue. -/
theorem Placed.stepAside {c : ThreadRef} (h : Placed k (some c) new) (hi : c ≠ k.idleThread) :
    Placed (k.setStatus c .blocked) none fun t => new t ∨ t = c := by
  have hqueue : ∀ q, (k.setStatus c .blocked).queue q = k.queue q := by
    intro q
    cases q <;> rfl
  have hself : (k.setStatus c .blocked).threads c = { k.threads c with status := .blocked } :=
    Kernel.modThread_self _ _ _
  have hother : ∀ t, t ≠ c → (k.setStatus c .blocked).threads t = k.threads t := fun t ht =>
    Kernel.modThread_ne _ _ ht
  have hne : ∀ {q t}, t ∈ k.queue q → t ≠ c := fun hm he => h.notCpu hm (congrArg some he.symm)
  have hlive := h.cpuLive rfl
  constructor
  case nodup => exact fun q => (hqueue q).symm ▸ h.nodup q
  case once =>
    intro q q' t hm hm'
    rw [hqueue] at hm hm'
    exact h.once hm hm'
  case queued =>
    intro q t hm
    rw [hqueue] at hm
    rw [hother t (hne hm)]
    exact h.queued hm
  case notIdle =>
    intro q t hm
    rw [hqueue] at hm
    exact h.notIdle hm
  case notCpu =>
    intro q t _
    simp
  case notNew =>
    intro q t hm
    rw [hqueue] at hm
    exact not_or.mpr ⟨h.notNew hm, hne hm⟩
  case ready =>
    intro t hm hs hidle _
    have htc : t ≠ c := by
      rintro rfl
      rw [hself] at hs
      cases hs
    rw [hother t htc] at hm hs
    exact h.ready hm hs hidle fun he => htc (Option.some.inj he).symm
  case blocked =>
    intro t hm hs hidle _ hnew
    obtain ⟨hnew, htc⟩ := not_or.mp hnew
    rw [hother t htc] at hm hs
    obtain ⟨q, hq, hmem⟩ := h.blocked hm hs hidle (fun he => htc (Option.some.inj he).symm) hnew
    exact ⟨q, hq, (hqueue q).symm ▸ hmem⟩
  case running =>
    intro t hm hs
    have htc : t ≠ c := by
      rintro rfl
      rw [hself] at hs
      cases hs
    rw [hother t htc] at hm hs
    exact absurd (Option.some.inj (h.running hm hs)).symm htc
  case cpuLive =>
    intro t ht
    cases ht
  case created =>
    rintro t (hn | rfl)
    · have htc : t ≠ c := fun he => hlive.2.2 (he ▸ hn)
      rw [hother t htc]
      exact h.created hn
    · rw [hself]
      exact ⟨hlive.1, rfl, hi⟩
  case idle =>
    show ((k.setStatus c .blocked).threads k.idleThread).magic = true ∧
      ((k.setStatus c .blocked).threads k.idleThread).status ≠ .dying
    rw [hother _ hi.symm]
    exact h.idle

/-- What holds between any two events. -/
structure Sound (s : Machine) : Prop where
  coherent : CoherentBut (fun t => s.aside t = true) s.kernel
  /-- A handler runs on a thread that is not being switched. -/
  handling : s.kernel.inExternalIntr = true → s.kernel.scheduleTail = none
  /-- The interrupt being handled is the one not yet acknowledged. -/
  service : s.inService.isSome = s.kernel.inExternalIntr

/-- What a handler's call leaves as it was. -/
structure Undisturbed (k k' : Kernel) : Prop where
  current : k'.current = k.current
  scheduleTail : k'.scheduleTail = k.scheduleTail
  inExternalIntr : k'.inExternalIntr = k.inExternalIntr

/-- A value is no queue. -/
theorem CoherentBut.setSema_value (h : CoherentBut aside k) (hn : k.scheduleTail = none)
    (r : SemaRef) (v : Nat) : CoherentBut aside (k.setSema r { k.semas r with value := v }) := by
  obtain ⟨hp, hk⟩ := h.placed.keep (k.setSema r { k.semas r with value := v }) rfl rfl rfl
    (queue_of_eq rfl rfl fun r' => setSema_waiters k r r' _ rfl) fun _ => ⟨rfl, rfl⟩
  exact h.of_quiet hn (quiet_setSema k r _ fun t ht => .inl ht) (fun _ => rfl) hp h.apart (.inl hk)

/-- A change that concerns neither threads nor queues nor pages. -/
theorem CoherentBut.of_eq (h : CoherentBut aside k) (hn : k.scheduleTail = none) (k' : Kernel)
    (ht : k'.threads = k.threads) (hs : k'.semas = k.semas) (hr : k'.readyList = k.readyList)
    (hl : k'.sleepList = k.sleepList) (hu : k'.usedMap = k.usedMap) (hc : k'.current = k.current)
    (htail : k'.scheduleTail = k.scheduleTail) (hi : k'.idleThread = k.idleThread)
    (hin : k'.initialThread = k.initialThread) : CoherentBut aside k' := by
  obtain ⟨hp, hk⟩ := h.placed.keep_of_eq k' ht hc htail hi
    (queue_of_eq hr hl fun r => by rw [hs])
  exact h.of_quiet hn (.of_eq ht hs hu hi hin) (fun u => by rw [ht]) hp h.apart (.inl hk)

/-! ## The calls, inverted -/

/-- In a handler the lock is taken, without the push on the list, or not. -/
theorem handlerLockTryAcquire_eq_ok {l : LockRef} (h : handlerLockTryAcquire l k = .ok k') :
    k.holder l ≠ some k.current ∧ (k' = k ∨
      k' = (k.setSema (.lock l) { k.semas (.lock l) with
        value := (k.semas (.lock l)).value - 1 }).setLock l
          { k.locks l with holder := some k.current }) := by
  unfold handlerLockTryAcquire at h
  obtain ⟨held, hheld, h⟩ := bind_eq_ok.mp h
  obtain ⟨_, hnot, h⟩ := bind_eq_ok.mp h
  constructor
  · have := assert_eq_ok.mp hnot
    rw [lockHeld_eq_ok hheld] at this
    simpa using this
  · unfold semaTryDown at h
    by_cases hv : (k.semas (.lock l)).value > 0
    · simp only [hv, if_true] at h
      exact .inr (lockTryAcquired_eq_ok h)
    · simp only [hv, if_false] at h
      cases h
      exact .inl rfl

/-- `intr_yield_on_return` leaves a mark, and switches nothing. -/
theorem intrYieldOnReturn_eq_ok (h : intrYieldOnReturn s = .ok s') :
    s' = { s with yieldOnReturn := true } := by
  unfold intrYieldOnReturn at h
  split at h
  next =>
    cases h
    rfl
  next => cases h

/-- What the calls do that return to a handler. -/
inductive Returns (s : Machine) : HandlerCall → Machine → Prop
  | semaTryDown (n : Nat) :
    Returns s (.semaTryDown n) { s with kernel := (semaTryDown (.plain n) s.kernel).2 }
  | notAcquired {l : Nat} (h : s.kernel.holder (.user l) ≠ some s.kernel.current) :
    Returns s (.lockTryAcquire l) s
  | acquired {l : Nat} (h : s.kernel.holder (.user l) ≠ some s.kernel.current) :
    Returns s (.lockTryAcquire l) { s with
      kernel := (s.kernel.setSema (.lock (.user l)) { s.kernel.semas (.lock (.user l)) with
        value := (s.kernel.semas (.lock (.user l))).value - 1 }).setLock (.user l)
          { s.kernel.locks (.user l) with holder := some s.kernel.current } }
  | threadUnblock {t : ThreadRef} {k' : Kernel} (h : threadUnblock t s.kernel = .ok k') :
    Returns s (.threadUnblock t) { s with
      kernel := k', aside := Function.update s.aside t false }
  | intrYieldOnReturn : Returns s .intrYieldOnReturn { s with yieldOnReturn := true }
  | timerInterrupt (y : Bool) :
    Returns s .timerInterrupt { s with kernel := threadTick s.kernel, yieldOnReturn := y }
  | ideInterrupt {n : Nat} (h : s.expecting n = false) : Returns s (.ideInterrupt n) s

/-- A call that comes back is one of those that may. -/
theorem returns_of_run (h : s.kernel.inExternalIntr = true) {c : HandlerCall}
    (hx : runHandlerCall c s = .ok s') : Returns s c s' := by
  cases c with
  | semaUp n =>
    obtain ⟨k, hk, _⟩ := bind_eq_ok.mp hx
    exact absurd hk (semaUpInternal_intr h)
  | semaTryDown n =>
    cases hx
    exact .semaTryDown n
  | lockTryAcquire l =>
    obtain ⟨k, hk, hx⟩ := bind_eq_ok.mp hx
    cases hx
    obtain ⟨hh, rfl | rfl⟩ := handlerLockTryAcquire_eq_ok hk
    · exact .notAcquired hh
    · exact .acquired hh
  | threadUnblock t =>
    obtain ⟨k, hk, hx⟩ := bind_eq_ok.mp hx
    cases hx
    exact .threadUnblock hk
  | intrYieldOnReturn =>
    cases intrYieldOnReturn_eq_ok hx
    exact .intrYieldOnReturn
  | timerInterrupt =>
    obtain ⟨_, _, hx⟩ := bind_eq_ok.mp hx
    simp only at hx
    split at hx
    · cases intrYieldOnReturn_eq_ok hx
      exact .timerInterrupt true
    · cases hx
      exact .timerInterrupt s.yieldOnReturn
  | ideInterrupt n =>
    simp only [runHandlerCall] at hx
    split at hx
    next =>
      obtain ⟨k, hk, _⟩ := bind_eq_ok.mp hx
      exact absurd hk (semaUpInternal_intr h)
    next he =>
      cases hx
      exact .ideInterrupt (by simpa using he)

/-- A call that returns has switched nothing and acknowledged nothing. -/
theorem Returns.undisturbed {c : HandlerCall} (h : Returns s c s') :
    Undisturbed s.kernel s'.kernel ∧ s'.inService = s.inService := by
  cases h with
  | semaTryDown n =>
    refine ⟨?_, rfl⟩
    unfold Threads.semaTryDown
    split <;> exact ⟨rfl, rfl, rfl⟩
  | threadUnblock h =>
    obtain ⟨_, _, rfl⟩ := threadUnblock_eq_ok h
    exact ⟨⟨rfl, rfl, rfl⟩, rfl⟩
  | _ => exact ⟨⟨rfl, rfl, rfl⟩, rfl⟩

/-! ## The invariant holds -/

/-- A handler's calls keep queues, stacks and status in agreement. -/
theorem Sound.of_returns {c : HandlerCall} (h : Sound s) (hin : s.kernel.inExternalIntr = true)
    (hf : followed c s = true) (hr : Returns s c s') : Sound s' := by
  have hn := h.handling hin
  obtain ⟨hund, hserv⟩ := hr.undisturbed
  refine ⟨?_, fun _ => hund.scheduleTail.trans hn, ?_⟩
  · cases hr with
    | semaTryDown n =>
      unfold semaTryDown
      split
      · exact h.coherent.setSema_value hn _ _
      · exact h.coherent
    | notAcquired => exact h.coherent
    | acquired =>
      refine (h.coherent.setSema_value hn _ _).of_eq hn _ rfl rfl rfl rfl rfl rfl rfl rfl rfl
    | @threadUnblock t k' hu =>
      have hwakes := wakes_threadUnblock hu
      have hta : s.aside t = true := hf
      have hsame := threadUnblock_same hu
      have hbut : ∀ u, s.kernel.New u ∨ Function.update s.aside t false u = true ↔
          (s.kernel.New u ∨ s.aside u = true) ∧ u ≠ t := by
        intro u
        by_cases hut : u = t
        · subst hut
          have := h.coherent.apart hta
          simpa using this
        · simp [hut]
      have hp := h.coherent.placed.unblock hwakes (.inr ⟨rfl, .inr hta, hbut⟩)
      have hne : s.kernel.current ≠ t := fun he =>
        (h.coherent.placed.cpuLive rfl).2.2 (he ▸ .inr hta)
      refine h.coherent.of_quiet hn (quiet_threadUnblock hu) hsame.frames (hund.current ▸ hp) ?_
        (.inl ⟨hund.current, hund.scheduleTail, ?_⟩)
      · intro u hu hnew
        by_cases hut : u = t
        · subst hut
          exact h.coherent.apart hta hnew
        · exact h.coherent.apart (by simpa [hut] using hu) hnew
      · show (k'.threads k'.current).status = _
        rw [show k'.current = s.kernel.current from hund.current]
        exact (hwakes.other _ hne).2
    | intrYieldOnReturn => exact h.coherent
    | timerInterrupt y =>
      exact h.coherent.of_eq hn _ rfl rfl rfl rfl rfl rfl rfl rfl rfl
    | ideInterrupt => exact h.coherent
  · rw [hserv, h.service, hund.inExternalIntr]

/-- The end of an interrupt keeps them so. -/
theorem Sound.of_intrReturn (h : Sound s) (hin : s.kernel.inExternalIntr = true)
    (hx : intrReturn s = .ok s') : Sound s' := by
  have hn := h.handling hin
  have hout : CoherentBut (fun t => s.aside t = true) (intrAcknowledge s).kernel :=
    h.coherent.of_eq hn _ rfl rfl rfl rfl rfl rfl rfl rfl rfl
  unfold intrReturn at hx
  split at hx
  next =>
    obtain ⟨k', hy, hx⟩ := bind_eq_ok.mp hx
    cases hx
    have hsame := threadYield_same hy
    obtain ⟨hp, hs⟩ := hout.placed.of_threadYield hy
    refine ⟨hout.of_quiet hn (quiet_threadYield hy) hsame.frames hp hout.apart (.inr hs), ?_, ?_⟩
    · intro hk
      rw [show k'.inExternalIntr = false from hsame.inExternalIntr] at hk
      cases hk
    · exact hsame.inExternalIntr.symm
  next =>
    cases hx
    refine ⟨hout, fun hk => ?_, rfl⟩
    cases hk

/-- And so does what threads do, and an interrupt that enters. -/
theorem Sound.of_thread {e : IntrEvent} (h : Sound s) (hin : s.kernel.inExternalIntr = false)
    (hx : intrStep e s = .ok s') : Sound s' := by
  have hserv : s.inService.isSome = false := h.service.trans hin
  obtain ⟨e', k', _, hstep, rfl⟩ | ⟨k', _, hn, hf, hb, rfl⟩ | ⟨n, _, rfl⟩ | ⟨v, _, hon, rfl⟩ :=
    intrStep_thread hin hx
  · have hk' : k'.inExternalIntr = false := (step_intr hstep).trans hin
    refine ⟨h.coherent.of_step hstep, fun hk => ?_, hserv.trans hk'.symm⟩
    rw [show k'.inExternalIntr = false from hk'] at hk
    cases hk
  · have hsame := threadBlock_same hb
    have hidle := h.coherent.framed.current_ne_idle hf
    have hlive := h.coherent.placed.cpuLive rfl
    have hk' : k'.inExternalIntr = false := hsame.inExternalIntr.trans hin
    have hbut : ∀ t, s.kernel.New t ∨ Function.update s.aside s.kernel.current true t = true ↔
        (s.kernel.New t ∨ s.aside t = true) ∨ t = s.kernel.current := by
      intro t
      by_cases ht : t = s.kernel.current
      · simp [ht]
      · simp [ht]
    have hleft := h.coherent.placed.stepAside hidle
    obtain ⟨_, _, hsched⟩ := threadBlock_eq_ok hb
    refine ⟨?_, fun hk => ?_, hserv.trans hk'.symm⟩
    · refine h.coherent.of_quiet hn (quiet_threadBlock hb) hsame.frames
        ((hleft.of_schedule hsched).congrNew hbut) (fun {t} ht hnew => ?_)
        (.inr (hleft.switched hsched))
      by_cases htc : t = s.kernel.current
      · exact hlive.2.2 (.inl (htc ▸ hnew))
      · exact h.coherent.apart (by simpa [htc] using ht) hnew
    · rw [show k'.inExternalIntr = false from hk'] at hk
      cases hk
  · exact ⟨h.coherent, h.handling, h.service⟩
  · have hn : s.kernel.scheduleTail = none := by
      unfold Kernel.intrOn at hon
      simp only [Bool.and_eq_true, Option.isNone_iff_eq_none] at hon
      exact hon.1
    exact ⟨h.coherent.of_eq hn _ rfl rfl rfl rfl rfl rfl rfl rfl rfl, fun _ => hn, rfl⟩

/-- Every step keeps the machine. -/
theorem Sound.of_step {e : IntrEvent} (h : Sound s) (hx : intrStep e s = .ok s') : Sound s' := by
  cases hin : s.kernel.inExternalIntr with
  | false => exact h.of_thread hin hx
  | true =>
    obtain ⟨c, _, hf, hrun⟩ | ⟨_, hret⟩ := intrStep_handling hin hx
    · exact h.of_returns hin hf (returns_of_run hin hrun)
    · exact h.of_intrReturn hin hret

/-- At first there is no handler. -/
theorem sound_bootMachine (b : Boot) : Sound (bootMachine b) := by
  refine ⟨?_, fun h => ?_, rfl⟩
  · have hfalse : (fun t => (bootMachine b).aside t = true) = fun _ => False := by
      funext t
      exact propext ⟨fun h => (by cases h), False.elim⟩
    rw [hfalse]
    exact coherentBut_iff.mpr (coherent_afterThreadStart b)
  · cases h

/-- Every reachable state of it is sound. -/
theorem reach_sound {b : Boot} (h : Reach (Steps intrStep) (bootMachine b) s) : Sound s :=
  h.invariant (sound_bootMachine b) fun _ _ _ hs hx => hs.of_step hx

/-! ## What a handler may call -/

/-- The call returns, on the same thread, with no switch under way, the handler still running and
the interrupt not yet acknowledged. -/
def HandlerCall.Completes (c : HandlerCall) (s : Machine) : Prop :=
  ∃ s', runHandlerCall c s = .ok s' ∧ Undisturbed s.kernel s'.kernel ∧ s'.inService = s.inService

/-- `thread_unblock` is for a blocked thread. -/
def HandlerCall.Proper (c : HandlerCall) (s : Machine) : Prop :=
  match c with
  | .threadUnblock t =>
    (s.kernel.threads t).magic = true ∧ (s.kernel.threads t).status = .blocked
  | _ => True

/-- The call does not up a semaphore, and does not try a lock of the interrupted thread. -/
def HandlerCall.Safe (c : HandlerCall) (s : Machine) : Prop :=
  match c with
  | .semaUp _ => False
  | .ideInterrupt n => s.expecting n = false
  | .lockTryAcquire l => s.kernel.holder (.user l) ≠ some s.kernel.current
  | _ => True

/-- In a handler the interrupted thread is a running thread. -/
theorem Sound.current_ok (h : Sound s) (hin : s.kernel.inExternalIntr = true) :
    threadCurrent s.kernel = .ok s.kernel.current :=
  threadCurrent_eq_ok.mpr ⟨(h.coherent.placed.cpuLive rfl).1,
    h.coherent.running (h.handling hin), rfl⟩

/-- A call that comes back was safe. -/
theorem Returns.safe {c : HandlerCall} (h : Returns s c s') : c.Safe s := by
  cases h with
  | semaTryDown => trivial
  | notAcquired h => exact h
  | acquired h => exact h
  | threadUnblock => trivial
  | intrYieldOnReturn => trivial
  | timerInterrupt => trivial
  | ideInterrupt h => exact h

/-- A safe call returns. -/
theorem Sound.run_ok (h : Sound s) (hin : s.kernel.inExternalIntr = true) {c : HandlerCall}
    (hp : c.Proper s) (hs : c.Safe s) : ∃ s', runHandlerCall c s = .ok s' := by
  have hcur := h.current_ok hin
  cases c with
  | semaUp n => exact hs.elim
  | semaTryDown n => exact ⟨_, rfl⟩
  | lockTryAcquire l =>
    have hheld : lockHeldByCurrentThread (.user l) s.kernel = .ok false := by
      have hne : (s.kernel.holder (.user l) == some s.kernel.current) = false :=
        beq_eq_false_iff_ne.mpr hs
      rw [lockHeldByCurrentThread, hcur, bind_ok, hne]
    have hafter : threadCurrent (semaTryDown (.lock (.user l)) s.kernel).2 =
        .ok s.kernel.current := by
      unfold semaTryDown
      split <;> exact hcur
    simp only [runHandlerCall, handlerLockTryAcquire, hheld, bind_ok]
    split
    · exact ⟨_, by simp only [lockTryAcquired, hafter, assert, bind_ok]; rfl⟩
    · exact ⟨_, rfl⟩
  | threadUnblock t =>
    exact ⟨_, by simp only [runHandlerCall, threadUnblock, assert, hp.1, hp.2]; rfl⟩
  | intrYieldOnReturn => exact ⟨_, if_pos hin⟩
  | timerInterrupt =>
    simp only [runHandlerCall, hcur, bind_ok]
    split
    · exact ⟨_, if_pos hin⟩
    · exact ⟨_, rfl⟩
  | ideInterrupt n => exact ⟨s, if_neg (by rw [show s.expecting n = false from hs]; decide)⟩

/-- In every state reached: a switch is under way only when the interrupt has been acknowledged,
and in a handler a call completes exactly when it is safe. -/
theorem handler_calls {b : Boot} (h : Reach (Steps intrStep) (bootMachine b) s) :
    (s.kernel.scheduleTail ≠ none → s.inService = none) ∧
    (s.kernel.inExternalIntr = true → ∀ c : HandlerCall, c.Proper s → (c.Completes s ↔ c.Safe s)) := by
  have hsound := reach_sound h
  constructor
  · intro hswitch
    cases hin : s.kernel.inExternalIntr with
    | true => exact absurd (hsound.handling hin) hswitch
    | false => exact Option.isNone_iff_eq_none.mp (by simpa [hin] using hsound.service)
  · intro hin c hp
    constructor
    · rintro ⟨s', hx, _⟩
      exact (returns_of_run hin hx).safe
    · intro hs
      obtain ⟨s', hx⟩ := hsound.run_ok hin hp hs
      exact ⟨s', hx, (returns_of_run hin hx).undisturbed⟩

/-- In the handler of a timer interrupt at boot `sema_try_down` completes. -/
theorem handler_calls_at_boot : ∃ s : Machine, s.kernel.inExternalIntr = true ∧
    (HandlerCall.semaTryDown 0).Completes s := by
  obtain ⟨s, hr, hp⟩ := exists_of_replay intrStep (fun _ _ => true) [.enter 0x20]
    (bootMachine smallBoot) (fun s => s.kernel.inExternalIntr) (by decide +kernel)
  exact ⟨s, hp, ((handler_calls (hr.weaken fun _ _ _ => trivial)).2 hp (.semaTryDown 0) trivial).mpr
    trivial⟩

/-- Whether a call fails the assertion in `thread_yield`. -/
def panicsTest (c : HandlerCall) (s : Machine) : Bool :=
  match runHandlerCall c s with
  | .error (.panic .notIntrContext) => true
  | _ => false

/-- The completion handler of an IDE channel that expects an interrupt panics in `sema_up`. -/
theorem ide_handler_panics : ∃ s, Reach (Steps intrStep) (bootMachine smallBoot) s ∧
    s.kernel.inExternalIntr = true ∧ (HandlerCall.ideInterrupt 0).Proper s ∧
    runHandlerCall (.ideInterrupt 0) s = .error (.panic .notIntrContext) ∧
    ¬ (HandlerCall.ideInterrupt 0).Completes s := by
  obtain ⟨s, hr, hp⟩ := exists_of_replay intrStep (fun _ _ => true)
    [.issuePioCommand 0, .enter 0x2e] (bootMachine smallBoot)
    (fun s => s.kernel.inExternalIntr && panicsTest (.ideInterrupt 0) s) (by decide +kernel)
  obtain ⟨hin, hpanic⟩ := (Bool.and_eq_true _ _ ▸ hp : _ = true ∧ _ = true)
  have hrun : runHandlerCall (.ideInterrupt 0) s = .error (.panic .notIntrContext) := by
    unfold panicsTest at hpanic
    split at hpanic
    next h => exact h
    next => cases hpanic
  refine ⟨s, hr.weaken fun _ _ _ => trivial, hin, trivial, hrun, ?_⟩
  rintro ⟨s', hx, _⟩
  rw [hrun] at hx
  cases hx

end Pintos.Threads
