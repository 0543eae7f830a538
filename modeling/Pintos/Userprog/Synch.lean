import Mathlib.Logic.Function.Basic
import Pintos.Lib.Fallible
import Pintos.Threads.Semaphores

/-!
# The semaphores of the user programs project

`threads/synch.c` of the user programs project keeps the waiters of a semaphore first come first
served: `sema_up` unblocks the front of the list and does not yield. The functions run with
interrupts off up to the `thread_block` in the loop of `sema_down`, so each is one step, and the
return from `thread_block` is another. Which thread runs next is left open: any thread that is
not blocked may take the next step, so what holds here holds under every scheduler. `sema_up` and
`sema_try_down` in an interrupt handler are steps of the thread that was interrupted.

The field `tally` is a ghost: it counts the operations completed and no definition reads it.

The last theorem puts both kernels together: neither loses a unit or a wake-up.
-/

namespace Pintos.Userprog.Synch

open Pintos.Lib

/-- A `struct thread`. -/
abbrev ThreadRef := Nat

/-- A `struct semaphore`. -/
abbrev SemaRef := Nat

/-- `struct semaphore`. -/
structure Semaphore where
  value : Nat
  waiters : List ThreadRef

def Semaphore.sem (v : Semaphore) : Sem ThreadRef := ⟨v.value, v.waiters⟩

structure State where
  semas : SemaRef → Semaphore
  /-- `t->status == THREAD_BLOCKED`; else the thread is READY or RUNNING. -/
  blocked : ThreadRef → Bool
  /-- The semaphore in whose `sema_down` a thread is, once it has called `thread_block`. -/
  downing : ThreadRef → Option SemaRef
  tally : SemaRef → Tally

inductive Fault where
  /-- `ASSERT (t->status == THREAD_BLOCKED)` in `thread_unblock`. -/
  | unblockBlocked
  /-- The step cannot be taken in this state; not a fault of the kernel. -/
  | notEnabled
  deriving DecidableEq, Repr

def State.setSema (σ : State) (s : SemaRef) (v : Semaphore) : State :=
  { σ with semas := Function.update σ.semas s v }

/-- Notes an operation on a semaphore. -/
def State.note (σ : State) (s : SemaRef) (op : SemOp) : State :=
  { σ with tally := Function.update σ.tally s (op.tally (σ.semas s).value (σ.tally s)) }

/-- `sema_init`. -/
def semaInit (s : SemaRef) (value : Nat) (σ : State) : State :=
  (σ.note s (.init (value % 2 ^ 32))).setSema s { value := value % 2 ^ 32, waiters := [] }

/-- The loop of `sema_down` from one test on, to its `thread_block` or its end. -/
def semaDownLoop (t : ThreadRef) (s : SemaRef) (σ : State) : State :=
  let v := σ.semas s
  if v.value = 0 then
    { (σ.note s .down).setSema s { v with waiters := v.waiters ++ [t] } with
      blocked := Function.update σ.blocked t true
      downing := Function.update σ.downing t (some s) }
  else
    { (σ.note s .down).setSema s { v with value := v.value - 1 } with
      downing := Function.update σ.downing t none }

/-- `sema_try_down`. -/
def semaTryDown (s : SemaRef) (σ : State) : State :=
  let v := σ.semas s
  if v.value > 0 then (σ.note s .tryDown).setSema s { v with value := v.value - 1 }
  else σ.note s .tryDown

/-- `thread_unblock`. -/
def threadUnblock (t : ThreadRef) (σ : State) : Except Fault State :=
  if σ.blocked t then .ok { σ with blocked := Function.update σ.blocked t false }
  else .error .unblockBlocked

/-- `sema_up`. -/
def semaUp (s : SemaRef) (σ : State) : Except Fault State :=
  let v := σ.semas s
  match v.waiters with
  | [] => .ok ((σ.note s .up).setSema s { v with value := (v.value + 1) % 2 ^ 32 })
  | t :: rest =>
    threadUnblock t ((σ.note s .up).setSema s
      { value := (v.value + 1) % 2 ^ 32, waiters := rest })

/-- What can happen next. -/
inductive Event where
  | semaInit (t : ThreadRef) (s : SemaRef) (value : Nat)
  | semaDown (t : ThreadRef) (s : SemaRef)
  /-- `thread_block` returns in the loop of `sema_down`. -/
  | resume (t : ThreadRef)
  | semaTryDown (t : ThreadRef) (s : SemaRef)
  | semaUp (t : ThreadRef) (s : SemaRef)
  deriving DecidableEq, Repr

/-- The thread runs and is not inside a `sema_down`. -/
def State.calls (σ : State) (t : ThreadRef) : Bool := !σ.blocked t && (σ.downing t).isNone

/-- One event. Initialising a semaphore that has waiters is outside the interface. -/
def step (e : Event) (σ : State) : Except Fault State :=
  match e with
  | .semaInit t s v =>
    if σ.calls t ∧ (σ.semas s).waiters = [] then .ok (semaInit s v σ) else .error .notEnabled
  | .semaDown t s => if σ.calls t then .ok (semaDownLoop t s σ) else .error .notEnabled
  | .resume t =>
    match σ.downing t with
    | some s => if σ.blocked t then .error .notEnabled else .ok (semaDownLoop t s σ)
    | none => .error .notEnabled
  | .semaTryDown t s => if σ.calls t then .ok (semaTryDown s σ) else .error .notEnabled
  | .semaUp t s => if σ.calls t then semaUp s σ else .error .notEnabled

/-- Nothing is done yet; semaphores come into use by `sema_init`. -/
def initial : State where
  semas := fun _ => { value := 0, waiters := [] }
  blocked := fun _ => false
  downing := fun _ => none
  tally := fun _ => { initial := 0, ups := 0, downs := 0 }

/-- An up has unblocked the thread, and it has not yet tested the value again. -/
def State.Woken (σ : State) (s : SemaRef) (t : ThreadRef) : Prop :=
  σ.downing t = some s ∧ σ.blocked t = false

variable {σ σ' : State} {s : SemaRef} {t : ThreadRef}

/-! ## One event, one operation -/

/-- The first in the queue. -/
def first (l : List ThreadRef) (t : ThreadRef) : Prop := l.head? = some t

/-- What an event does: an operation on one semaphore by a thread, which is not inside a
`sema_down` unless it tests the value there. -/
structure Operates (σ σ' : State) (s : SemaRef) (op : SemOp) (t : ThreadRef) : Prop where
  does : op.Does (2 ^ 32) first t (σ.semas s).sem (σ'.semas s).sem
  other : ∀ s', s' ≠ s → σ'.semas s' = σ.semas s'
  tally : σ'.tally = Function.update σ.tally s (op.tally (σ.semas s).value (σ.tally s))
  caller : σ.blocked t = false ∧ ∀ s', σ.downing t = some s' → op = .down ∧ s' = s
  waits : op = .down → (σ.semas s).value = 0 → σ'.downing t = some s ∧ σ'.blocked t = true
  keeps : ∀ u, u ≠ t → σ'.downing u = σ.downing u
  unblocks : ∀ u, u ≠ t → σ'.blocked u = σ.blocked u ∨
    (σ'.blocked u = false ∧ u ∈ (σ.semas s).waiters ∧ u ∉ (σ'.semas s).waiters)
  woken : ∀ u ∈ (σ.semas s).waiters, u ∉ (σ'.semas s).waiters → σ'.blocked u = false

/-- What holds of the semaphores between any two events. -/
structure Sound (σ : State) : Prop where
  parked : ∀ s, ∀ t ∈ (σ.semas s).waiters, σ.downing t = some s ∧ σ.blocked t = true
  nodup : ∀ s, (σ.semas s).waiters.Nodup
  balanced : ∀ s, Balanced (2 ^ 32) (σ.semas s).value (σ.tally s)
  covered : ∀ s, Covered (σ.semas s).sem { t | σ.Woken s t }

/-- A thread calls that is neither blocked nor in `sema_down`. -/
theorem calls_iff : σ.calls t = true ↔ σ.blocked t = false ∧ σ.downing t = none := by
  simp [State.calls]

/-- `sema_init` is an operation, with nobody waiting. -/
theorem operates_semaInit {v : Nat} (ht : σ.calls t = true) (hw : (σ.semas s).waiters = []) :
    Operates σ (semaInit s v σ) s (.init (v % 2 ^ 32)) t := by
  obtain ⟨hb, hd⟩ := calls_iff.mp ht
  refine ⟨?_, fun s' hs => Function.update_of_ne hs _ _, rfl, ⟨hb, fun s' h => ?_⟩, ?_,
    fun _ _ => rfl, fun _ _ => .inl rfl, fun u hu => ?_⟩
  · simp only [semaInit, State.setSema, Function.update_self]
    exact .init (Nat.mod_lt _ (by decide))
  · rw [hd] at h
    cases h
  · intro h
    cases h
  · rw [hw] at hu
    cases hu

/-- At 0 the thread waits. -/
theorem semaDownLoop_waits (t : ThreadRef) (hv : (σ.semas s).value = 0) :
    semaDownLoop t s σ =
      { (σ.note s .down).setSema s { σ.semas s with waiters := (σ.semas s).waiters ++ [t] } with
        blocked := Function.update σ.blocked t true
        downing := Function.update σ.downing t (some s) } := if_pos hv

/-- Above 0 the thread takes one. -/
theorem semaDownLoop_takes (t : ThreadRef) (hv : (σ.semas s).value ≠ 0) :
    semaDownLoop t s σ =
      { (σ.note s .down).setSema s { σ.semas s with value := (σ.semas s).value - 1 } with
        downing := Function.update σ.downing t none } := if_neg hv

/-- A test of the value, by a thread that has called `sema_down` or was woken in it. -/
theorem operates_semaDownLoop (hb : σ.blocked t = false)
    (hd : ∀ s', σ.downing t = some s' → s' = s) :
    Operates σ (semaDownLoop t s σ) s .down t := by
  have hcaller : ∀ s', σ.downing t = some s' → SemOp.down = .down ∧ s' = s :=
    fun s' h => ⟨rfl, hd s' h⟩
  by_cases hv : (σ.semas s).value = 0
  · rw [semaDownLoop_waits t hv]
    refine ⟨?_, fun s' hs' => Function.update_of_ne hs' _ _, rfl, ⟨hb, hcaller⟩, fun _ _ => ?_,
      fun u hu => Function.update_of_ne hu _ _, fun u hu => .inl (Function.update_of_ne hu _ _),
      fun u hu hout => ?_⟩
    · simp only [State.setSema, Function.update_self]
      exact .waits hv
    · exact ⟨Function.update_self _ _ _, Function.update_self _ _ _⟩
    · refine absurd ?_ hout
      simp only [State.setSema, Function.update_self]
      exact List.mem_append_left _ hu
  · rw [semaDownLoop_takes t hv]
    refine ⟨?_, fun s' hs' => Function.update_of_ne hs' _ _, rfl, ⟨hb, hcaller⟩,
      fun _ h0 => absurd h0 hv, fun u hu => Function.update_of_ne hu _ _, fun u hu => .inl rfl,
      fun u hu hout => ?_⟩
    · simp only [State.setSema, Function.update_self]
      exact .takes hv
    · refine absurd ?_ hout
      simp only [State.setSema, Function.update_self]
      exact hu

/-- `sema_try_down` is an operation on its semaphore. -/
theorem operates_semaTryDown (ht : σ.calls t = true) :
    Operates σ (semaTryDown s σ) s .tryDown t := by
  obtain ⟨hb, hd⟩ := calls_iff.mp ht
  have hcaller : ∀ s', σ.downing t = some s' → SemOp.tryDown = .down ∧ s' = s := by
    intro s' h
    rw [hd] at h
    cases h
  have hnot : SemOp.tryDown = .down → False := nofun
  by_cases hv : 0 < (σ.semas s).value
  · have heq : semaTryDown s σ = (σ.note s .tryDown).setSema s
        { σ.semas s with value := (σ.semas s).value - 1 } := if_pos hv
    rw [heq]
    refine ⟨?_, fun s' hs' => Function.update_of_ne hs' _ _, rfl, ⟨hb, hcaller⟩,
      fun h => absurd h hnot, fun _ _ => rfl, fun _ _ => .inl rfl, fun u hu hout => ?_⟩
    · simp only [State.setSema, Function.update_self]
      exact .tries (Nat.pos_iff_ne_zero.mp hv)
    · refine absurd ?_ hout
      simp only [State.setSema, Function.update_self]
      exact hu
  · have heq : semaTryDown s σ = σ.note s .tryDown := if_neg hv
    rw [heq]
    exact ⟨.fails (Nat.eq_zero_of_not_pos hv), fun _ _ => rfl, rfl, ⟨hb, hcaller⟩,
      fun h => absurd h hnot, fun _ _ => rfl, fun _ _ => .inl rfl, fun u hu hout => absurd hu hout⟩

/-- Going up wakes the first that waits. -/
theorem semaUp_eq_ok (hx : semaUp s σ = .ok σ') :
    ((σ.semas s).waiters = [] ∧ σ' = (σ.note s .up).setSema s
      { σ.semas s with value := ((σ.semas s).value + 1) % 2 ^ 32 }) ∨
    ∃ t rest, (σ.semas s).waiters = t :: rest ∧ σ' = { (σ.note s .up).setSema s
      { value := ((σ.semas s).value + 1) % 2 ^ 32, waiters := rest } with
      blocked := Function.update σ.blocked t false } := by
  unfold semaUp at hx
  dsimp only at hx
  split at hx
  next hw =>
    cases hx
    exact .inl ⟨hw, rfl⟩
  next t rest hw =>
    unfold threadUnblock at hx
    split at hx
    next =>
      cases hx
      exact .inr ⟨t, rest, hw, rfl⟩
    next => cases hx

/-- `sema_up` is an operation on its semaphore. -/
theorem operates_semaUp (hs : Sound σ) (ht : σ.calls t = true) (hx : semaUp s σ = .ok σ') :
    Operates σ σ' s .up t := by
  obtain ⟨hb, hd⟩ := calls_iff.mp ht
  have hcaller : ∀ s', σ.downing t = some s' → SemOp.up = .down ∧ s' = s := by
    intro s' h
    rw [hd] at h
    cases h
  have hnot : SemOp.up = .down → False := nofun
  obtain ⟨hw, rfl⟩ | ⟨w, rest, hw, rfl⟩ := semaUp_eq_ok hx
  · refine ⟨?_, fun s' hs' => Function.update_of_ne hs' _ _, rfl, ⟨hb, hcaller⟩,
      fun h => absurd h hnot, fun _ _ => rfl, fun _ _ => .inl rfl, fun u hu => ?_⟩
    · simp only [State.setSema, Function.update_self, Semaphore.sem, hw]
      exact .ups rfl
    · rw [hw] at hu
      cases hu
  · have hout : w ∉ rest := by
      have hn := hs.nodup s
      rw [hw] at hn
      exact (List.nodup_cons.mp hn).1
    have hmem : w ∈ (σ.semas s).waiters := hw ▸ List.mem_cons_self
    refine ⟨?_, fun s' hs' => Function.update_of_ne hs' _ _, rfl, ⟨hb, hcaller⟩,
      fun h => absurd h hnot, fun _ _ => rfl, fun u hu => ?_, fun u hu hgone => ?_⟩
    · have hwake : SemOp.up.Does (2 ^ 32) first t (σ.semas s).sem
          ⟨((σ.semas s).value + 1) % 2 ^ 32, (σ.semas s).waiters.erase w⟩ :=
        .wakes hmem (by rw [first, Semaphore.sem, hw]; rfl)
      rw [hw, List.erase_cons_head] at hwake
      simpa only [State.setSema, Function.update_self, Semaphore.sem] using hwake
    · by_cases huw : u = w
      · subst huw
        refine .inr ⟨Function.update_self _ _ _, hmem, ?_⟩
        simp only [State.setSema, Function.update_self]
        exact hout
      · exact .inl (Function.update_of_ne huw _ _)
    · have hu' : u = w ∨ u ∈ rest := by
        rw [hw] at hu
        exact List.mem_cons.mp hu
      rcases hu' with rfl | hu'
      · exact Function.update_self _ _ _
      · refine absurd ?_ hgone
        simp only [State.setSema, Function.update_self]
        exact hu'

/-- Every event is an operation on one semaphore. -/
theorem Sound.operates {e : Event} (h : Sound σ) (hx : step e σ = .ok σ') :
    ∃ s op t, Operates σ σ' s op t := by
  cases e with
  | semaInit t s v =>
    unfold step at hx
    dsimp only at hx
    split at hx
    next hc =>
      cases hx
      exact ⟨s, _, t, operates_semaInit hc.1 hc.2⟩
    next => cases hx
  | semaDown t s =>
    unfold step at hx
    dsimp only at hx
    split at hx
    next hc =>
      cases hx
      obtain ⟨hb, hd⟩ := calls_iff.mp hc
      exact ⟨s, _, t, operates_semaDownLoop hb fun s' h => by rw [hd] at h; cases h⟩
    next => cases hx
  | resume t =>
    unfold step at hx
    dsimp only at hx
    split at hx
    next s hd =>
      split at hx
      next => cases hx
      next hb =>
        cases hx
        refine ⟨s, _, t, operates_semaDownLoop (by simpa using hb) fun s' h => ?_⟩
        rw [hd] at h
        exact (Option.some.inj h).symm
    next => cases hx
  | semaTryDown t s =>
    unfold step at hx
    dsimp only at hx
    split at hx
    next hc =>
      cases hx
      exact ⟨s, _, t, operates_semaTryDown hc⟩
    next => cases hx
  | semaUp t s =>
    unfold step at hx
    dsimp only at hx
    split at hx
    next hc => exact ⟨s, _, t, operates_semaUp h hc hx⟩
    next => cases hx

/-! ## Every run -/

variable {op : SemOp}

/-- Who calls does not wait. -/
theorem Sound.caller_not_waiting (h : Sound σ) (ho : Operates σ σ' s op t) (s' : SemaRef) :
    t ∉ (σ.semas s').waiters := by
  intro ht
  have hb := (h.parked s' t ht).2
  rw [ho.caller.1] at hb
  cases hb

/-- Who waits is blocked in `sema_down`. -/
theorem Sound.parked_of_operates (h : Sound σ) (ho : Operates σ σ' s op t) (s' : SemaRef)
    {u : ThreadRef} (hu : u ∈ (σ'.semas s').waiters) :
    σ'.downing u = some s' ∧ σ'.blocked u = true := by
  -- who waited before is as it was, unless an up has taken it off the queue
  have hold : u ∈ (σ.semas s').waiters → σ'.downing u = some s' ∧ σ'.blocked u = true := by
    intro hm
    have hne : u ≠ t := fun he => h.caller_not_waiting ho s' (he ▸ hm)
    obtain ⟨hd, hb⟩ := h.parked s' u hm
    refine ⟨(ho.keeps u hne).trans hd, ?_⟩
    rcases ho.unblocks u hne with hsame | ⟨_, hin, hout⟩
    · exact hsame.trans hb
    · have hs : s' = s := by
        rw [(h.parked s u hin).1] at hd
        exact (Option.some.inj hd).symm
      exact absurd (hs ▸ hu) hout
  by_cases hs : s' = s
  · subst hs
    rcases ho.does.mem_waiters hu with hm | ⟨rfl, hdown, hv⟩
    · exact hold hm
    · exact ho.waits hdown hv
  · rw [ho.other s' hs] at hu
    exact hold hu

/-- A woken thread stays woken until it runs. -/
theorem Sound.woken_of_operates (ho : Operates σ σ' s op t) {s' : SemaRef} {u : ThreadRef}
    (hu : σ.Woken s' u) (hne : u ≠ t) : σ'.Woken s' u := by
  refine ⟨(ho.keeps u hne).trans hu.1, ?_⟩
  rcases ho.unblocks u hne with hsame | ⟨hb, _, _⟩
  · exact hsame.trans hu.2
  · exact hb

/-- Every operation keeps the semaphores. -/
theorem Sound.of_operates (h : Sound σ) (ho : Operates σ σ' s op t) : Sound σ' where
  parked := fun s' _ hu => h.parked_of_operates ho s' hu
  nodup := by
    intro s'
    by_cases hs : s' = s
    · subst hs
      exact ho.does.nodup_waiters (h.nodup s') (h.caller_not_waiting ho s')
    · rw [ho.other s' hs]
      exact h.nodup s'
  balanced := by
    intro s'
    rw [ho.tally]
    by_cases hs : s' = s
    · subst hs
      rw [Function.update_self]
      have hbal : Balanced (2 ^ 32) (σ.semas s').sem.value (σ.tally s') := h.balanced s'
      exact hbal.of_does (by decide) ho.does
    · rw [Function.update_of_ne hs, ho.other s' hs]
      exact h.balanced s'
  covered := by
    intro s'
    by_cases hs : s' = s
    · subst hs
      refine (h.covered s').of_does ho.does (fun u hu hne => Sound.woken_of_operates ho hu hne) ?_
        ?_ (h.nodup s')
      · rintro rfl hw
        cases (ho.caller.2 s' hw.1).1
      · intro u hu hout
        have hne : u ≠ t := fun he => h.caller_not_waiting ho s' (he ▸ hu)
        obtain ⟨hd, hb⟩ := h.parked s' u hu
        refine ⟨⟨(ho.keeps u hne).trans hd, ho.woken u hu hout⟩, fun hw => ?_⟩
        have hw' := hw.2
        rw [hb] at hw'
        cases hw'
    · rw [ho.other s' hs]
      refine (h.covered s').mono fun u hu => ?_
      refine Sound.woken_of_operates ho hu fun he => ?_
      exact hs (ho.caller.2 s' (he ▸ hu.1)).2

theorem sound_initial : Sound initial where
  parked := by
    intro s t ht
    cases ht
  nodup := fun _ => List.nodup_nil
  balanced := by
    intro s
    rfl
  covered := fun _ hw => absurd rfl hw

/-- Every reachable state of the semaphores is sound. -/
theorem reach_sound (h : Reach (Steps step) initial σ) : Sound σ :=
  h.invariant sound_initial fun _ _ _ hs hx => by
    obtain ⟨s, op, t, ho⟩ := hs.operates hx
    exact hs.of_operates ho

/-! ## Both kernels -/

/-- Semaphores lose no wake-up and no unit, in the threads project and in the user programs
project. The value is the initial value and the completed ups less the completed downs, in the
arithmetic of `unsigned`; while threads wait, it is at most the number of threads that an up has
unblocked and that have not tested it since, so a positive value has one of them to consume it.
In the threads project an up wakes the waiter of highest priority, the first queued of those. -/
theorem semaphores_lose_nothing :
    (∀ b c, Reach (Steps Threads.countedStep) (Threads.countedStart b) c → ∀ s,
      ((c.kernel.semas s).value : Int) =
        ((c.tally s).initial + (c.tally s).ups - (c.tally s).downs) % (2 ^ 32 : Nat) ∧
      ((c.kernel.semas s).waiters ≠ [] →
        ((c.kernel.semas s).value : ℕ∞) ≤ { t | c.kernel.Woken s t }.encard ∧
        (0 < (c.kernel.semas s).value → ∃ t, c.kernel.Woken s t)) ∧
      (∀ e k', e.semaOp c.kernel = some (s, .up) → (c.kernel.semas s).waiters ≠ [] →
        Threads.step e c.kernel = .ok k' →
        ∃ t, IsFirstMax c.kernel.prio (c.kernel.semas s).waiters t ∧
          (k'.semas s).waiters = (c.kernel.semas s).waiters.erase t ∧ k'.Woken s t)) ∧
    (∀ σ, Reach (Steps step) initial σ → ∀ s,
      ((σ.semas s).value : Int) =
        ((σ.tally s).initial + (σ.tally s).ups - (σ.tally s).downs) % (2 ^ 32 : Nat) ∧
      ((σ.semas s).waiters ≠ [] →
        ((σ.semas s).value : ℕ∞) ≤ { t | σ.Woken s t }.encard ∧
        (0 < (σ.semas s).value → ∃ t, σ.Woken s t))) := by
  constructor
  · intro b c h s
    have ha := Threads.reach_accounted h
    refine ⟨ha.balanced s, fun hw => ⟨ha.covered s hw, (ha.covered s).exists_woken hw⟩, ?_⟩
    intro e k' hop hw hx
    exact ha.coherent.wakes_first ha.parked hop hw hx
  · intro σ h s
    have hs := reach_sound h
    exact ⟨hs.balanced s, fun hw => ⟨hs.covered s hw, (hs.covered s).exists_woken hw⟩⟩

/-- A thread waits for a semaphore of initial value 0, and another ups it. -/
theorem woken_after_up : ∃ σ, Reach (Steps step) initial σ ∧ (σ.semas 0).waiters = [2] ∧
    (σ.semas 0).value = 1 ∧ ∃ t, σ.Woken 0 t := by
  obtain ⟨σ, hσ, hp⟩ := exists_of_replay step (fun _ _ => true)
    [.semaInit 0 0 0, .semaDown 1 0, .semaDown 2 0, .semaUp 0 0] initial
    (fun σ => (σ.semas 0).waiters == [2] && (σ.semas 0).value == 1) (by decide +kernel)
  simp only [Bool.and_eq_true, beq_iff_eq] at hp
  have hpart := (semaphores_lose_nothing.2 σ hσ.reach 0).2 (by rw [hp.1]; simp)
  exact ⟨σ, hσ.reach, hp.1, hp.2, hpart.2 (by rw [hp.2]; decide)⟩

/-- Without the arithmetic of `unsigned` the books do not balance: an up on a semaphore at the
largest value leaves it at 0. -/
theorem value_overflows :
    ¬ ∀ σ, Reach (Steps step) initial σ → ∀ s,
      ((σ.semas s).value : Int) = (σ.tally s).initial + (σ.tally s).ups - (σ.tally s).downs := by
  intro hexact
  obtain ⟨σ, hσ, hp⟩ := exists_of_replay step (fun _ _ => true)
    [.semaInit 0 0 (2 ^ 32 - 1), .semaUp 0 0] initial
    (fun σ => (σ.semas 0).value == 0 &&
      σ.tally 0 == { initial := 2 ^ 32 - 1, ups := 1, downs := 0 }) (by decide +kernel)
  simp only [Bool.and_eq_true, beq_iff_eq] at hp
  have := hexact σ hσ.reach 0
  rw [hp.1, hp.2] at this
  cases this

end Pintos.Userprog.Synch
