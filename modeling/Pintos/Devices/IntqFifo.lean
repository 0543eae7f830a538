import Mathlib.Data.List.Nodup
import Pintos.Lib.Run
import Pintos.Devices.Intq

/-!
# The interrupt queue as a queue

The bytes go out as they came in, the positions stay in the buffer, and a thread is recorded as
waiting only while its condition holds. Of the assertions one can fail: a thread that had to wait for
the lock calls `wait` without looking at the queue again. A step fails exactly when that happens.
-/

namespace Pintos.Devices

open Pintos.Lib

variable {σ : State} {t : ThreadRef} {op : Op} {h : Option ThreadRef}

/-- What holds between two steps. With `some t` for `h` the thread `t` has come back from `wait` and
has yet to release the lock. -/
structure Sound (h : Option ThreadRef) (σ : State) : Prop where
  inRange : σ.q.ring.InRange intqBufsize
  fifo : σ.accepted = σ.returned ++ σ.q.ring.contents intqBufsize
  notEmpty : ∀ t, σ.q.notEmpty = some t →
    intqEmpty σ.q ∧ σ.blocked t = true ∧ σ.inside t = some (.getc, .wait)
  notFull : ∀ t, σ.q.notFull = some t →
    intqFull σ.q ∧ σ.blocked t = true ∧ ∃ byte, σ.inside t = some (.putc byte, .wait)
  held : ∀ t, σ.q.lock.holder = some t ↔ h = some t ∨ ∃ op, σ.inside t = some (op, .wait)
  value : σ.q.lock.value = if σ.q.lock.holder.isSome then 0 else 1
  parked : ∀ t ∈ σ.q.lock.waiters, σ.blocked t = true ∧ ∃ op, σ.inside t = some (op, .lockAcquire)
  nodup : σ.q.lock.waiters.Nodup

/-- The thread runs and is not in `thread_block`. -/
structure Runs (t : ThreadRef) (σ : State) : Prop where
  blocked : σ.blocked t = false
  inside : σ.inside t = none

theorem assert_ok {a : Assertion} {c : Prop} [Decidable c] (hc : c) : assert a c = .ok () := if_pos hc

/-- A blocked thread can be unblocked. -/
theorem threadUnblock_ok (hb : σ.blocked t = true) :
    σ.threadUnblock t = .ok { σ with blocked := Function.update σ.blocked t false } := by
  unfold State.threadUnblock
  rw [assert_ok hb]
  rfl

/-! ## The lock -/

/-- Where nobody waits for the lock the value goes up. -/
theorem semaUp_nil (hw : σ.q.lock.waiters = []) :
    semaUp σ = .ok (σ.setLock { σ.q.lock with value := (σ.q.lock.value + 1) % 2 ^ 32 }) := by
  unfold semaUp
  rw [hw]
  rfl

/-- The first in the queue is unblocked. -/
theorem semaUp_cons {w : ThreadRef} {rest : List ThreadRef} (hw : σ.q.lock.waiters = w :: rest)
    (hb : σ.blocked w = true) :
    semaUp σ = .ok { σ.setLock { σ.q.lock with
      value := (σ.q.lock.value + 1) % 2 ^ 32, waiters := rest } with
      blocked := Function.update σ.blocked w false } := by
  unfold semaUp
  have hun := threadUnblock_ok (σ := σ.setLock { σ.q.lock with waiters := rest }) hb
  rw [hw]
  dsimp only
  rw [hun]
  rfl

/-- The lock is given up: nobody is in `wait` any more. -/
theorem Sound.of_released {σ' : State} (rest : List ThreadRef) (hs : Sound (some t) σ)
    (ht : Runs t σ)
    (hq : σ'.q = { σ.q with lock := { holder := none, value := 1, waiters := rest } })
    (hin : σ'.inside = σ.inside) (hacc : σ'.accepted = σ.accepted)
    (hret : σ'.returned = σ.returned)
    (hrest : ∀ u ∈ rest, u ∈ σ.q.lock.waiters ∧ σ'.blocked u = σ.blocked u)
    (hnodup : rest.Nodup) : Sound none σ' := by
  have hheld : σ.q.lock.holder = some t := (hs.held t).mpr (.inl rfl)
  have hout : ∀ u op, σ.inside u ≠ some (op, .wait) := by
    intro u op hu
    have huh := (hs.held u).mpr (.inr ⟨op, hu⟩)
    rw [hheld] at huh
    cases huh
    rw [ht.inside] at hu
    cases hu
  constructor
  case inRange =>
    rw [hq]
    exact hs.inRange
  case fifo =>
    rw [hq, hacc, hret]
    exact hs.fifo
  case notEmpty =>
    intro u hu
    rw [hq] at hu
    exact absurd (hs.notEmpty u hu).2.2 (hout u _)
  case notFull =>
    intro u hu
    rw [hq] at hu
    obtain ⟨_, _, byte, hw⟩ := hs.notFull u hu
    exact absurd hw (hout u _)
  case held =>
    intro u
    rw [hq, hin]
    constructor
    · nofun
    · rintro (hu | ⟨op, hu⟩)
      · cases hu
      · exact absurd hu (hout u op)
  case value =>
    rw [hq]
    rfl
  case parked =>
    intro u hu
    rw [hq] at hu
    obtain ⟨hmem, hb⟩ := hrest u hu
    rw [hin, hb]
    exact hs.parked u hmem
  case nodup =>
    rw [hq]
    exact hnodup

/-- `lock_release`, by the thread that has come back from `wait`. -/
theorem lockRelease_ok (hs : Sound (some t) σ) (ht : Runs t σ) :
    ∃ σ', lockRelease t σ = .ok σ' ∧ Sound none σ' ∧ Runs t σ' ∧ σ'.q.ring = σ.q.ring := by
  have hheld : σ.q.lock.holder = some t := (hs.held t).mpr (.inl rfl)
  have hvalue : σ.q.lock.value = 0 := by
    rw [hs.value, hheld]
    rfl
  have hlock : lockRelease t σ = semaUp (σ.setLock { σ.q.lock with holder := none }) := by
    unfold lockRelease
    rw [assert_ok hheld]
    rfl
  cases hw : σ.q.lock.waiters with
  | nil =>
    refine ⟨_, hlock.trans (semaUp_nil hw), ?_, ⟨ht.blocked, ht.inside⟩, rfl⟩
    refine hs.of_released [] ht ?_ rfl rfl rfl nofun List.nodup_nil
    simp [State.setLock, hvalue, hw]
  | cons w rest =>
    have hnodup := hs.nodup
    rw [hw] at hnodup
    have hmem : w ∈ σ.q.lock.waiters := hw ▸ List.mem_cons_self
    refine ⟨_, hlock.trans (semaUp_cons hw (hs.parked w hmem).1), ?_, ⟨?_, ht.inside⟩, rfl⟩
    · refine hs.of_released rest ht ?_ rfl rfl rfl (fun u hu => ⟨?_, ?_⟩)
        (List.nodup_cons.mp hnodup).2
      · simp [State.setLock, hvalue]
      · rw [hw]
        exact List.mem_cons_of_mem _ hu
      · have hne : u ≠ w := fun he => (List.nodup_cons.mp hnodup).1 (he ▸ hu)
        exact Function.update_of_ne hne _ _
    · show Function.update σ.blocked w false t = false
      by_cases he : t = w
      · rw [he, Function.update_self]
      · rw [Function.update_of_ne he]
        exact ht.blocked

/-! ## The bytes -/

/-- A byte more or less in the queue, and the thread that waited for that. -/
theorem Sound.of_ring {σ' : State} {ring : Lib.Ring UInt8} (notFull notEmpty : Option ThreadRef)
    (hs : Sound none σ) (hring : ring.InRange intqBufsize)
    (hq : σ'.q = { σ.q with ring := ring, notFull := notFull, notEmpty := notEmpty })
    (hin : σ'.inside = σ.inside)
    (hfifo : σ'.accepted = σ'.returned ++ ring.contents intqBufsize)
    (hblocked : ∀ u, (∀ op, σ.inside u ≠ some (op, .wait)) ∨ notEmpty = some u ∨ notFull = some u →
      σ'.blocked u = σ.blocked u)
    (hempty : ∀ u, notEmpty = some u → σ.q.notEmpty = some u ∧ ring.Empty)
    (hfull : ∀ u, notFull = some u → σ.q.notFull = some u ∧ ring.Full intqBufsize) :
    Sound none σ' := by
  constructor
  case inRange =>
    rw [hq]
    exact hring
  case fifo =>
    rw [hq]
    exact hfifo
  case notEmpty =>
    intro u hu
    rw [hq] at hu
    obtain ⟨hold, he⟩ := hempty u hu
    obtain ⟨_, hb, hi⟩ := hs.notEmpty u hold
    rw [hin, hblocked u (.inr (.inl hu)), hq]
    exact ⟨he, hb, hi⟩
  case notFull =>
    intro u hu
    rw [hq] at hu
    obtain ⟨hold, hf⟩ := hfull u hu
    obtain ⟨_, hb, hi⟩ := hs.notFull u hold
    rw [hin, hblocked u (.inr (.inr hu)), hq]
    exact ⟨hf, hb, hi⟩
  case held =>
    intro u
    rw [hq, hin]
    exact hs.held u
  case value =>
    rw [hq]
    exact hs.value
  case parked =>
    intro u hu
    rw [hq] at hu
    obtain ⟨hb, op, hi⟩ := hs.parked u hu
    rw [hin, hblocked u (.inl fun op' hw => by rw [hi] at hw; cases hw)]
    exact ⟨hb, op, hi⟩
  case nodup =>
    rw [hq]
    exact hs.nodup

/-- Nobody waits for room: nothing to do. -/
theorem signalNotFull_none (hf : ¬ intqFull σ.q) (hn : σ.q.notFull = none) :
    signalNotFull σ = .ok σ := by
  unfold signalNotFull
  rw [assert_ok hf, hn]
  rfl

/-- The thread that waits for room is woken. -/
theorem signalNotFull_some (hf : ¬ intqFull σ.q) (hn : σ.q.notFull = some t)
    (hb : σ.blocked t = true) :
    signalNotFull σ = .ok { σ with
      q := { σ.q with notFull := none }, blocked := Function.update σ.blocked t false } := by
  unfold signalNotFull
  rw [assert_ok hf, hn]
  show (do let σ ← σ.threadUnblock t; _) = _
  rw [threadUnblock_ok hb]
  rfl

/-- Nobody waits for a byte: nothing to do. -/
theorem signalNotEmpty_none (he : ¬ intqEmpty σ.q) (hn : σ.q.notEmpty = none) :
    signalNotEmpty σ = .ok σ := by
  unfold signalNotEmpty
  rw [assert_ok he, hn]
  rfl

/-- The thread that waits for a byte is woken. -/
theorem signalNotEmpty_some (he : ¬ intqEmpty σ.q) (hn : σ.q.notEmpty = some t)
    (hb : σ.blocked t = true) :
    signalNotEmpty σ = .ok { σ with
      q := { σ.q with notEmpty := none }, blocked := Function.update σ.blocked t false } := by
  unfold signalNotEmpty
  rw [assert_ok he, hn]
  show (do let σ ← σ.threadUnblock t; _) = _
  rw [threadUnblock_ok hb]
  rfl

/-- Who is unblocked was in `wait` and is not recorded any more. -/
theorem blocked_of_signal {w : ThreadRef} {p : Op × Place} (hw : σ.inside w = some p)
    (hp : p.2 = .wait) {u : ThreadRef}
    (hu : (∀ op, σ.inside u ≠ some (op, .wait)) ∨ u ≠ w) :
    Function.update σ.blocked w false u = σ.blocked u := by
  have hne : u ≠ w := by
    rcases hu with hu | hu
    · rintro rfl
      exact hu p.1 (by rw [hw, ← hp])
    · exact hu
  exact Function.update_of_ne hne _ _

/-- `intq_getc` behind its loop. -/
theorem takeByte_ok (hs : Sound none σ) (he : ¬ intqEmpty σ.q) :
    ∃ σ', takeByte σ = .ok σ' ∧ Sound none σ' := by
  have hring := hs.inRange.drop
  have hfull : ¬ (σ.q.ring.drop intqBufsize).Full intqBufsize := hs.inRange.not_full_drop he
  have hfifo : σ.accepted = (σ.returned ++ [σ.q.ring.first]) ++
      (σ.q.ring.drop intqBufsize).contents intqBufsize := by
    rw [hs.fifo, hs.inRange.contents_drop he, List.append_assoc]
    rfl
  have hnone : ∀ u, σ.q.notEmpty ≠ some u := fun u hu => he (hs.notEmpty u hu).1
  unfold takeByte
  cases hn : σ.q.notFull with
  | none =>
    refine ⟨_, signalNotFull_none hfull hn, ?_⟩
    exact hs.of_ring none σ.q.notEmpty hring (by rw [← hn]) rfl hfifo
      (fun _ _ => rfl) (fun u hu => absurd hu (hnone u)) nofun
  | some w =>
    obtain ⟨_, hb, byte, hi⟩ := hs.notFull w hn
    refine ⟨_, signalNotFull_some hfull hn hb, ?_⟩
    refine hs.of_ring none σ.q.notEmpty hring rfl rfl hfifo
      (fun u hu => ?_) (fun u hu => absurd hu (hnone u)) nofun
    rcases hu with hu | hu | hu
    · exact blocked_of_signal hi rfl (.inl hu)
    · exact absurd hu (hnone u)
    · cases hu

/-- `intq_putc` behind its loop. -/
theorem addByte_ok {byte : UInt8} (hs : Sound none σ) (hf : ¬ intqFull σ.q) :
    ∃ σ', addByte byte σ = .ok σ' ∧ Sound none σ' := by
  have hring := hs.inRange.put (x := byte)
  have hempty : ¬ (σ.q.ring.put intqBufsize byte).Empty := Ring.not_empty_put hf
  have hfifo : σ.accepted ++ [byte] =
      σ.returned ++ (σ.q.ring.put intqBufsize byte).contents intqBufsize := by
    rw [hs.fifo, hs.inRange.contents_put hf, List.append_assoc]
  have hnone : ∀ u, σ.q.notFull ≠ some u := fun u hu => hf (hs.notFull u hu).1
  unfold addByte
  cases hn : σ.q.notEmpty with
  | none =>
    refine ⟨_, signalNotEmpty_none hempty hn, ?_⟩
    exact hs.of_ring σ.q.notFull none hring (by rw [← hn]) rfl hfifo
      (fun _ _ => rfl) nofun (fun u hu => absurd hu (hnone u))
  | some w =>
    obtain ⟨_, hb, hi⟩ := hs.notEmpty w hn
    refine ⟨_, signalNotEmpty_some hempty hn hb, ?_⟩
    refine hs.of_ring σ.q.notFull none hring rfl rfl hfifo
      (fun u hu => ?_) nofun (fun u hu => absurd hu (hnone u))
    rcases hu with hu | hu | hu
    · exact blocked_of_signal hi rfl (.inl hu)
    · cases hu
    · exact absurd hu (hnone u)

/-! ## Blocking -/

/-- `sema_down` finds the lock taken. -/
theorem Sound.of_queued (hs : Sound none σ) (ht : Runs t σ) :
    Sound none ((σ.setLock { σ.q.lock with waiters := σ.q.lock.waiters ++ [t] }).threadBlock t op
      .lockAcquire) := by
  have hnot : t ∉ σ.q.lock.waiters := by
    intro hmem
    have hb := (hs.parked t hmem).1
    rw [ht.blocked] at hb
    cases hb
  have hne : ∀ u p, σ.inside u = some p → u ≠ t := by
    rintro u p hu rfl
    rw [ht.inside] at hu
    cases hu
  have hold : ∀ u p, σ.inside u = some p →
      Function.update σ.blocked t true u = σ.blocked u ∧
      Function.update σ.inside t (some (op, Place.lockAcquire)) u = σ.inside u :=
    fun u p hu => ⟨Function.update_of_ne (hne u p hu) _ _, Function.update_of_ne (hne u p hu) _ _⟩
  constructor
  case inRange => exact hs.inRange
  case fifo => exact hs.fifo
  case notEmpty =>
    intro u hu
    obtain ⟨he, hb, hi⟩ := hs.notEmpty u hu
    exact ⟨he, (hold u _ hi).1.trans hb, (hold u _ hi).2.trans hi⟩
  case notFull =>
    intro u hu
    obtain ⟨hf, hb, byte, hi⟩ := hs.notFull u hu
    exact ⟨hf, (hold u _ hi).1.trans hb, byte, (hold u _ hi).2.trans hi⟩
  case held =>
    intro u
    refine (hs.held u).trans (or_congr_right ?_)
    constructor
    · rintro ⟨op', hi⟩
      exact ⟨op', (hold u _ hi).2.trans hi⟩
    · rintro ⟨op', hi⟩
      by_cases hut : u = t
      · subst hut
        rw [show ((σ.setLock _).threadBlock u op .lockAcquire).inside u = some (op, .lockAcquire) from
          Function.update_self _ _ _] at hi
        cases hi
      · exact ⟨op', (Function.update_of_ne hut _ _).symm.trans hi⟩
  case value => exact hs.value
  case parked =>
    intro u hu
    rcases List.mem_append.mp hu with hu | hu
    · obtain ⟨hb, op', hi⟩ := hs.parked u hu
      exact ⟨(hold u _ hi).1.trans hb, op', (hold u _ hi).2.trans hi⟩
    · rw [List.mem_singleton.mp hu]
      exact ⟨Function.update_self _ _ _, op, Function.update_self _ _ _⟩
  case nodup =>
    show (σ.q.lock.waiters ++ [t]).Nodup
    rw [← List.concat_eq_append]
    exact hs.nodup.concat hnot

/-- The lock is not the ring. -/
theorem mustWait_setLock {l : Lock} : op.mustWait (σ.setLock l).q ↔ op.mustWait σ.q := by
  cases op <;> exact Iff.rfl

/-- A thread that must wait does so. -/
theorem wait_ok (hm : op.mustWait σ.q) :
    wait t op σ = .ok ({ σ with q := op.setWaiter (some t) σ.q }.threadBlock t op .wait) := by
  unfold wait
  rw [assert_ok hm]
  rfl

/-- A thread that need not wait fails the assertion of `wait`. -/
theorem wait_panics (hm : ¬ op.mustWait σ.q) : wait t op σ = .error (.panic .waitCondition) := by
  unfold wait assert
  rw [if_neg hm]
  rfl

/-- `lock_acquire` has taken the lock and `wait` records the thread. -/
theorem Sound.of_waiting (hs : Sound none σ) (ht : Runs t σ) (hv : σ.q.lock.value ≠ 0)
    (hm : op.mustWait σ.q) :
    ∃ σ', wait t op (σ.setLock { σ.q.lock with value := σ.q.lock.value - 1, holder := some t }) =
      .ok σ' ∧ Sound none σ' := by
  have hfree : σ.q.lock.holder = none := by
    cases hh : σ.q.lock.holder with
    | none => rfl
    | some u =>
      refine absurd ?_ hv
      rw [hs.value, hh]
      rfl
  have hvalue : σ.q.lock.value - 1 = 0 := by
    rw [hs.value, hfree]
    rfl
  have hout : ∀ u op', σ.inside u ≠ some (op', .wait) := by
    intro u op' hu
    have huh := (hs.held u).mpr (.inr ⟨op', hu⟩)
    rw [hfree] at huh
    cases huh
  refine ⟨_, wait_ok (mustWait_setLock.mpr hm), ?_⟩
  -- nobody else is recorded, so of the two members only the one that is set matters
  have hnotEmpty : ∀ u, σ.q.notEmpty ≠ some u := fun u hu => hout u _ (hs.notEmpty u hu).2.2
  have hnotFull : ∀ u, σ.q.notFull ≠ some u := by
    intro u hu
    obtain ⟨_, _, byte, hi⟩ := hs.notFull u hu
    exact hout u _ hi
  constructor
  case inRange => cases op <;> exact hs.inRange
  case fifo => cases op <;> exact hs.fifo
  case notEmpty =>
    intro u hu
    cases op with
    | getc =>
      cases hu
      exact ⟨hm, Function.update_self _ _ _, Function.update_self _ _ _⟩
    | putc byte => exact absurd hu (hnotEmpty u)
  case notFull =>
    intro u hu
    cases op with
    | getc => exact absurd hu (hnotFull u)
    | putc byte =>
      cases hu
      exact ⟨hm, Function.update_self _ _ _, byte, Function.update_self _ _ _⟩
  case held =>
    intro u
    have hholder : ({ σ.setLock { σ.q.lock with value := σ.q.lock.value - 1, holder := some t } with
        q := op.setWaiter (some t) (σ.setLock { σ.q.lock with
          value := σ.q.lock.value - 1, holder := some t }).q }.threadBlock t op
          .wait).q.lock.holder = some t := by
      cases op <;> rfl
    rw [hholder]
    constructor
    · rintro h
      cases h
      exact .inr ⟨op, Function.update_self _ _ _⟩
    · rintro (h | ⟨op', hi⟩)
      · cases h
      · by_cases hut : u = t
        · rw [hut]
        · exact absurd ((Function.update_of_ne hut _ _).symm.trans hi) (hout u op')
  case value =>
    cases op <;> exact hvalue
  case parked =>
    intro u hu
    have hmem : u ∈ σ.q.lock.waiters := by cases op <;> exact hu
    obtain ⟨hb, op', hi⟩ := hs.parked u hmem
    have hut : u ≠ t := by
      rintro rfl
      rw [ht.inside] at hi
      cases hi
    exact ⟨(Function.update_of_ne hut _ _).trans hb, op', (Function.update_of_ne hut _ _).trans hi⟩
  case nodup => cases op <;> exact hs.nodup

/-! ## Steps -/

/-- The loop around the lock goes through if the thread still has to wait behind it. -/
theorem acquireLoop_ok (hs : Sound none σ) (ht : Runs t σ)
    (hm : σ.q.lock.value ≠ 0 → op.mustWait σ.q) :
    ∃ σ', acquireLoop t op σ = .ok σ' ∧ Sound none σ' := by
  unfold acquireLoop
  dsimp only
  split
  next => exact ⟨_, rfl, hs.of_queued ht⟩
  next hv => exact hs.of_waiting ht hv (hm hv)

/-- A call from a test of its loop on never fails: it tests, and waits only if it has to. -/
theorem loop_ok (hs : Sound none σ) (ht : Runs t σ) :
    ∃ σ', loop t op σ = .ok σ' ∧ Sound none σ' := by
  unfold loop
  split
  next hm =>
    have hnot : σ.q.lock.holder ≠ some t := by
      intro hh
      rcases (hs.held t).mp hh with h | ⟨op', hi⟩
      · cases h
      · rw [ht.inside] at hi
        cases hi
    rw [assert_ok hnot]
    exact acquireLoop_ok hs ht fun _ => hm
  next hm =>
    cases op with
    | getc => exact takeByte_ok hs hm
    | putc byte => exact addByte_ok hs hm

/-- Who the lock belongs to when a thread comes back from `thread_block`. -/
def Place.holder (t : ThreadRef) : Place → Option ThreadRef
  | .lockAcquire => none
  | .wait => some t

/-- A thread that runs again is where it was left. -/
theorem Sound.of_unpark {p : Place} (hs : Sound none σ) (hb : σ.blocked t = false)
    (hi : σ.inside t = some (op, p)) : Sound (p.holder t) (σ.unpark t) := by
  have hne : ∀ u, σ.blocked u = true → u ≠ t := by
    rintro u hu rfl
    rw [hb] at hu
    cases hu
  constructor
  case inRange => exact hs.inRange
  case fifo => exact hs.fifo
  case notEmpty =>
    intro u hu
    obtain ⟨he, hbu, hiu⟩ := hs.notEmpty u hu
    exact ⟨he, hbu, (Function.update_of_ne (hne u hbu) _ _).trans hiu⟩
  case notFull =>
    intro u hu
    obtain ⟨hf, hbu, byte, hiu⟩ := hs.notFull u hu
    exact ⟨hf, hbu, byte, (Function.update_of_ne (hne u hbu) _ _).trans hiu⟩
  case held =>
    intro u
    refine (hs.held u).trans ?_
    by_cases hut : u = t
    · subst hut
      rw [hi, show (σ.unpark u).inside u = none from Function.update_self _ _ _]
      cases p with
      | lockAcquire =>
        constructor
        · rintro (h | ⟨op', h⟩)
          · cases h
          · cases h
        · rintro (h | ⟨op', h⟩)
          · cases h
          · cases h
      | wait => exact ⟨fun _ => .inl rfl, fun _ => .inr ⟨op, rfl⟩⟩
    · rw [show (σ.unpark t).inside u = σ.inside u from Function.update_of_ne hut _ _]
      have hno : p.holder t = some u ↔ none = some u := by
        cases p with
        | lockAcquire => exact Iff.rfl
        | wait =>
          constructor
          · intro h
            exact absurd (Option.some.inj h).symm hut
          · nofun
      rw [hno]
  case value => exact hs.value
  case parked =>
    intro u hu
    obtain ⟨hbu, op', hiu⟩ := hs.parked u hu
    exact ⟨hbu, op', (Function.update_of_ne (hne u hbu) _ _).trans hiu⟩
  case nodup => exact hs.nodup

theorem runs_unpark (hb : σ.blocked t = false) : Runs t (σ.unpark t) :=
  ⟨hb, Function.update_self _ _ _⟩

theorem runs_of_calls (h : σ.calls t = true) : Runs t σ := by
  simp only [State.calls, Bool.and_eq_true, Bool.not_eq_true', Option.isNone_iff_eq_none] at h
  exact ⟨h.1, h.2⟩

/-- The thread that gets the lock after waiting for it still has to wait. -/
def Event.stillWaits (σ : State) : Event → Prop
  | .resume t => ∀ op, σ.inside t = some (op, .lockAcquire) → σ.blocked t = false →
      σ.q.lock.value ≠ 0 → op.mustWait σ.q
  | _ => True

/-- A step that the condition allows does not fail. -/
theorem Sound.step_ok {e : Event} (hs : Sound none σ) (hw : e.stillWaits σ) :
    step e σ = .error .notEnabled ∨ ∃ σ', step e σ = .ok σ' ∧ Sound none σ' := by
  cases e with
  | getc t =>
    unfold step
    dsimp only
    split
    next hc => exact .inr (loop_ok hs (runs_of_calls hc))
    next => exact .inl rfl
  | putc t byte =>
    unfold step
    dsimp only
    split
    next hc => exact .inr (loop_ok hs (runs_of_calls hc))
    next => exact .inl rfl
  | resume t =>
    unfold step
    dsimp only
    split
    next => exact .inl rfl
    next hb =>
      have hb' : σ.blocked t = false := by simpa using hb
      split
      next => exact .inl rfl
      next op hi => exact .inr (acquireLoop_ok (hs.of_unpark hb' hi) (runs_unpark hb') fun hv => by
          have := hw op hi hb' hv
          cases op <;> exact this)
      next op hi =>
        obtain ⟨σ₁, h₁, hs₁, ht₁, _⟩ := lockRelease_ok (hs.of_unpark hb' hi) (runs_unpark hb')
        rw [h₁]
        exact .inr (loop_ok hs₁ ht₁)
  | interrupt byte =>
    unfold step
    dsimp only
    split
    next => exact .inl rfl
    next hf => exact .inr (addByte_ok hs hf)

/-- And one that it does not allow fails in `wait`. -/
theorem step_panics {e : Event} (hw : ¬ e.stillWaits σ) :
    step e σ = .error (.panic .waitCondition) := by
  cases e with
  | resume t =>
    simp only [Event.stillWaits, not_forall] at hw
    obtain ⟨op, hi, hb, hv, hm⟩ := hw
    unfold step
    dsimp only
    rw [if_neg (by simp [hb]), hi]
    show acquireLoop t op (σ.unpark t) = _
    unfold acquireLoop
    rw [if_neg (show (σ.unpark t).q.lock.value ≠ 0 from hv)]
    exact wait_panics fun h => hm (mustWait_setLock.mp h)
  | getc t => exact absurd trivial hw
  | putc t byte => exact absurd trivial hw
  | interrupt byte => exact absurd trivial hw

/-- The empty queue is sound. -/
theorem sound_initial : Sound none initial where
  inRange := ⟨by decide, by decide⟩
  fifo := rfl
  notEmpty := nofun
  notFull := nofun
  held := by
    intro t
    constructor
    · nofun
    · rintro (h | ⟨op, h⟩)
      · cases h
      · cases h
  value := rfl
  parked := nofun
  nodup := List.nodup_nil

/-- Every reachable queue is sound. -/
theorem reach_sound (h : Reach (Steps step) initial σ) : Sound none σ :=
  h.invariant sound_initial fun s e s' hs hx => by
    have hw : e.stillWaits s := by
      by_contra hw
      rw [Steps, step_panics hw] at hx
      cases hx
    rcases hs.step_ok hw with h | ⟨s₁, h₁, hs₁⟩
    · rw [Steps, h] at hx
      cases hx
    · rw [Steps, h₁] at hx
      cases hx
      exact hs₁

/-- The interrupt queue is a bounded first-in first-out queue in every reachable state: what
`intq_getc` has returned is what `intq_putc` has accepted, less what is still in the buffer, and a
thread is recorded only while the queue is empty, or full. A step fails an assertion exactly when a
thread that had to wait for the lock gets it and would not have to wait any more. -/
theorem intq_is_fifo (h : Reach (Steps step) initial σ) :
    σ.accepted = σ.returned ++ σ.q.ring.contents intqBufsize ∧
    (0 ≤ σ.q.ring.head ∧ σ.q.ring.head ≤ intqBufsize - 1) ∧
    (0 ≤ σ.q.ring.tail ∧ σ.q.ring.tail ≤ intqBufsize - 1) ∧
    (∀ t, σ.q.notEmpty = some t → intqEmpty σ.q) ∧ (∀ t, σ.q.notFull = some t → intqFull σ.q) ∧
    ∀ e : Event, (∀ a, step e σ ≠ .error (.panic a)) ↔ e.stillWaits σ := by
  have hs := reach_sound h
  have hhead := hs.inRange.head
  have htail := hs.inRange.tail
  refine ⟨hs.fifo, ⟨hhead.1, by omega⟩, ⟨htail.1, by omega⟩, fun t ht => (hs.notEmpty t ht).1,
    fun t ht => (hs.notFull t ht).1, fun e => ⟨fun hno => ?_, fun hw a hx => ?_⟩⟩
  · by_contra hw
    exact hno _ (step_panics hw)
  · rcases hs.step_ok hw with h | ⟨σ', h, _⟩
    · rw [h] at hx
      cases hx
    · rw [h] at hx
      cases hx

/-- Two readers, one recorded and one behind the lock, and a byte for the first. -/
theorem intq_is_fifo_two_readers : ∃ σ, Reach (Steps step) initial σ ∧ σ.q.lock.waiters = [1] ∧
    σ.accepted = σ.returned ++ σ.q.ring.contents intqBufsize := by
  obtain ⟨σ, hσ, hp⟩ := exists_of_replay step (fun _ _ => true)
    [.getc 0, .getc 1, .interrupt 65] initial (fun σ => σ.q.lock.waiters == [1]) (by decide +kernel)
  exact ⟨σ, hσ.reach, by simpa using hp, (intq_is_fifo hσ.reach).1⟩

/-- Two interrupts in a row: the first reader takes one byte and gives the lock up, and the second
gets it while the other byte is in the queue. -/
theorem second_reader_panics :
    ¬ ∀ σ, Reach (Steps step) initial σ → ∀ e a, step e σ ≠ .error (.panic a) := by
  intro hno
  obtain ⟨σ, hσ, hp⟩ := exists_of_replay step (fun _ _ => true)
    [.getc 0, .getc 1, .interrupt 65, .interrupt 66, .resume 0] initial
    (fun σ => σ.inside 1 == some (.getc, .lockAcquire) && !σ.blocked 1 && σ.q.lock.value == 1 &&
      !decide (intqEmpty σ.q)) (by decide +kernel)
  simp only [Bool.and_eq_true, beq_iff_eq, Bool.not_eq_true', decide_eq_false_iff_not] at hp
  obtain ⟨⟨⟨hi, hb⟩, hv⟩, he⟩ := hp
  refine hno σ hσ.reach (.resume 1) .waitCondition (step_panics fun hw => he ?_)
  exact hw .getc hi hb (by rw [hv]; decide)

end Pintos.Devices
