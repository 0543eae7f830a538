import Pintos.Devices.IntqFifo

/-!
# What a step does to the bytes

A call of the interrupt queue parks its thread and leaves the bytes alone, or takes one byte out or puts
one in (`loop_cases`). So does a thread that comes back from `thread_block` (`resume_cases`).
-/

namespace Pintos.Devices

open Pintos.Lib

variable {σ σ' : State} {t : ThreadRef} {op : Op} {p : Place} {byte : UInt8}

/-- The thread sleeps, and the bytes are as they were. -/
structure Parked (t : ThreadRef) (op : Op) (σ σ' : State) : Prop where
  ring : σ'.q.ring = σ.q.ring
  accepted : σ'.accepted = σ.accepted
  returned : σ'.returned = σ.returned
  inside : ∃ p, σ'.inside = Function.update σ.inside t (some (op, p))
  blocked : σ'.blocked t = true

/-- A byte has been taken. -/
structure Took (σ σ' : State) : Prop where
  ring : σ'.q.ring = σ.q.ring.drop intqBufsize
  accepted : σ'.accepted = σ.accepted
  returned : σ'.returned = σ.returned ++ [σ.q.ring.first]
  inside : σ'.inside = σ.inside
  notEmpty : ¬ intqEmpty σ.q

/-- A byte has been added. -/
structure Added (byte : UInt8) (σ σ' : State) : Prop where
  ring : σ'.q.ring = σ.q.ring.put intqBufsize byte
  accepted : σ'.accepted = σ.accepted ++ [byte]
  returned : σ'.returned = σ.returned
  inside : σ'.inside = σ.inside
  notFull : ¬ intqFull σ.q

/-- The call is over. -/
def Finished (op : Op) (σ σ' : State) : Prop :=
  match op with
  | .getc => Took σ σ'
  | .putc byte => Added byte σ σ'

/-- To unblock a thread is not to touch the queue. -/
theorem threadUnblock_eq_ok (h : σ.threadUnblock t = .ok σ') :
    σ'.q = σ.q ∧ σ'.accepted = σ.accepted ∧ σ'.returned = σ.returned ∧ σ'.inside = σ.inside := by
  obtain ⟨u, -, h⟩ := bind_eq_ok.mp h
  cases h
  exact ⟨rfl, rfl, rfl, rfl⟩

/-- The byte that is taken is the oldest. -/
theorem takeByte_took (he : ¬ intqEmpty σ.q) (h : takeByte σ = .ok σ') : Took σ σ' := by
  obtain ⟨u, -, h⟩ := bind_eq_ok.mp h
  dsimp only at h
  split at h
  next =>
    cases h
    exact ⟨rfl, rfl, rfl, rfl, he⟩
  next =>
    obtain ⟨σ₁, hun, h⟩ := bind_eq_ok.mp h
    obtain ⟨hq, hacc, hret, hin⟩ := threadUnblock_eq_ok hun
    cases h
    exact ⟨congrArg Intq.ring hq, hacc, hret, hin, he⟩

/-- The byte that is added is the newest. -/
theorem addByte_added (hf : ¬ intqFull σ.q) (h : addByte byte σ = .ok σ') : Added byte σ σ' := by
  obtain ⟨u, -, h⟩ := bind_eq_ok.mp h
  dsimp only at h
  split at h
  next =>
    cases h
    exact ⟨rfl, rfl, rfl, rfl, hf⟩
  next =>
    obtain ⟨σ₁, hun, h⟩ := bind_eq_ok.mp h
    obtain ⟨hq, hacc, hret, hin⟩ := threadUnblock_eq_ok hun
    cases h
    exact ⟨congrArg Intq.ring hq, hacc, hret, hin, hf⟩

/-- Who waits leaves the queue as it is. -/
theorem wait_parked (h : wait t op σ = .ok σ') : Parked t op σ σ' := by
  obtain ⟨u, -, h⟩ := bind_eq_ok.mp h
  cases h
  refine ⟨?_, rfl, rfl, ⟨.wait, rfl⟩, Function.update_self _ _ _⟩
  cases op <;> rfl

/-- Who waits for the lock leaves the queue as it is. -/
theorem acquireLoop_parked (h : acquireLoop t op σ = .ok σ') : Parked t op σ σ' := by
  unfold acquireLoop at h
  dsimp only at h
  split at h
  next =>
    cases h
    exact ⟨rfl, rfl, rfl, ⟨.lockAcquire, rfl⟩, Function.update_self _ _ _⟩
  next =>
    have hp := wait_parked h
    exact ⟨hp.ring, hp.accepted, hp.returned, hp.inside, hp.blocked⟩

/-- The loop waits, or does its work. -/
theorem loop_cases (h : loop t op σ = .ok σ') : Parked t op σ σ' ∨ Finished op σ σ' := by
  unfold loop at h
  split at h
  next =>
    obtain ⟨u, -, h⟩ := bind_eq_ok.mp h
    exact .inl (acquireLoop_parked h)
  next hm =>
    cases op with
    | getc => exact .inr (takeByte_took hm h)
    | putc byte => exact .inr (addByte_added hm h)

/-- The bytes and the calls are as they were. -/
structure SameBytes (σ σ' : State) : Prop where
  ring : σ'.q.ring = σ.q.ring
  accepted : σ'.accepted = σ.accepted
  returned : σ'.returned = σ.returned
  inside : σ'.inside = σ.inside

/-- Going up on the lock moves no byte. -/
theorem semaUp_bytes (h : semaUp σ = .ok σ') : SameBytes σ σ' := by
  cases hw : σ.q.lock.waiters with
  | nil =>
    rw [semaUp_nil hw] at h
    cases h
    exact ⟨rfl, rfl, rfl, rfl⟩
  | cons w rest =>
    unfold semaUp at h
    rw [hw] at h
    obtain ⟨σ₁, hup, h⟩ := bind_eq_ok.mp h
    obtain ⟨hq, hacc, hret, hin⟩ := threadUnblock_eq_ok hup
    have hring := congrArg Intq.ring hq
    cases h
    exact ⟨hring, hacc, hret, hin⟩

/-- Letting go of the lock moves no byte. -/
theorem lockRelease_bytes (h : lockRelease t σ = .ok σ') : SameBytes σ σ' := by
  obtain ⟨u, -, h⟩ := bind_eq_ok.mp h
  have hb := semaUp_bytes h
  exact ⟨hb.ring, hb.accepted, hb.returned, hb.inside⟩

/-- A thread that comes back sleeps again, or ends its call. -/
theorem resume_cases (h : step (.resume t) σ = .ok σ') :
    ∃ op p, σ.inside t = some (op, p) ∧
      (Parked t op (σ.unpark t) σ' ∨ Finished op (σ.unpark t) σ') := by
  unfold step at h
  dsimp only at h
  split at h
  next => cases h
  next =>
    split at h
    next => cases h
    next op hi => exact ⟨op, .lockAcquire, hi, .inl (acquireLoop_parked h)⟩
    next op hi =>
      obtain ⟨σ₁, hrel, h⟩ := bind_eq_ok.mp h
      obtain ⟨hring, hacc, hret, hin⟩ := lockRelease_bytes hrel
      refine ⟨op, .wait, hi, ?_⟩
      rcases loop_cases h with hp | hf
      · refine .inl ⟨hp.ring.trans hring, hp.accepted.trans hacc, hp.returned.trans hret, ?_, hp.blocked⟩
        rw [← hin]
        exact hp.inside
      · refine .inr ?_
        cases op with
        | getc =>
          refine ⟨?_, hf.accepted.trans hacc, ?_, hf.inside.trans hin, ?_⟩
          · rw [hf.ring, hring]
          · rw [hf.returned, hret, hring]
          · have hne := hf.notEmpty
            unfold intqEmpty at hne ⊢
            rwa [hring] at hne
        | putc byte =>
          refine ⟨?_, ?_, hf.returned.trans hret, hf.inside.trans hin, ?_⟩
          · rw [hf.ring, hring]
          · rw [hf.accepted, hacc]
          · have hnf := hf.notFull
            unfold intqFull at hnf ⊢
            rwa [hring] at hnf

/-- What a step that does not fail keeps. -/
theorem Sound.of_step {e : Event} (hs : Sound none σ) (h : step e σ = .ok σ') : Sound none σ' := by
  by_cases hw : e.stillWaits σ
  · rcases hs.step_ok hw with hno | ⟨σ₁, h₁, hs₁⟩
    · rw [h] at hno
      cases hno
    · rw [h] at h₁
      cases h₁
      exact hs₁
  · rw [step_panics hw] at h
    cases h

/-! ## Who sleeps -/

/-- Sleeping calls are those there were, and the new one. -/
theorem Parked.only {τ τ' : State} {op : Op} {Q : Op → Prop} (hp : Parked t op τ τ')
    (hold : ∀ u op p, τ.inside u = some (op, p) → Q op) (hop : Q op) :
    ∀ u op p, τ'.inside u = some (op, p) → Q op := by
  intro u op' p hu
  obtain ⟨p', hin⟩ := hp.inside
  rw [hin] at hu
  by_cases heq : u = t
  · rw [heq, Function.update_self] at hu
    cases hu
    exact hop
  · rw [Function.update_of_ne heq] at hu
    exact hold u op' p hu

theorem Parked.isSome {τ τ' : State} {op : Op} (hp : Parked t op τ τ') :
    (τ'.inside t).isSome = true := by
  obtain ⟨p, hin⟩ := hp.inside
  rw [hin, Function.update_self]
  rfl

/-- The bytes are the same, and no other thread sleeps. -/
structure Within (τ₀ τ : State) : Prop where
  ring : τ.q.ring = τ₀.q.ring
  accepted : τ.accepted = τ₀.accepted
  returned : τ.returned = τ₀.returned
  inside : ∀ u q, τ.inside u = some q → τ₀.inside u = some q

theorem Within.refl (τ : State) : Within τ τ := ⟨rfl, rfl, rfl, fun _ _ h => h⟩

/-- A thread that is to run again has moved no byte. -/
theorem Within.of_unpark (τ : State) (t : ThreadRef) : Within τ (τ.unpark t) := by
  refine ⟨rfl, rfl, rfl, fun u q h => ?_⟩
  have h' : Function.update τ.inside t none u = some q := h
  by_cases heq : u = t
  · rw [heq, Function.update_self] at h'
    cases h'
  · rwa [Function.update_of_ne heq] at h'

/-- A full queue is not empty. -/
theorem not_empty_of_full {τ : State} (hs : Sound none τ) (hf : intqFull τ.q) :
    ¬ intqEmpty τ.q := by
  obtain ⟨hhead, htail⟩ := hs.inRange
  intro he
  unfold intqFull Ring.Full at hf
  unfold intqEmpty Ring.Empty at he
  rw [Ring.next_eq_wrap hhead] at hf
  unfold Ring.wrap intqBufsize at hf
  unfold intqBufsize at hhead htail
  split at hf <;> omega

end Pintos.Devices
