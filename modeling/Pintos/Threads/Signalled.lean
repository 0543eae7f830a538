import Pintos.Threads.Eligible

/-!
# Whom `cond_signal` wakes

`cond_wait` records its caller's priority in the `struct semaphore_elem`, and `cond_signal` wakes
the waiter with the largest recorded priority. What is recorded is never brought up to date. A
waiter that holds another lock may be donated to, before or after it is on the list, and one that
gives up the lock of the condition with `cond_wait` may lose what it was given for that lock;
either way the recorded priority goes stale.

In a run in which neither happens (`Kernel.KeepsWaiters`) the two agree (`Fresh`), and
`cond_signal` wakes a waiter of highest priority.
-/

namespace Pintos.Threads

open Pintos.Lib

variable {page : Option ThreadRef} {k k' : Kernel} {f : Frame} {e : Event}

/-- The thread has recorded its priority for a condition: it is among the waiters, or on its way
there, between the record and the `list_push_back` of `cond_wait`. -/
def Kernel.AwaitsSignal (k : Kernel) (t : ThreadRef) : Prop :=
  (∃ c, t ∈ k.conds c) ∨ ∃ c, .condPushBack c ∈ (k.threads t).frames

/-- The frame changes the priority of no thread that has recorded it, and nobody records a
negative priority. -/
def Frame.KeepsWaiters (k : Kernel) : Frame → Prop
  | .threadSetPriority p =>
    k.AwaitsSignal k.current → newPriority (k.threads k.current) p = k.prio k.current
  | .initThread t p => k.AwaitsSignal t → p = k.prio t
  | .lockAcquire l => ∀ t, OnChain k.holder k.waitingLock (some l) t → ¬ k.AwaitsSignal t
  | .lockRelease l =>
    k.AwaitsSignal k.current → releasePriority l (k.threads k.current) k = k.prio k.current
  | .condWait _ _ => 0 ≤ k.prio k.current
  | _ => True

/-- What is asked of a step. -/
def Kernel.KeepsWaiters (k : Kernel) (e : Event) : Prop :=
  ∀ f, e.runs k = some f → f.KeepsWaiters k

/-- What is recorded of a thread is its priority. -/
structure Fresh (k : Kernel) : Prop where
  recorded : ∀ {t}, k.AwaitsSignal t → k.elemPriority t = k.prio t
  nonneg : ∀ {t}, k.AwaitsSignal t → 0 ≤ k.elemPriority t

/-! ## Who has recorded a priority -/

/-- Only `cond_wait` goes on with the `list_push_back`. -/
theorem Follows.pushBack {fs : List Frame} {c : CondRef} (h : Follows page k f fs)
    (hm : .condPushBack c ∈ fs) : ∃ l, f = .condWait c l := by
  cases h with
  | wait =>
    simp only [List.mem_cons, Frame.condPushBack.injEq, reduceCtorEq, List.not_mem_nil, or_self,
      or_false] at hm
    exact ⟨_, congrArg (Frame.condWait · _) hm.symm⟩
  | _ => simp at hm

theorem mem_frames_of_runs (h : e.runs k = some f) : f ∈ (k.threads k.current).frames := by
  cases e with
  | run page => exact List.mem_of_head? h
  | _ => cases h

theorem pushBack_not_call {c : CondRef} (a : Call) : .condPushBack c ∉ [a.frame] := by
  cases a <;> simp [Call.frame]

/-- The threads on the way to a condition after a step: those from before, and the caller of
`cond_wait`. -/
theorem pushBack_of_step {t : ThreadRef} {c : CondRef} (hk : Coherent k)
    (hx : step e k = .ok k') (hm : .condPushBack c ∈ (k'.threads t).frames) :
    .condPushBack c ∈ (k.threads t).frames ∨
      (t = k.current ∧ ∃ l, e.runs k = some (.condWait c l)) := by
  rcases hk.step_frames hx t with hs | ⟨_, _, a, ha⟩ |
    ⟨rfl, page, f, rest, fs, rfl, hf, _, hfollow, hs⟩
  · exact .inl (hs ▸ hm)
  · rw [ha] at hm
    exact absurd hm (pushBack_not_call a)
  · rw [hs] at hm
    rcases List.mem_append.mp hm with hm | hm
    · obtain ⟨l, rfl⟩ := hfollow.pushBack hm
      exact .inr ⟨rfl, l, by simp [Event.runs, Kernel.next, hf]⟩
    · left
      rw [hf]
      exact List.mem_cons_of_mem _ hm

/-- The waiters of a condition after a frame: those from before, and the caller of the
`list_push_back`. -/
theorem mem_conds_of_keyMoves {t : ThreadRef} {c : CondRef} (hm : KeyMoves k k' f)
    (ht : t ∈ k'.conds c) : t ∈ k.conds c ∨ (t = k.current ∧ f = .condPushBack c) := by
  cases hm with
  | same _ hs =>
    rw [hs.conds] at ht
    exact .inl ht
  | set hs _ | init hs _ _ | acquire hs _ | release hs _ =>
    rw [hs.conds] at ht
    exact .inl ht
  | record _ _ hc =>
    rw [hc] at ht
    exact .inl ht
  | @join c' _ _ hc =>
    rw [hc, Function.update_apply] at ht
    split at ht
    next hcc =>
      subst hcc
      rcases List.mem_append.mp ht with ht | ht
      · exact .inl ht
      · exact .inr ⟨List.mem_singleton.mp ht, rfl⟩
    next => exact .inl ht
  | signal _ _ hc => exact .inl ((hc c).subset ht)

/-- Only the caller of `cond_wait` is new among those who have recorded a priority. -/
theorem awaits_of_step {t : ThreadRef} (hk : Coherent k) (hx : step e k = .ok k')
    (ha : k'.AwaitsSignal t) :
    k.AwaitsSignal t ∨ (t = k.current ∧ ∃ c l, e.runs k = some (.condWait c l)) := by
  rcases ha with ⟨c, hm⟩ | ⟨c, hm⟩
  · left
    rcases step_keys hx with ⟨_, hs⟩ | ⟨f, hf, hmove⟩
    · exact .inl ⟨c, hs.conds ▸ hm⟩
    · rcases mem_conds_of_keyMoves hmove hm with hm | ⟨rfl, rfl⟩
      · exact .inl ⟨c, hm⟩
      · exact .inr ⟨c, mem_frames_of_runs hf⟩
  · rcases pushBack_of_step hk hx hm with hm | ⟨ht, l, hl⟩
    · exact .inl (.inr ⟨c, hm⟩)
    · exact .inr ⟨ht, c, l, hl⟩

/-! ## What is recorded stays true -/

theorem Fresh.of_prio (h : Fresh k) (hs : SameElems k k')
    (ha : ∀ t, k'.AwaitsSignal t → k.AwaitsSignal t)
    (hp : ∀ t, k.AwaitsSignal t → k'.prio t = k.prio t) : Fresh k' := by
  constructor
  · intro t ht
    rw [hs.elemPriority, hp t (ha t ht)]
    exact h.recorded (ha t ht)
  · intro t ht
    rw [hs.elemPriority]
    exact h.nonneg (ha t ht)

/-- One thread has a new priority, which is its old one if it has recorded that. -/
theorem Fresh.of_update {t : ThreadRef} {p : Int} (h : Fresh k) (hs : SameElems k k')
    (ha : ∀ t, k'.AwaitsSignal t → k.AwaitsSignal t)
    (hp : k'.prio = Function.update k.prio t p) (ht : k.AwaitsSignal t → p = k.prio t) :
    Fresh k' := by
  refine h.of_prio hs ha fun u hu => ?_
  rw [hp, Function.update_apply]
  split
  next hut =>
    subst hut
    exact ht hu
  next => rfl

/-- Only who is on a list and in frames has changed. -/
theorem Fresh.of_same (h : Fresh k) (ha : ∀ t, k'.AwaitsSignal t → k.AwaitsSignal t)
    (hp : k'.prio = k.prio) (he : k'.elemPriority = k.elemPriority) : Fresh k' := by
  constructor
  · intro t ht
    rw [hp, he]
    exact h.recorded (ha t ht)
  · intro t ht
    rw [he]
    exact h.nonneg (ha t ht)

/-- A thread records its priority. -/
theorem Fresh.of_record (h : Fresh k) (hpos : 0 ≤ k.prio k.current)
    (ha : ∀ t, k'.AwaitsSignal t → k.AwaitsSignal t ∨ t = k.current)
    (hp : k'.prio = k.prio)
    (he : k'.elemPriority = Function.update k.elemPriority k.current (k.prio k.current)) :
    Fresh k' := by
  constructor
  · intro t ht
    rw [hp, he, Function.update_apply]
    split
    next htc => rw [htc]
    next htc => exact h.recorded ((ha t ht).resolve_right htc)
  · intro t ht
    rw [he, Function.update_apply]
    split
    next => exact hpos
    next htc => exact h.nonneg ((ha t ht).resolve_right htc)

theorem Fresh.of_keyMoves (h : Fresh k) (hf : f.KeepsWaiters k)
    (ha : ∀ t, k'.AwaitsSignal t →
      k.AwaitsSignal t ∨ (t = k.current ∧ ∃ c l, f = .condWait c l))
    (hm : KeyMoves k k' f) : Fresh k' := by
  have hold : (∀ c l, f ≠ .condWait c l) → ∀ t, k'.AwaitsSignal t → k.AwaitsSignal t := by
    intro hne t ht
    refine (ha t ht).resolve_right ?_
    rintro ⟨_, c, l, hw⟩
    exact hne c l hw
  cases hm with
  | same hop hs =>
    refine h.of_prio hs.toSameElems (hold fun c l hw => ?_) fun t _ => by rw [hs.prio]
    rw [hw] at hop
    cases hop
  | set hs hp => exact h.of_update hs (hold (by simp)) hp hf
  | init hs _ hp => exact h.of_update hs (hold (by simp)) hp hf
  | acquire hs hp =>
    refine h.of_prio hs (hold (by simp)) fun t ht => ?_
    rcases hp t with he | ⟨hc, _⟩
    · exact he
    · exact absurd ht (hf t hc)
  | release hs hp => exact h.of_update hs (hold (by simp)) hp hf
  | record hp he _ => exact h.of_record hf (fun t ht => (ha t ht).imp_right And.left) hp he
  | join hp he _ => exact h.of_same (hold (by simp)) hp he
  | signal hp he _ => exact h.of_same (hold (by simp)) hp he

theorem reach_fresh {b : Boot}
    (h : ReachWhere (Steps step) Kernel.KeepsWaiters (afterThreadStart b) k) : Fresh k := by
  have hstart : ∀ t, ¬ (afterThreadStart b).AwaitsSignal t := by
    rintro t (⟨c, hm⟩ | ⟨c, hm⟩)
    · cases hm
    · rcases frames_afterThreadStart b t with hf | ⟨_, hf⟩
      · rw [hf] at hm
        cases hm
      · rw [hf] at hm
        simp at hm
  have hboth : Coherent k ∧ Fresh k := by
    refine h.invariant (P := fun k => Coherent k ∧ Fresh k) ⟨coherent_afterThreadStart b,
      fun ht => absurd ht (hstart _), fun ht => absurd ht (hstart _)⟩
      fun k ev k' ⟨hc, hk⟩ hok hx => ⟨hc.of_step hx, ?_⟩
    have hawaits : ∀ t, k'.AwaitsSignal t →
        k.AwaitsSignal t ∨ (t = k.current ∧ ∃ c l, ev.runs k = some (.condWait c l)) :=
      fun t ht => awaits_of_step hc hx ht
    rcases step_keys hx with ⟨hnone, hs⟩ | ⟨f, hf, hm⟩
    · refine hk.of_prio hs.toSameElems (fun t ht => ?_) fun t _ => by rw [hs.prio]
      rcases hawaits t ht with ha | ⟨_, c, l, hw⟩
      · exact ha
      · rw [hnone] at hw
        cases hw
    · refine hk.of_keyMoves (hok f hf) (fun t ht => ?_) hm
      refine (hawaits t ht).imp_right fun ⟨htc, c, l, hw⟩ => ⟨htc, c, l, ?_⟩
      exact Option.some.inj (hf.symm.trans hw)
  exact hboth.2

/-! ## The thread woken -/

/-- Under the lock of a condition that has waiters, `cond_signal` takes a waiter whose priority is
the largest among the waiters, and goes on to up the semaphore only that waiter waits for. -/
def Kernel.SignalsHighest (k : Kernel) : Prop :=
  ∀ c l, k.conds c ≠ [] → lockHeldByCurrentThread l k = .ok true →
    ∃ t ∈ k.conds c, (∀ u ∈ k.conds c, k.prio u ≤ k.prio t) ∧
      condSignal c l k = .ok ({ k with
        conds := Function.update k.conds c ((k.conds c).erase t) }.pushFrames k.current
          [.semaUp (.waiter t)]) ∧
      ∀ u ∈ (k.semas (.waiter t)).waiters, u = t

/-- In every run in which no step changes the priority of a waiter of a condition, and nobody
joins a condition with a negative priority, `cond_signal` wakes a waiter of highest priority. -/
theorem cond_signal_wakes_highest (b : Boot) (k : Kernel)
    (h : ReachWhere (Steps step) Kernel.KeepsWaiters (afterThreadStart b) k) :
    k.SignalsHighest := by
  intro c l hne hheld
  have hfresh := reach_fresh h
  obtain ⟨t, hmax, hs⟩ := condSignal_ok (reach_intr h.reach) hne hheld fun t ht =>
    hfresh.nonneg (.inl ⟨c, ht⟩)
  have hcur : IsFirstMax k.prio (k.conds c) t := hmax.congr fun x hx =>
    (hfresh.recorded (.inl ⟨c, hx⟩)).symm
  exact ⟨t, hmax.mem, hcur.le, hs, (reach_coherent h.reach).framed.waiter t⟩

/-! ## Two runs -/

theorem lockHeld_of_holder {l : LockRef} (hk : Coherent k) (hn : k.scheduleTail = none)
    (hl : k.holder l = some k.current) : lockHeldByCurrentThread l k = .ok true := by
  have hcur : threadCurrent k = .ok k.current :=
    threadCurrent_eq_ok.mpr ⟨(hk.placed.cpuLive rfl).1, hk.running hn, rfl⟩
  unfold lockHeldByCurrentThread
  rw [hcur]
  exact congrArg Except.ok (beq_iff_eq.mpr hl)

/-- The running thread takes a lock and waits on a condition, and another thread runs. -/
def waitEvents (c l : Nat) : List Event :=
  [.call (.lockAcquire l), .run none, .call (.condWait c l), .run none, .run none, .run none,
    .tail, .run none, .tail]

/-- A thread of priority 32 waits with another lock in hand, then one of priority 33; a thread of
priority 40 wants the other lock; and `main` takes the lock of the condition. -/
def donatedWhileWaiting : List Event :=
  createEvents 2 32 ++ [.call (.lockAcquire 1), .run none] ++ waitEvents 0 0 ++
    createEvents 3 33 ++ waitEvents 0 0 ++ createEvents 4 40 ++
    [.call (.lockAcquire 1), .run none, .tail, .call (.lockAcquire 0), .run none]

/-- `cond_signal` wakes the thread of priority 33, not the one that has been raised to 40. -/
theorem signals_lower : ¬ ∀ (b : Boot) (k : Kernel),
    Reach (Steps step) (afterThreadStart b) k → k.SignalsHighest := by
  intro hall
  obtain ⟨k, hr, hp⟩ := exists_of_replay step (fun _ _ => true) donatedWhileWaiting
    (afterThreadStart smallBoot)
    (fun k => k.scheduleTail.isNone && k.holder (.user 0) == some k.current &&
      k.conds 0 == [2, 3] && k.prio 2 == 40 && k.prio 3 == 33 && k.elemPriority 2 == 32 &&
      k.elemPriority 3 == 33) (by decide +kernel)
  simp only [Bool.and_eq_true, beq_iff_eq, Option.isNone_iff_eq_none] at hp
  obtain ⟨⟨⟨⟨⟨⟨htail, hheld⟩, hconds⟩, hp₂⟩, hp₃⟩, he₂⟩, he₃⟩ := hp
  have hlock := lockHeld_of_holder (reach_coherent hr.reach) htail hheld
  have hne : k.conds 0 ≠ [] := by simp [hconds]
  obtain ⟨t, ht, hmax, hs, _⟩ := hall smallBoot k hr.reach 0 (.user 0) hne hlock
  rw [hconds] at ht hmax hs
  -- the waiter of highest priority is the one that has been donated to
  obtain rfl : t = 2 := by
    rcases List.mem_cons.mp ht with rfl | ht
    · rfl
    · cases List.mem_singleton.mp ht
      have := hmax 2 (by simp)
      rw [hp₂, hp₃] at this
      exact absurd this (by decide)
  -- and the one with the largest recorded priority is the other
  obtain ⟨hempty, _⟩ | ⟨top, hfirst, hk'⟩ := condSignal_eq_ok hs
  · exact hne hempty
  · rw [hconds] at hfirst hk'
    obtain rfl : top = 3 := by
      rcases List.mem_cons.mp hfirst.mem with rfl | ht
      · have := hfirst.le 3 (by simp)
        rw [he₂, he₃] at this
        exact absurd this (by decide)
      · exact List.mem_singleton.mp ht
    have hleft := congrFun (congrArg Kernel.conds hk') 0
    simp [Kernel.pushFrames, Kernel.modThread] at hleft

/-- A test that implies `Kernel.KeepsWaiters`. -/
def Kernel.keepsWaitersTest (k : Kernel) (e : Event) : Bool :=
  match e.runs k with
  | some (.threadSetPriority p) => newPriority (k.threads k.current) p == k.prio k.current
  | some (.initThread t p) => p == k.prio t
  | some (.lockAcquire l) => (k.holder l).isNone
  | some (.lockRelease l) => releasePriority l (k.threads k.current) k == k.prio k.current
  | some (.condWait _ _) => decide (0 ≤ k.prio k.current)
  | _ => true

theorem keepsWaiters_of_test {ev : Event} (h : k.keepsWaitersTest ev = true) :
    k.KeepsWaiters ev := by
  intro f hf
  unfold Kernel.keepsWaitersTest at h
  rw [hf] at h
  cases f with
  | threadSetPriority p => exact fun _ => beq_iff_eq.mp h
  | initThread t p => exact fun _ => beq_iff_eq.mp h
  | lockAcquire l =>
    have hfree : k.holder l = none := Option.isNone_iff_eq_none.mp h
    intro t hc
    cases hc with
    | here hl => rw [hfree] at hl; cases hl
    | there hl _ => rw [hfree] at hl; cases hl
  | lockRelease l => exact fun _ => beq_iff_eq.mp h
  | condWait c l =>
    have hpos : 0 ≤ k.prio k.current := of_decide_eq_true h
    exact hpos
  | _ => trivial

/-- `main` waits, and a thread of priority 0 signals it. -/
theorem signals_main : ∃ k,
    ReachWhere (Steps step) Kernel.KeepsWaiters (afterThreadStart smallBoot) k ∧ k.current = 2 ∧
      condSignal 0 (.user 0) k = .ok ({ k with
        conds := Function.update k.conds 0 [] }.pushFrames k.current [.semaUp (.waiter 0)]) := by
  obtain ⟨k, hr, hp⟩ := exists_of_replay step Kernel.keepsWaitersTest
    (createEvents 2 0 ++ waitEvents 0 0 ++ [.call (.lockAcquire 0), .run none])
    (afterThreadStart smallBoot)
    (fun k => k.scheduleTail.isNone && k.current == 2 && k.holder (.user 0) == some k.current &&
      k.conds 0 == [0]) (by decide +kernel)
  simp only [Bool.and_eq_true, beq_iff_eq, Option.isNone_iff_eq_none] at hp
  obtain ⟨⟨⟨htail, hcur⟩, hheld⟩, hconds⟩ := hp
  have hr' := hr.weaken fun _ _ h => keepsWaiters_of_test h
  have hlock := lockHeld_of_holder (reach_coherent hr'.reach) htail hheld
  obtain ⟨t, ht, _, hs, _⟩ := cond_signal_wakes_highest smallBoot k hr' 0 (.user 0)
    (by simp [hconds]) hlock
  rw [hconds] at ht hs
  cases List.mem_singleton.mp ht
  exact ⟨k, hr', hcur, by simpa using hs⟩

end Pintos.Threads
