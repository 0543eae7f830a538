import Mathlib.Logic.Relation
import Pintos.Threads.Interrupts
import Pintos.Threads.LockBooks

/-!
# The loop at the head of `lock_acquire`

The `while` loop as the source has it, one turn at a time: `donationTurn` tests the guard and runs
the body once, and `DonationEnds` says that finitely many turns lead out of the loop. The body moves
on only when the holder's priority is lower than the caller's; otherwise it does nothing, and the
next turn finds everything as it was.

So the loop ends when every holder on the chain has a lower priority than the caller
(`donation_loop_ends`), and only then: with a holder of the same or a higher priority it turns for
ever, with interrupts off.
-/

namespace Pintos.Threads

open Pintos.Lib

variable {k k' k'' : Kernel} {cur t u : ThreadRef} {lo lo' : Option LockRef} {l : LockRef}

/-! ## The loop -/

/-- The guard of the loop and, where it holds, its body: nothing when the loop is left, and else
`tempLock` and the kernel at the next test of the guard. -/
def donationTurn (cur : ThreadRef) (tempLock : Option LockRef) (k : Kernel) :
    Except Fault (Option (Option LockRef × Kernel)) :=
  match tempLock with
  | none => .ok none
  | some l =>
    match k.holder l with
    | none => .ok none
    | some h =>
      if (k.threads h).magic = false then
        .error .undefined
      else if k.prio h < k.prio cur then
        .ok (some ((k.threads h).waitingLock, k.donateTo cur l h))
      else
        .ok (some (some l, k))

/-- Finitely many turns lead from the test of the guard in `k` out of the loop in `k'`. -/
inductive DonationEnds (cur : ThreadRef) : Option LockRef → Kernel → Kernel → Prop
  | leave {lo : Option LockRef} {k : Kernel} :
      donationTurn cur lo k = .ok none → DonationEnds cur lo k k
  | turn {lo lo' : Option LockRef} {k k' k'' : Kernel} :
      donationTurn cur lo k = .ok (some (lo', k')) → DonationEnds cur lo' k' k'' →
      DonationEnds cur lo k k''

/-- A turn leaves the loop, raises the holder and goes on, or does nothing. -/
theorem donationTurn_cases {out : Option (Option LockRef × Kernel)}
    (h : donationTurn cur lo k = .ok out) :
    (out = none ∧ ∀ l, lo = some l → k.holder l = none) ∨
      ∃ l t, lo = some l ∧ k.holder l = some t ∧ k.Live t ∧
        ((k.prio t < k.prio cur ∧ out = some (k.waitingLock t, k.donateTo cur l t)) ∨
          (¬ k.prio t < k.prio cur ∧ out = some (some l, k))) := by
  unfold donationTurn at h
  split at h
  next =>
    cases h
    exact .inl ⟨rfl, fun l hl => by cases hl⟩
  next l =>
    split at h
    next hl =>
      cases h
      refine .inl ⟨rfl, fun l' hl' => ?_⟩
      cases hl'
      exact hl
    next t hl =>
      split at h
      next => cases h
      next hmagic =>
        refine .inr ⟨l, t, rfl, hl, by simpa [Kernel.Live] using hmagic, ?_⟩
        split at h
        next hlt =>
          cases h
          exact .inl ⟨hlt, rfl⟩
        next hge =>
          cases h
          exact .inr ⟨hge, rfl⟩

/-! ## The chain of holders -/

/-- A thread waits for the holder of its `waiting_lock`. -/
def Kernel.WaitsFor (k : Kernel) (t u : ThreadRef) : Prop :=
  ∃ l, k.waitingLock t = some l ∧ k.holder l = some u

/-- Nobody waits for itself, directly or through others. -/
def Kernel.AcyclicWaits (k : Kernel) : Prop := ∀ t, ¬ Relation.TransGen k.WaitsFor t t

/-- Every thread on the chain is there, and has a lower priority than `cur`. -/
def Kernel.AllLower (k : Kernel) (cur : ThreadRef) (lo : Option LockRef) : Prop :=
  ∀ t, OnChain k.holder k.waitingLock lo t → k.Live t ∧ k.prio t < k.prio cur

/-- Whoever is on the chain behind a thread, that thread waits for. -/
theorem transGen_of_onChain (h : OnChain k.holder k.waitingLock lo u) (hlo : lo = k.waitingLock t) :
    Relation.TransGen k.WaitsFor t u := by
  induction h generalizing t with
  | here hl => exact .single ⟨_, hlo.symm, hl⟩
  | there hl _ ih => exact .head ⟨_, hlo.symm, hl⟩ (ih rfl)

theorem Raised.live (h : Raised k k') : k'.Live t ↔ k.Live t := by
  unfold Kernel.Live
  rw [h.threads t]

theorem Raised.acyclicWaits (h : Raised k k') (hacyc : k.AcyclicWaits) : k'.AcyclicWaits := by
  have hsame : k'.WaitsFor = k.WaitsFor := by
    funext t u
    unfold Kernel.WaitsFor
    rw [h.holder_eq, h.waitingLock_eq]
  unfold Kernel.AcyclicWaits
  rw [hsame]
  exact hacyc

/-! ## When the loop ends -/

/-- A loop that ends has met lower priorities only. -/
theorem DonationEnds.allLower (h : DonationEnds cur lo k k') : k.AllLower cur lo := by
  induction h with
  | leave hturn =>
    intro t hc
    rcases donationTurn_cases hturn with ⟨_, hnone⟩ | ⟨l, u, _, _, _, ⟨_, hout⟩ | ⟨_, hout⟩⟩
    · cases hc with
      | here hl =>
        rw [hnone _ rfl] at hl
        cases hl
      | there hl _ =>
        rw [hnone _ rfl] at hl
        cases hl
    · cases hout
    · cases hout
  | @turn lo lo' k k' k'' hturn _ ih =>
    rcases donationTurn_cases hturn with ⟨hout, _⟩ | ⟨l, t, rfl, hl, hlive, ⟨hlt, hout⟩ | ⟨_, hout⟩⟩
    · cases hout
    · cases hout
      -- the rest of the chain, seen after the holder has been raised
      have hrest : ∀ u, OnChain k.holder k.waitingLock (k.waitingLock t) u →
          k.Live u ∧ k.prio u < k.prio cur := by
        intro u hu
        have hr := raised_donateTo k cur l t
        obtain ⟨hlive', hlow⟩ := ih u (by rw [hr.holder_eq, hr.waitingLock_eq]; exact hu)
        refine ⟨hr.live.mp hlive', ?_⟩
        have hcur : cur ≠ t := by
          rintro rfl
          exact lt_irrefl _ hlt
        rw [donateTo_prio, donateTo_prio, if_neg hcur] at hlow
        split at hlow
        next => exact absurd hlow (lt_irrefl _)
        next => exact hlow
      intro u hu
      cases hu with
      | here hl' =>
        rw [hl] at hl'
        cases hl'
        exact ⟨hlive, hlt⟩
      | there hl' hu =>
        rw [hl] at hl'
        cases hl'
        exact hrest u hu
    · cases hout
      exact ih

/-- With lower priorities only, and no cycle, each turn raises another thread, of which there are
finitely many. -/
theorem Kernel.AllLower.ends {ts : List ThreadRef} : ∀ (n : Nat) {lo : Option LockRef} {k : Kernel},
    k.AllLower cur lo → k.AcyclicWaits → (∀ t, k.Live t → t ∈ ts) → k.lower cur ts ≤ n →
    ∃ k', DonationEnds cur lo k k'
  | _, none, k, _, _, _, _ => ⟨k, .leave rfl⟩
  | n, some l, k, hall, hacyc, hts, hn => by
    cases hl : k.holder l with
    | none =>
      refine ⟨k, .leave ?_⟩
      simp only [donationTurn, hl]
    | some t =>
      obtain ⟨hlive, hlt⟩ := hall t (.here hl)
      have hr := raised_donateTo k cur l t
      have hcur : cur ≠ t := by
        rintro rfl
        exact lt_irrefl _ hlt
      have hturn : donationTurn cur (some l) k =
          .ok (some (k.waitingLock t, k.donateTo cur l t)) := by
        have hmagic : (k.threads t).magic = true := hlive
        simp only [donationTurn, hl, hmagic, Bool.true_eq_false, if_false, if_pos hlt]
        rfl
      have hless := lower_donateTo (l := l) (hts t hlive) hlt
      obtain ⟨n, rfl⟩ : ∃ n', n = n' + 1 := ⟨n - 1, by omega⟩
      have hall' : (k.donateTo cur l t).AllLower cur (k.waitingLock t) := by
        intro u hu
        rw [hr.holder_eq, hr.waitingLock_eq] at hu
        obtain ⟨hlive', hlow⟩ := hall u (.there hl hu)
        refine ⟨hr.live.mpr hlive', ?_⟩
        -- the thread just raised is not met again
        have hne : u ≠ t := by
          rintro rfl
          exact hacyc u (transGen_of_onChain hu rfl)
        rw [donateTo_prio, donateTo_prio, if_neg hne, if_neg hcur]
        exact hlow
      obtain ⟨k', hk'⟩ := Kernel.AllLower.ends n hall' (hr.acyclicWaits hacyc)
        (fun u hu => hts u (hr.live.mp hu)) (by omega)
      exact ⟨k', .turn hturn hk'⟩

/-! ## The loop in `lock_acquire` -/

/-- More fuel does not change where a walk ends. -/
theorem donate_mono (m : Nat) : ∀ (n : Nat) {lo : Option LockRef} {k k' : Kernel},
    donate cur n lo k = .ok k' → donate cur (n + m) lo k = .ok k'
  | n, none, k, k', h => by
    unfold donate at h ⊢
    exact h
  | 0, some l, k, k', h => by cases h
  | n + 1, some l, k, k', h => by
    rw [Nat.add_right_comm]
    rw [donate_succ] at h ⊢
    split at h
    next => exact h
    next t _ =>
      split at h
      next => cases h
      next hmagic =>
        rw [if_neg hmagic]
        split at h
        next hlt =>
          rw [if_pos hlt]
          exact donate_mono m n h
        next => cases h

/-- The walk of `lock_acquire` is the loop. -/
theorem DonationEnds.donate (h : DonationEnds cur lo k k') :
    ∃ n, donate cur n lo k = .ok k' := by
  induction h with
  | @leave lo k hturn =>
    refine ⟨1, ?_⟩
    rcases donationTurn_cases hturn with ⟨_, hnone⟩ | ⟨l, t, _, _, _, ⟨_, hout⟩ | ⟨_, hout⟩⟩
    · cases lo with
      | none => rfl
      | some l => rw [donate_succ, hnone l rfl]
    · cases hout
    · cases hout
  | @turn _ _ k _ _ hturn _ ih =>
    obtain ⟨n, hn⟩ := ih
    rcases donationTurn_cases hturn with ⟨hout, _⟩ | ⟨l, t, rfl, hl, hlive, ⟨hlt, hout⟩ | ⟨_, hout⟩⟩
    · cases hout
    · cases hout
      refine ⟨n + 1, ?_⟩
      have hmagic : ¬ (k.threads t).magic = false := by
        rw [show (k.threads t).magic = true from hlive]
        simp
      rw [donate_succ, hl]
      dsimp only
      rw [if_neg hmagic, if_pos hlt, (raised_donateTo _ cur l t).threads t]
      exact hn
    · cases hout
      exact ⟨n, hn⟩

theorem reach_intr {b : Boot} (h : Reach (Steps step) (afterThreadStart b) k) :
    k.inExternalIntr = false :=
  h.invariant (P := fun k => k.inExternalIntr = false) rfl fun _ _ _ hk hx => (step_intr hx).trans hk

/-- The loop ends, and control gets to `sema_down_internal`. -/
def Kernel.LeavesLoop (k : Kernel) (l : LockRef) : Prop :=
  ∃ k', DonationEnds k.current (some l) k k' ∧
    lockAcquire l k = semaDownInternal (.lock l) (some l) k'

/-- Once the loop has ended, `lock_acquire` is `sema_down_internal`. -/
theorem lockAcquire_of_ends {b : Boot} (h : Reach (Steps step) (afterThreadStart b) k)
    (hn : k.scheduleTail = none) (hnot : k.holder l ≠ some k.current)
    (hends : DonationEnds k.current (some l) k k') :
    lockAcquire l k = semaDownInternal (.lock l) (some l) k' := by
  have hk := reach_coherent h
  have hcur : threadCurrent k = .ok k.current :=
    threadCurrent_eq_ok.mpr ⟨(hk.placed.cpuLive rfl).1, hk.running hn, rfl⟩
  obtain ⟨n, hd⟩ := hends.donate
  have hwalk : donate k.current (k.allList.length + 2) (some l) k = .ok k' := by
    rw [← donate_fuel (reach_listed h) hn l (Nat.le_add_left _ n)]
    exact donate_mono _ n hd
  have hheld : lockHeldByCurrentThread l k = .ok false := by
    unfold lockHeldByCurrentThread
    rw [hcur]
    exact congrArg Except.ok (beq_eq_false_iff_ne.mpr hnot)
  have hintr : assert .notIntrContext (k.inExternalIntr = false) = .ok () :=
    assert_eq_ok.mpr (reach_intr h)
  unfold lockAcquire
  rw [hheld, hcur, hintr]
  simp only [bind_ok, hwalk]
  rfl

/-- The loop at the head of `lock_acquire` ends, and control gets to `sema_down_internal`, exactly
when every thread on the chain of holders in front of the caller has a lower priority. -/
theorem donation_loop_ends (b : Boot) (k : Kernel) (l : LockRef)
    (h : Reach (Steps step) (afterThreadStart b) k) (hn : k.scheduleTail = none)
    (hacyc : k.AcyclicWaits) (hnot : k.holder l ≠ some k.current) :
    k.LeavesLoop l ↔ k.AllLower k.current (some l) := by
  constructor
  · rintro ⟨_, hends, _⟩
    exact hends.allLower
  · intro hall
    have hts : ∀ t, k.Live t → t ∈ k.initialThread :: k.allList := by
      intro t ht
      rcases reach_listed h t ht with hm | hi | ⟨hs, _⟩
      · exact List.mem_cons_of_mem _ hm
      · exact hi ▸ List.mem_cons_self
      · rw [hn] at hs
        cases hs
    obtain ⟨k', hends⟩ := hall.ends _ hacyc hts (le_refl _)
    exact ⟨k', hends, lockAcquire_of_ends h hn hnot hends⟩

/-! ## Two runs -/

/-- A test that implies that nobody waits for a lock. -/
def Kernel.noWaitTest (k : Kernel) : Bool :=
  (k.initialThread :: k.allList).all fun t => ((k.next t).bind Frame.awaits).isNone

/-- In a run that keeps the books, waiting shows on the stacks of the threads on `all_list`. -/
theorem acyclicWaits_of_test {b : Boot}
    (hr : ReachWhere (Steps step) Kernel.Booked (afterThreadStart b) k) (hn : k.scheduleTail = none)
    (h : k.noWaitTest = true) : k.AcyclicWaits := by
  have hnone : ∀ t, k.waitingLock t = none := by
    intro t
    rw [(reach_tidy hr).books.stacked.waiting]
    by_cases hlive : k.Live t
    · have hmem : t ∈ k.initialThread :: k.allList := by
        rcases reach_listed hr.reach t hlive with hm | hi | ⟨hs, _⟩
        · exact List.mem_cons_of_mem _ hm
        · exact hi ▸ List.mem_cons_self
        · rw [hn] at hs
          cases hs
      exact Option.isNone_iff_eq_none.mp (List.all_eq_true.mp h t hmem)
    · have hdead := (reach_coherent hr.reach).framed.dead t (by simpa [Kernel.Live] using hlive)
      rw [Kernel.next, hdead]
      rfl
  intro t ht
  obtain ⟨u, ⟨l, hl, _⟩, _⟩ := Relation.TransGen.head'_iff.mp ht
  rw [hnone] at hl
  cases hl

/-- `main` holds a lock and creates a thread, which runs at once and calls `lock_acquire`. -/
def secondAcquires (priority : Int) : List Event :=
  [.call (.lockAcquire 0), .run none] ++ createEvents 2 priority ++
    [.call (.lockAcquire 0)]

/-- What is known when `secondAcquires` is over. -/
structure SecondAcquires (k : Kernel) (priority : Int) : Prop where
  switched : k.scheduleTail = none
  acyclic : k.AcyclicWaits
  current : k.current = 2
  holder : k.holder (.user 0) = some 0
  live : k.Live 0
  waiting : k.waitingLock 0 = none
  prio : k.prio 0 = 31 ∧ k.prio 2 = priority

theorem secondAcquires_of_replay (priority : Int)
    (h : (replay donatingStep Donating.bookedTest (secondAcquires priority)
      (.start smallBoot)).map (fun s => s.kernel.scheduleTail.isNone && s.kernel.noWaitTest &&
        s.kernel.current == 2 && s.kernel.holder (.user 0) == some 0 && (s.kernel.threads 0).magic &&
        (s.kernel.waitingLock 0).isNone && s.kernel.prio 0 == 31 && s.kernel.prio 2 == priority) =
        some true) :
    ∃ k, Reach (Steps step) (afterThreadStart smallBoot) k ∧ SecondAcquires k priority := by
  obtain ⟨s, hr, hp⟩ := exists_of_replay donatingStep Donating.bookedTest (secondAcquires priority)
    (.start smallBoot) _ h
  simp only [Bool.and_eq_true, beq_iff_eq, Option.isNone_iff_eq_none] at hp
  obtain ⟨⟨⟨⟨⟨⟨⟨htail, htest⟩, hcur⟩, hholder⟩, hlive⟩, hwaits⟩, hmain⟩, hprio⟩ := hp
  have hr' := Donating.booked_of_tests hr
  exact ⟨s.kernel, hr'.reach, htail, acyclicWaits_of_test hr' htail htest, hcur, hholder, hlive,
    hwaits, hmain, hprio⟩

/-- A thread of priority 31 acquires a lock that `main`, of priority 31, holds: the loop does not
end. -/
theorem donation_loop_hangs : ¬ ∀ (b : Boot) (k : Kernel) (l : LockRef),
    Reach (Steps step) (afterThreadStart b) k → k.scheduleTail = none → k.AcyclicWaits →
    k.holder l ≠ some k.current → k.LeavesLoop l := by
  intro hall
  obtain ⟨k, hr, hk⟩ := secondAcquires_of_replay 31 (by decide +kernel)
  have hnot : k.holder (.user 0) ≠ some k.current := by
    rw [hk.holder, hk.current]
    decide
  obtain ⟨_, hends, _⟩ := hall smallBoot k (.user 0) hr hk.switched hk.acyclic hnot
  have hlow := (hends.allLower 0 (.here hk.holder)).2
  rw [hk.current, hk.prio.1, hk.prio.2] at hlow
  exact lt_irrefl _ hlow

/-- One of priority 33 raises `main` and gets to `sema_down_internal`. -/
theorem donation_loop_ends_above : ∃ k, Reach (Steps step) (afterThreadStart smallBoot) k ∧
    k.holder (.user 0) = some 0 ∧ k.prio 0 < k.prio k.current ∧ k.LeavesLoop (.user 0) := by
  obtain ⟨k, hr, hk⟩ := secondAcquires_of_replay 33 (by decide +kernel)
  have hlow : k.prio 0 < k.prio k.current := by
    rw [hk.current, hk.prio.1, hk.prio.2]
    decide
  have hnot : k.holder (.user 0) ≠ some k.current := by
    rw [hk.holder, hk.current]
    decide
  refine ⟨k, hr, hk.holder, hlow,
    (donation_loop_ends smallBoot k (.user 0) hr hk.switched hk.acyclic hnot).mpr ?_⟩
  intro t hc
  cases hc with
  | here hl =>
    rw [hk.holder] at hl
    cases hl
    exact ⟨hk.live, hlow⟩
  | there hl hc =>
    rw [hk.holder] at hl
    cases hl
    rw [hk.waiting] at hc
    cases hc

end Pintos.Threads
