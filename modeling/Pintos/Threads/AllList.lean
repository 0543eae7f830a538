import Pintos.Threads.QueueMembership

/-!
# `all_list`

Every thread is on `all_list` from `init_thread` to `thread_exit`. A live thread that is not on
it is dying: it is the thread just switched from, or the initial thread, whose page is never
freed. So the threads `lock_acquire` can meet on its walk are counted by `all_list`, and the fuel
the walk is given is enough: with more of it the outcome is the same (`donate_fuel`).
-/

namespace Pintos.Threads

open Pintos.Lib

variable {page : Option ThreadRef} {k k' : Kernel} {f : Frame}

/-- Live threads are on `all_list`, but for the dying ones. -/
def Kernel.Listed (k : Kernel) : Prop :=
  ∀ t, k.Live t → t ∈ k.allList ∨ t = k.initialThread ∨
    (k.scheduleTail = some (some t) ∧ (k.threads t).status = .dying)

/-! ## Who joins and who leaves -/

/-- Waiting takes nobody off the list of all threads. -/
theorem allList_semaDownLoop {s : SemaRef} {m : Option LockRef}
    (h : semaDownLoop s m k = .ok k') : k'.allList = k.allList := by
  obtain ⟨_, h⟩ | ⟨_, rfl⟩ := semaDownLoop_eq_ok h
  · rw [(threadBlock_same h).allList]
    cases m <;> rfl
  · cases m <;> rfl

/-- Waking takes nobody off the list of all threads. -/
theorem allList_semaUpInternal {s : SemaRef} {m : Option LockRef}
    (h : semaUpInternal s m k = .ok k') : k'.allList = k.allList := by
  obtain ⟨k₁, hw, hy⟩ := semaUpInternal_eq_ok h
  rw [(threadYield_same hy).allList]
  obtain ⟨_, rfl⟩ | ⟨top, k₂, _, hu, rfl⟩ := semaWake_eq_ok hw
  · rfl
  · have hsame := (threadUnblock_same hu).allList
    cases m <;> exact hsame

/-- The frames that change `all_list`. -/
def Frame.lists : Frame → Bool
  | .initThread _ _ | .threadExit => true
  | _ => false

/-- Only creation and exit change it. -/
theorem exec_allList (hx : exec page k f = .ok k') (hf : f.lists = false) :
    k'.allList = k.allList := by
  cases f with
  | initThread t p => cases hf
  | threadExit => cases hf
  | threadYield => exact (threadYield_same hx).allList
  | threadYieldForSeconds e => exact (threadBlock_same (threadYieldForSeconds_eq_ok hx).2).allList
  | timerSleep n => cases hx; rfl
  | threadSetPriority p => exact (threadYield_same (threadSetPriority_eq_ok hx)).allList
  | threadCreate p => cases hx; rfl
  | bitmapScanAndFlip p => obtain ⟨t, _, rfl⟩ | rfl := bitmapScanAndFlip_eq_ok hx <;> rfl
  | allocateTid t => cases hx; rfl
  | threadUnblock t tid => exact (threadUnblock_same hx).allList
  | semaInit s v =>
    obtain ⟨_, rfl⟩ := execSemaInit_eq_ok hx
    rfl
  | semaDown s => exact allList_semaDownLoop (semaDownInternal_eq_ok hx)
  | semaDownLoop s m =>
    have h := allList_semaDownLoop hx
    cases m <;> exact h
  | semaTryDown s =>
    cases hx
    unfold semaTryDown
    split <;> rfl
  | semaUp s => exact allList_semaUpInternal hx
  | lockInit l =>
    obtain ⟨_, rfl⟩ := execLockInit_eq_ok hx
    rfl
  | lockAcquire l =>
    obtain ⟨_, k₁, hd, hx⟩ := lockAcquire_eq_ok hx
    rw [allList_semaDownLoop hx, (donate_raised _ hd).rest]
  | lockTryAcquire l => obtain ⟨_, ⟨_, rfl⟩ | ⟨_, rfl⟩⟩ := lockTryAcquire_eq_ok hx <;> rfl
  | lockTryAcquired l =>
    rw [lockTryAcquired_eq_ok hx]
    rfl
  | lockRelease l =>
    obtain ⟨_, hx⟩ := lockRelease_eq_ok hx
    exact (allList_semaUpInternal hx).trans rfl
  | condInit c => cases execCondInit_eq_ok hx; rfl
  | condWait c l =>
    obtain ⟨_, rfl⟩ := condWait_eq_ok hx
    rfl
  | condPushBack c => cases hx; rfl
  | condSignal c l => obtain ⟨_, rfl⟩ | ⟨top, _, rfl⟩ := condSignal_eq_ok hx <;> rfl
  | condBroadcast c l =>
    cases hx
    unfold condBroadcast
    split <;> rfl
  | idleBlock => exact (threadBlock_same hx).allList
  | idleHalt => cases hx; rfl

/-- Nothing in a switch revives a dying thread. -/
theorem dying_wakeSleepers {t : ThreadRef} : ∀ (ts : List ThreadRef) {k k' : Kernel},
    wakeSleepers ts k = .ok k' → (k.threads t).status = .dying →
      (k'.threads t).status = .dying
  | [], k, k', h, hd => by
    cases h
    exact hd
  | u :: rest, k, k', h, hd => by
    obtain ⟨_, ⟨_, h⟩ | ⟨_, k₁, h₁, h₂⟩⟩ := wakeSleepers_cons h
    · exact dying_wakeSleepers rest h hd
    · refine dying_wakeSleepers rest h₂ ?_
      obtain ⟨_, hb, rfl⟩ := threadUnblock_eq_ok h₁
      have hne : t ≠ u := by
        rintro rfl
        simp [Kernel.offSleep, Kernel.modThread, hd] at hb
      simp [Kernel.setStatus, Kernel.modThread, Kernel.pushReady, Kernel.offSleep, hne, hd]

/-- A thread that dies is dying until its page is freed. -/
theorem dying_schedule {t : ThreadRef} (h : schedule k = .ok k')
    (hd : (k.threads t).status = .dying) : (k'.threads t).status = .dying := by
  obtain ⟨k₁, k₂, next, hwake, hnext, _, _, rfl⟩ := schedule_eq_ok h
  have h₁ := dying_wakeSleepers k.sleepList hwake hd
  obtain ⟨_, _, rfl⟩ | ⟨_, rfl⟩ := nextThreadToRun_eq_ok hnext <;> exact h₁

/-! ## Along a run -/

/-- A frame of the running thread keeps the list. -/
theorem Kernel.Listed.of_run {rest : List Frame} (h : k.Listed) (hk : Coherent k)
    (hn : k.scheduleTail = none) (hf : (k.threads k.current).frames = f :: rest)
    (hx : exec page (k.setFrames k.current rest) f = .ok k') : k'.Listed := by
  have hk' := hk.of_run hn hf hx
  have hvital := exec_vital hx (hk.runs hf).fits
  intro t ht
  have hborn := (hvital.magic t).mp ht
  rw [(setFrames_placed k k.current rest t).1] at hborn
  -- before the frame no switch is under way
  have hold : k.Live t → t ∈ k.allList ∨ t = k.initialThread := by
    intro hl
    rcases h t hl with hm | hi | ⟨hs, _⟩
    · exact .inl hm
    · exact .inr hi
    · rw [hn] at hs
      cases hs
  cases hl : f.lists with
  | false =>
    have hall := exec_allList hx hl
    rcases hborn with hborn | ⟨p, rfl⟩
    · rw [hall, hvital.initialThread]
      exact (hold hborn).elim .inl fun hi => .inr (.inl hi)
    · cases hl
  | true =>
    cases f with
    | initThread u p =>
      obtain ⟨k₁, h₁, hx⟩ := bind_eq_ok.mp hx
      obtain ⟨_, rfl⟩ := initThread_eq_ok h₁
      cases hx
      rcases hborn with hborn | ⟨q, hq⟩
      · rcases hold hborn with hm | hi
        · exact .inl (List.mem_append_left _ hm)
        · exact .inr (.inl hi)
      · cases hq
        exact .inl (List.mem_append_right _ (List.mem_singleton.mpr rfl))
    | threadExit =>
      have hall := (schedule_same (threadExit_eq_ok hx)).allList
      have hinit : k'.initialThread = k.initialThread := hvital.initialThread
      rcases hborn with hborn | ⟨p, hp⟩
      · rcases hold hborn with hm | hi
        · by_cases hc : t = k.current
          · -- the caller is dying; unless it is the initial thread, the switch is from it
            by_cases hi : t = k'.initialThread
            · exact .inr (.inl hi)
            · have hd : (k'.threads t).status = .dying := by
                refine dying_schedule (threadExit_eq_ok hx) ?_
                subst hc
                simp [Kernel.setStatus, Kernel.modThread, Kernel.setFrames]
              exact .inr (.inr ⟨hk'.dying ht hd hi, hd⟩)
          · left
            rw [hall]
            exact (List.mem_erase_of_ne hc).mpr hm
        · exact .inr (.inl (hi.trans hinit.symm))
      · cases hp
    | _ => cases hl

/-- The tail of a switch keeps the list of all threads. -/
theorem Kernel.Listed.of_tail {prev : Option ThreadRef} (h : k.Listed) (hk : Coherent k)
    (hp : k.scheduleTail = some prev)
    (hx : threadScheduleTail prev { k with scheduleTail := none } = .ok k') : k'.Listed := by
  have hkeep := (same_setStatus k k.current .running).thread
  have hstatus : ∀ t, prev = some t → ((k.setStatus k.current .running).threads t).status =
      (k.threads t).status := by
    intro t ht
    have hne : t ≠ k.current := fun he => (hk.switching hp).2.1 (he ▸ ht)
    rw [Kernel.setStatus, Kernel.modThread_ne _ _ hne]
  obtain ⟨rfl, hfree⟩ | ⟨p, rfl, _, _, _, _, hk'⟩ := threadScheduleTail_eq_ok hx
  · intro t ht
    rcases h t ((hkeep t).magic.symm.trans ht) with hm | hi | ⟨hs, hd⟩
    · exact .inl hm
    · exact .inr (.inl hi)
    · rw [hp] at hs
      cases hs
      exact .inr (.inl (hfree t rfl ((hstatus t rfl).trans hd)))
  · intro t ht
    have hne : t ≠ p := by
      rintro rfl
      rw [Kernel.Live, hk', Kernel.modThread_self] at ht
      cases ht
    have hl : k.Live t := by
      rw [Kernel.Live, hk', Kernel.modThread_ne _ _ hne] at ht
      exact (hkeep t).magic.symm.trans ht
    have hall : k'.allList = k.allList := by rw [hk']; rfl
    have hinit : k'.initialThread = k.initialThread := by rw [hk']; rfl
    rw [hall, hinit]
    rcases h t hl with hm | hi | ⟨hs, _⟩
    · exact .inl hm
    · exact .inr (.inl hi)
    · rw [hp] at hs
      cases hs
      exact absurd rfl hne

/-- Every step keeps the list of all threads. -/
theorem Kernel.Listed.of_step {e : Event} (h : k.Listed) (hk : Coherent k)
    (hx : step e k = .ok k') : k'.Listed := by
  obtain ⟨prev, _, hp, hx⟩ | ⟨c, _, hn, _, rfl⟩ | ⟨page, f, rest, _, hn, hf, hx⟩ |
    ⟨_, hn, hx, _⟩ := step_eq_ok hx
  · exact h.of_tail hk hp hx
  · intro t ht
    rw [Kernel.Live, (setFrames_placed k k.current _ t).1] at ht
    rcases h t ht with hm | hi | ⟨hs, _⟩
    · exact .inl hm
    · exact .inr (.inl hi)
    · rw [hn] at hs
      cases hs
  · exact h.of_run hk hn hf hx
  · have key : (∀ t, k'.Live t → k.Live t) ∧ k'.allList = k.allList ∧
        k'.initialThread = k.initialThread := by
      rcases timerInterrupt_eq_ok hx with rfl | hy
      · exact ⟨fun _ hl => hl, rfl, rfl⟩
      · have hs := threadYield_same hy
        exact ⟨fun t hl => (hs.thread t).magic.symm.trans hl, hs.allList, hs.initialThread⟩
    intro t ht
    rw [key.2.1, key.2.2]
    rcases h t (key.1 t ht) with hm | hi | ⟨hs, _⟩
    · exact .inl hm
    · exact .inr (.inl hi)
    · rw [hn] at hs
      cases hs

/-- In every reachable state the list has the threads there are. -/
theorem reach_listed {b : Boot} (h : Reach (Steps step) (afterThreadStart b) k) : k.Listed := by
  refine ReachWhere.invariant_with (P := Kernel.Listed) ?_ (fun k' hk' => reach_coherent hk')
    (fun _ _ _ hk hs _ hx => hs.of_step hk hx) h
  intro t ht
  simp only [Kernel.Live, afterThreadStart] at ht ⊢
  by_cases hm : t = b.main
  · simp [hm]
  · by_cases hi : t = b.idle
    · simp [hi]
    · simp [hm, hi, noThread] at ht

/-! ## The walk of `lock_acquire` -/

/-- The threads of `ts` that the donor can still raise. -/
def Kernel.lower (k : Kernel) (cur : ThreadRef) (ts : List ThreadRef) : Nat :=
  ts.countP fun t => k.prio t < k.prio cur

/-- Each turn of the walk leaves one thread fewer to raise. -/
theorem lower_donateTo {cur t : ThreadRef} {l : LockRef} {ts : List ThreadRef} (ht : t ∈ ts)
    (hlt : k.prio t < k.prio cur) : (k.donateTo cur l t).lower cur ts < k.lower cur ts := by
  have hprio : ∀ u, (k.donateTo cur l t).prio u = if u = t then k.prio cur else k.prio u := by
    intro u
    unfold Kernel.prio Kernel.donateTo Kernel.setPriority
    rw [Kernel.modThread_threads]
    split <;> rfl
  have hne : cur ≠ t := by
    rintro rfl
    exact lt_irrefl _ hlt
  have hmono : ∀ us : List ThreadRef, (k.donateTo cur l t).lower cur us ≤ k.lower cur us := by
    intro us
    refine List.countP_mono_left fun u _ hu => ?_
    simp only [hprio, decide_eq_true_eq, if_neg hne] at hu ⊢
    split at hu
    next => exact absurd hu (lt_irrefl _)
    next => exact hu
  obtain ⟨us, vs, rfl⟩ := List.append_of_mem ht
  have hus := hmono us
  have hvs := hmono vs
  unfold Kernel.lower at hus hvs ⊢
  rw [List.countP_append, List.countP_append, List.countP_cons_of_neg, List.countP_cons_of_pos]
  · omega
  · simpa using hlt
  · simp [hprio]

/-- One turn of the walk. -/
theorem donate_succ (cur : ThreadRef) (n : Nat) (l : LockRef) (k : Kernel) :
    donate cur (n + 1) (some l) k = match k.holder l with
      | none => .ok k
      | some t =>
        if (k.threads t).magic = false then .error .undefined
        else if k.prio t < k.prio cur then
          donate cur n ((k.donateTo cur l t).threads t).waitingLock (k.donateTo cur l t)
        else .error .hang := rfl

/-- Once the fuel exceeds the number of threads that can still be raised, more of it makes no
difference. -/
theorem donate_more {cur : ThreadRef} {ts : List ThreadRef} : ∀ (n m : Nat) {lo : Option LockRef}
    {k : Kernel}, (∀ t, k.Live t → t ∈ ts) → k.lower cur ts ≤ n → k.lower cur ts ≤ m →
    donate cur (n + 1) lo k = donate cur (m + 1) lo k
  | n, m, none, k, _, _, _ => by
    unfold donate
    rfl
  | n, m, some l, k, hts, hn, hm => by
    rw [donate_succ, donate_succ]
    cases hl : k.holder l with
    | none => rfl
    | some t =>
      dsimp only
      split
      next => rfl
      next hmagic =>
        split
        next hlt =>
          have ht : t ∈ ts := hts t (by simpa [Kernel.Live] using hmagic)
          have hless := lower_donateTo (l := l) ht hlt
          obtain ⟨n, rfl⟩ : ∃ n', n = n' + 1 := ⟨n - 1, by omega⟩
          obtain ⟨m, rfl⟩ : ∃ m', m = m' + 1 := ⟨m - 1, by omega⟩
          refine donate_more n m (fun u hu => hts u ?_) (by omega) (by omega)
          have hr := (raised_donateTo k cur l t).threads u
          rw [Kernel.Live, hr] at hu
          exact hu
        next => rfl

/-- The fuel `lock_acquire` gives its walk is enough: with more, the outcome is the same. -/
theorem donate_fuel (h : k.Listed) (hn : k.scheduleTail = none) (l : LockRef) {fuel : Nat}
    (hfuel : k.allList.length + 2 ≤ fuel) :
    donate k.current fuel (some l) k = donate k.current (k.allList.length + 2) (some l) k := by
  have hts : ∀ t, k.Live t → t ∈ k.initialThread :: k.allList := by
    intro t ht
    rcases h t ht with hm | hi | ⟨hs, _⟩
    · exact List.mem_cons_of_mem _ hm
    · rw [hi]
      exact List.mem_cons_self
    · rw [hn] at hs
      cases hs
  have hlower : k.lower k.current (k.initialThread :: k.allList) ≤ k.allList.length + 1 := by
    unfold Kernel.lower
    exact List.countP_le_length
  obtain ⟨m, rfl⟩ := Nat.exists_eq_add_of_le hfuel
  have hm : k.allList.length + 2 + m = (k.allList.length + 1 + m) + 1 := by omega
  rw [hm]
  exact donate_more _ _ hts (by omega) hlower

end Pintos.Threads
