import Mathlib.Data.List.Nodup
import Pintos.Threads.StrictPriority

/-!
# Sleeping threads

`timer_sleep` puts its caller on `sleep_list` with the tick to wake it at, and the loop at the
head of `schedule` moves the sleepers that are due to `ready_list`. The loop removes elements of
the list it runs through; `wakeSleepers_moves` says what it leaves: the sleepers that are due are
at the back of `ready_list` and the others still on `sleep_list`, both in the order they had.

Every event either leaves the sleepers alone or ends in one `schedule`, entered with the same
sleepers and, when the caller goes to sleep, the caller behind them: that is `Passes`. The results
about runs read it off.
-/

namespace Pintos.Threads

open Pintos.Lib

variable {page : Option ThreadRef} {k k₁ k' : Kernel} {f : Frame} {new : ThreadRef → Prop}

/-! ## The wake-up loop -/

/-- The panic of `ASSERT (t->endTick >= 0)`. -/
abbrev sleepPanic : Fault := .panic .endTickNonneg

/-- `t->endTick <= timer_ticks ()`. -/
def Kernel.due (k : Kernel) (t : ThreadRef) : Bool := (k.threads t).endTick ≤ k.ticks

/-- Waking a sleeper is visible to nobody else. -/
theorem endTick_of_woken {t u : ThreadRef} (hu : threadUnblock t (k.offSleep t) = .ok k')
    (hne : u ≠ t) : (k'.threads u).endTick = (k.threads u).endTick := by
  obtain ⟨_, _, rfl⟩ := threadUnblock_eq_ok hu
  simp [Kernel.setStatus, Kernel.offSleep, Kernel.pushReady, Kernel.modThread, hne]

/-- A sleeper that is woken goes from the one list to the other. -/
theorem woken_lists {t : ThreadRef} (hu : threadUnblock t (k.offSleep t) = .ok k') :
    k'.readyList = k.readyList ++ [t] ∧ k'.sleepList = k.sleepList.erase t ∧
      k'.ticks = k.ticks := by
  obtain ⟨_, _, rfl⟩ := threadUnblock_eq_ok hu
  exact ⟨rfl, rfl, rfl⟩

/-- The loop moves the sleepers it visits that are due, in order, and no others. -/
theorem wakeSleepers_moves : ∀ (ts : List ThreadRef) {k k' : Kernel}, ts.Nodup →
    k.sleepList.Nodup → wakeSleepers ts k = .ok k' →
    k'.readyList = k.readyList ++ ts.filter k.due ∧
      k'.sleepList = k.sleepList.filter (fun t => !(decide (t ∈ ts) && k.due t)) ∧
      (∀ t ∈ k'.sleepList, (k'.threads t).endTick = (k.threads t).endTick) ∧
      k'.ticks = k.ticks
  | [], k, k', _, _, hw => by
    cases hw
    simp
  | t :: rest, k, k', hts, hnd, hw => by
    obtain ⟨ht, hrest⟩ := List.nodup_cons.mp hts
    obtain ⟨_, ⟨hlt, hw⟩ | ⟨hle, k₁, h₁, hw⟩⟩ := wakeSleepers_cons hw
    · obtain ⟨hready, hsleep, hend, hticks⟩ := wakeSleepers_moves rest hrest hnd hw
      have hdue : k.due t = false := by
        simpa [Kernel.due] using hlt
      refine ⟨by rw [hready]; simp [hdue], ?_, hend, hticks⟩
      rw [hsleep]
      apply List.filter_congr
      intro u _
      by_cases hu : u = t
      · simp [hu, hdue]
      · simp [hu]
    · obtain ⟨hready₁, hsleep₁, hticks₁⟩ := woken_lists h₁
      have hnd₁ : k₁.sleepList.Nodup := hsleep₁ ▸ hnd.erase t
      obtain ⟨hready, hsleep, hend, hticks⟩ := wakeSleepers_moves rest hrest hnd₁ hw
      have hdue : k.due t = true := by
        simpa [Kernel.due] using hle
      -- the sleepers that are left are as they were
      have hsame : ∀ u, u ≠ t → k₁.due u = k.due u := by
        intro u hne
        simp [Kernel.due, hticks₁, endTick_of_woken h₁ hne]
      refine ⟨?_, ?_, ?_, hticks.trans hticks₁⟩
      · have hfilter : rest.filter k₁.due = rest.filter k.due :=
          List.filter_congr fun u hu => hsame u fun he => ht (he ▸ hu)
        rw [hready, hready₁, hfilter]
        simp [hdue]
      · rw [hsleep, hsleep₁, hnd.erase_eq_filter, List.filter_filter]
        apply List.filter_congr
        intro u _
        by_cases hu : u = t
        · simp [hu, hdue]
        · simp [hu, hsame u hu]
      · intro u hu
        rw [hend u hu]
        refine endTick_of_woken h₁ fun he => ?_
        rw [hsleep, hsleep₁] at hu
        exact hnd.not_mem_erase (he ▸ List.mem_of_mem_filter hu)

/-- An execution of `schedule`, entered in `k`: the sleepers that are due are moved to
`ready_list`, from which the thread to run next is taken. -/
structure Roused (k k' : Kernel) : Prop where
  ready : k'.readyList = (k.readyList ++ k.sleepList.filter k.due).erase k'.current
  asleep : k'.sleepList = k.sleepList.filter fun t => !k.due t
  endTick : ∀ t ∈ k'.sleepList, (k'.threads t).endTick = (k.threads t).endTick
  ticks : k'.ticks = k.ticks

/-- Every call of `schedule` wakes those whose time has come. -/
theorem schedule_rouses (hnd : k.sleepList.Nodup) (hs : schedule k = .ok k') : Roused k k' := by
  obtain ⟨k₁, k₂, next, hwake, hnext, _, _, rfl⟩ := schedule_eq_ok hs
  obtain ⟨hready, hsleep, hend, hticks⟩ := wakeSleepers_moves k.sleepList hnd hnd hwake
  have hasleep : k₁.sleepList = k.sleepList.filter fun t => !k.due t := by
    rw [hsleep]
    apply List.filter_congr
    intro t ht
    simp [ht]
  obtain ⟨hempty, _, rfl⟩ | ⟨_, rfl⟩ := nextThreadToRun_eq_ok hnext
  · refine ⟨?_, hasleep, hend, hticks⟩
    show k₂.readyList = _
    rw [← hready, hempty, List.erase_nil]
  · refine ⟨?_, hasleep, hend, hticks⟩
    show k₁.readyList.erase next = _
    rw [hready]

/-- The loop's assertion holds where no wake-up time is negative. -/
theorem avoids_sleepPanic_wakeSleepers : ∀ (ts : List ThreadRef) {k : Kernel}, ts.Nodup →
    (∀ t ∈ ts, 0 ≤ (k.threads t).endTick) → Avoids sleepPanic (wakeSleepers ts k)
  | [], k, _, _ => .of_ok
  | t :: rest, k, hts, hpos => by
    obtain ⟨ht, hrest⟩ := List.nodup_cons.mp hts
    have hpos' : ∀ u ∈ rest, 0 ≤ (k.threads u).endTick :=
      fun u hu => hpos u (List.mem_cons_of_mem _ hu)
    refine Avoids.bind (fun he => ?_) fun _ _ => ?_
    · exact (assert_eq_error.mp he).1 (hpos t List.mem_cons_self)
    refine .ite (fun _ => ?_) fun _ => avoids_sleepPanic_wakeSleepers rest hrest hpos'
    refine Avoids.bind ?_ fun k₁ h₁ => ?_
    · refine (avoids_assert (by simp)).bind fun _ _ => ?_
      exact (avoids_assert (by simp)).bind fun _ _ => .of_ok
    · refine avoids_sleepPanic_wakeSleepers rest hrest fun u hu => ?_
      rw [endTick_of_woken h₁ fun he => ht (he ▸ hu)]
      exact hpos' u hu

/-- The assertion in the loop holds when every sleeper has a tick to wake at. -/
theorem avoids_sleepPanic_schedule (hnd : k.sleepList.Nodup)
    (hpos : ∀ t ∈ k.sleepList, 0 ≤ (k.threads t).endTick) : Avoids sleepPanic (schedule k) := by
  refine (avoids_sleepPanic_wakeSleepers _ hnd hpos).bind fun k₁ _ => ?_
  refine Avoids.bind ?_ fun _ _ => ?_
  · unfold nextThreadToRun
    refine .ite (fun _ => .of_ok) fun _ => ?_
    split
    · exact .of_ok
    · exact .of_ne (by simp)
  · refine (avoids_assert (by simp)).bind fun _ _ => ?_
    exact (avoids_assert (by simp)).bind fun _ _ => .of_ok

/-! ## What a piece of kernel code does to the sleepers -/

/-- On the way from `k` to `k₁` the sleepers and the clock stay, but for the caller, which goes
to sleep when `asleep` says until when. -/
structure Enters (asleep : Option Int) (k k₁ : Kernel) : Prop where
  ticks : k₁.ticks = k.ticks
  sleepList : k₁.sleepList =
    match asleep with
    | some _ => k.sleepList ++ [k.current]
    | none => k.sleepList
  endTick : ∀ t ∈ k.sleepList, (k₁.threads t).endTick = (k.threads t).endTick
  caller : ∀ e, asleep = some e → (k₁.threads k.current).endTick = e

/-- A step that touches neither the sleepers nor their times puts nobody to sleep. -/
theorem Enters.of_eq (ht : k₁.ticks = k.ticks) (hs : k₁.sleepList = k.sleepList)
    (he : ∀ t, (k₁.threads t).endTick = (k.threads t).endTick) : Enters none k k₁ :=
  ⟨ht, hs, fun t _ => he t, by simp⟩

/-- Who enters after a step that puts nobody to sleep enters by the two. -/
theorem Enters.trans {asleep : Option Int} {k₂ : Kernel} (h : Enters none k k₁)
    (hc : k₁.current = k.current) (h' : Enters asleep k₁ k₂) : Enters asleep k k₂ := by
  refine ⟨h'.ticks.trans h.ticks, ?_, fun t ht => ?_, fun e he => hc ▸ h'.caller e he⟩
  · rw [h'.sleepList, h.sleepList, hc]
  · rw [h'.endTick t (h.sleepList ▸ ht), h.endTick t ht]

/-- A change of one thread that spares `endTick`. -/
theorem endTick_modThread (k : Kernel) (t u : ThreadRef) (g : Thread → Thread)
    (hg : ∀ th, (g th).endTick = th.endTick) :
    ((k.modThread t g).threads u).endTick = (k.threads u).endTick := by
  rw [Kernel.modThread_threads]
  split
  next h => rw [hg, h]
  next => rfl

/-- Other fields put nobody to sleep. -/
theorem enters_modThread (k : Kernel) (t : ThreadRef) (g : Thread → Thread)
    (hg : ∀ th, (g th).endTick = th.endTick) : Enters none k (k.modThread t g) :=
  .of_eq rfl rfl fun u => endTick_modThread k t u g hg

/-- Where a piece of kernel code run in `k` ends: in a fault that is not of the sleepers' making,
with the sleepers left alone, or in a `schedule`. -/
inductive Passes (new : ThreadRef → Prop) (asleep : Option Int) (k : Kernel) :
    Except Fault Kernel → Prop
  | fails {e : Fault} : e ≠ sleepPanic → Passes new asleep k (.error e)
  | returns {k' : Kernel} : asleep = none → Enters none k k' →
      (k.scheduleTail = none → k'.scheduleTail = none) → Passes new asleep k (.ok k')
  | schedules {x : Except Fault Kernel} {k₁ : Kernel} : Placed k₁ none new →
      Enters asleep k k₁ → x = schedule k₁ → Passes new asleep k x

variable {asleep : Option Int}

/-- Another assertion may fail on the way. -/
theorem Passes.assert {a : Assertion} {c : Prop} [Decidable c] {g : Unit → Except Fault Kernel}
    (ha : a ≠ .endTickNonneg) (hg : c → Passes new asleep k (g ())) :
    Passes new asleep k (assert a c >>= g) := by
  by_cases hc : c
  · rw [show Pintos.Threads.assert a c = .ok () from assert_eq_ok.mpr hc]
    exact hg hc
  · rw [show Pintos.Threads.assert a c = .error (.panic a) from assert_eq_error.mpr ⟨hc, rfl⟩]
    exact .fails (by simpa using ha)

/-- `thread_current` is passed with the running thread. -/
theorem Passes.current {g : ThreadRef → Except Fault Kernel}
    (hg : Passes new asleep k (g k₁.current)) :
    Passes new asleep k (threadCurrent k₁ >>= g) := by
  show Passes new asleep k ((do
    Pintos.Threads.assert .isThread ((k₁.threads k₁.current).magic = true)
    Pintos.Threads.assert .currentRunning ((k₁.threads k₁.current).status = .running)
    .ok k₁.current) >>= g)
  simp only [bind_assoc]
  exact .assert (by simp) fun _ => .assert (by simp) fun _ => hg

/-- A branch passes if both sides do. -/
theorem Passes.ite {c : Prop} [Decidable c] {x y : Except Fault Kernel}
    (hx : c → Passes new asleep k x) (hy : ¬ c → Passes new asleep k y) :
    Passes new asleep k (if c then x else y) := by
  split
  next h => exact hx h
  next h => exact hy h

/-- What came before is put in front. -/
theorem Passes.after {x : Except Fault Kernel} (hp : Passes new asleep k₁ x)
    (h : Enters none k k₁) (hc : k₁.current = k.current)
    (ht : k.scheduleTail = none → k₁.scheduleTail = none) : Passes new asleep k x := by
  cases hp with
  | fails hne => exact .fails hne
  | returns ha he htail => exact .returns ha (h.trans hc he) fun hn => htail (ht hn)
  | schedules hplaced he hx => exact .schedules hplaced (h.trans hc he) hx

/-- Frames put nobody to sleep. -/
theorem passes_pushFrames (k : Kernel) (fs : List Frame) :
    Passes new none k (.ok (k.pushFrames k.current fs)) :=
  .returns rfl (enters_modThread k k.current _ fun _ => rfl) fun h => h

/-- `thread_yield` wakes, and puts nobody to sleep. -/
theorem passes_threadYield (h : Placed k (some k.current) new) :
    Passes new none k (threadYield k) := by
  refine .current (.assert (by simp) fun _ => ?_)
  refine .schedules (h.leave (leaves_requeue k)) ?_ rfl
  unfold Kernel.requeue
  split
  next =>
    exact .of_eq rfl rfl fun u => endTick_modThread (k.pushReady k.current) k.current u
      (fun th => { th with status := .ready }) fun _ => rfl
  next => exact enters_modThread k k.current (fun th => { th with status := .ready }) fun _ => rfl

/-- `thread_block` wakes the others, once the caller is where it belongs. -/
theorem passes_threadBlock {dst : Option QueueRef} (h : Placed k (some k.current) new)
    (hq : Queued k k₁ dst) (he : Enters asleep k k₁) :
    Passes new asleep k (threadBlock k₁) := by
  refine .assert (by simp) fun _ => .current ?_
  refine .schedules (h.leave hq.leaves) ?_ rfl
  have hset : ∀ u, ((k₁.setStatus k₁.current .blocked).threads u).endTick =
      (k₁.threads u).endTick := fun u => endTick_modThread k₁ _ u _ fun _ => rfl
  refine ⟨he.ticks, he.sleepList, fun t ht => ?_, fun e hasleep => ?_⟩
  · rw [hset, he.endTick t ht]
  · rw [hset, he.caller e hasleep]

/-- A waiter of a semaphore is no sleeper. -/
theorem enters_semaEnqueue (s : SemaRef) (m : Option LockRef) (k : Kernel) :
    Enters none k (semaEnqueue s m k) := by
  refine .of_eq (by cases m <;> rfl) (by cases m <;> rfl) fun u => ?_
  by_cases hu : u = k.current
  · subst hu
    cases m <;>
      simp [semaEnqueue, Kernel.pushFrames, Kernel.setWaitingLock, updateLockMaxPriority,
        Kernel.setLock, Kernel.setSema, Kernel.modThread]
  · cases m <;>
      simp [semaEnqueue, Kernel.pushFrames, Kernel.setWaitingLock, updateLockMaxPriority,
        Kernel.setLock, Kernel.setSema, Kernel.modThread, hu]

theorem enters_semaTake (s : SemaRef) (m : Option LockRef) (k : Kernel) :
    Enters none k (semaTake s m k) := by
  cases m with
  | none => exact .of_eq rfl rfl fun _ => rfl
  | some l =>
    exact .of_eq rfl rfl fun u => endTick_modThread k k.current u
      (fun th => { th with heldLocks := th.heldLocks ++ [l] }) fun _ => rfl

/-- `sema_down` wakes sleepers, and puts nobody to sleep. -/
theorem passes_semaDownLoop {s : SemaRef} {m : Option LockRef}
    (h : Placed k (some k.current) new) (hi : k.current ≠ k.idleThread) :
    Passes new none k (semaDownLoop s m k) := by
  refine .ite (fun _ => ?_) fun _ => ?_
  · exact passes_threadBlock h (queued_semaEnqueue s m k hi) (enters_semaEnqueue s m k)
  · refine .returns rfl (enters_semaTake s m k) fun hn => ?_
    cases m <;> exact hn

/-- `thread_unblock` puts nobody to sleep. -/
theorem enters_threadUnblock {t : ThreadRef} (hu : threadUnblock t k = .ok k') :
    Enters none k k' ∧ k'.current = k.current ∧ k'.scheduleTail = k.scheduleTail := by
  obtain ⟨_, _, rfl⟩ := threadUnblock_eq_ok hu
  refine ⟨.of_eq rfl rfl fun u => ?_, rfl, rfl⟩
  exact endTick_modThread (k.pushReady t) t u (fun th => { th with status := .ready }) fun _ => rfl

/-- Waking a waiter puts nobody to sleep. -/
theorem enters_semaWake {s : SemaRef} {m : Option LockRef} (hw : semaWake s m k = .ok k') :
    Enters none k k' ∧ k'.current = k.current ∧ k'.scheduleTail = k.scheduleTail := by
  obtain ⟨_, rfl⟩ | ⟨top, k₁, _, hu, rfl⟩ := semaWake_eq_ok hw
  · exact ⟨.of_eq rfl rfl fun _ => rfl, rfl, rfl⟩
  · obtain ⟨he, hc, ht⟩ := enters_threadUnblock hu
    have he' : Enters none k k₁ := ⟨he.ticks, he.sleepList, he.endTick, by simp⟩
    cases m with
    | none => exact ⟨he', hc, ht⟩
    | some l => exact ⟨⟨he'.ticks, he'.sleepList, he'.endTick, by simp⟩, hc, ht⟩

/-- `sema_up_internal` wakes sleepers, and puts nobody to sleep. -/
theorem passes_semaUpInternal {s : SemaRef} {m : Option LockRef}
    (h : Placed k (some k.current) new) : Passes new none k (semaUpInternal s m k) := by
  unfold semaUpInternal
  cases hw : semaWake s m k with
  | error e =>
    refine .fails ?_
    rintro rfl
    refine absurd hw (Avoids.ite (fun _ => .of_ok) fun _ => ?_)
    split
    next => exact .of_ne (by simp)
    next =>
      refine Avoids.bind ?_ fun _ _ => .of_ok
      refine (avoids_assert (by simp)).bind fun _ _ => ?_
      exact (avoids_assert (by simp)).bind fun _ _ => .of_ok
  | ok k₁ =>
    obtain ⟨he, hc, ht⟩ := enters_semaWake hw
    obtain ⟨h₁, _⟩ := h.of_semaWake hw
    have hinc := (h₁.keep (semaIncrement s k₁) rfl rfl rfl
      (queue_of_eq rfl rfl (setSema_waiters k₁ s · _ rfl)) fun _ => ⟨rfl, rfl⟩).1
    have he' : Enters none k (semaIncrement s k₁) := ⟨he.ticks, he.sleepList, he.endTick, by simp⟩
    exact (passes_threadYield hinc).after he' hc fun hn => ht.trans hn

/-! ## Every frame -/

/-- When the caller of a frame goes to sleep, until when. -/
def Frame.sleepsUntil : Frame → Option Int
  | .threadYieldForSeconds e => some e
  | _ => none

/-- A donation has nothing to do with the sleepers. -/
theorem avoids_donate_sleepPanic {cur : ThreadRef} :
    ∀ (fuel : Nat) (l : Option LockRef) (k : Kernel), Avoids sleepPanic (donate cur fuel l k)
  | 0, none, k => .of_ok
  | fuel + 1, none, k => .of_ok
  | 0, some l, k => .of_ne (by simp)
  | fuel + 1, some l, k => by
    unfold donate
    split
    next => exact .of_ok
    next =>
      refine .ite (fun _ => .of_ne (by simp)) fun _ => ?_
      exact .ite (fun _ => avoids_donate_sleepPanic fuel _ _) fun _ => .of_ne (by simp)

/-- A walk of `lock_acquire` and what comes after it. -/
theorem Passes.donate {cur : ThreadRef} {fuel : Nat} {l : Option LockRef}
    {g : Kernel → Except Fault Kernel} (hg : ∀ k₁, Raised k k₁ → Passes new asleep k₁ (g k₁)) :
    Passes new asleep k (donate cur fuel l k >>= g) := by
  cases hd : Pintos.Threads.donate cur fuel l k with
  | error e =>
    refine .fails ?_
    rintro rfl
    exact avoids_donate_sleepPanic fuel l k hd
  | ok k₁ =>
    have hr := donate_raised fuel hd
    refine (hg k₁ hr).after (.of_eq (by rw [hr.rest]) (by rw [hr.rest]) fun u => ?_) hr.current
      fun hn => ?_
    · rw [hr.threads u]
    · rw [hr.rest]
      exact hn

/-- Every frame leaves the sleepers alone or ends in a `schedule`. -/
theorem passes_exec (h : Placed k (some k.current) new) (hr : Runs k f new) :
    Passes new f.sleepsUntil k (exec page k f) := by
  have hidle : f ≠ .idleBlock → f ≠ .idleHalt → k.current ≠ k.idleThread := by
    intro h₁ h₂ he
    rcases hr.idle he with hf | hf
    · exact h₁ hf
    · exact h₂ hf
  cases f with
  | threadYield => exact passes_threadYield h
  | threadYieldForSeconds e =>
    refine .current (.assert (by simp) fun _ => ?_)
    refine passes_threadBlock h (queued_sleep k e (hidle (by simp) (by simp))) ?_
    have hcpu : k.current ∉ k.sleepList := by
      intro hm
      have hm' : k.current ∈ k.queue .sleep := hm
      exact h.notCpu hm' rfl
    refine ⟨rfl, rfl, fun t ht => ?_, fun e' he => ?_⟩
    · have hne : t ≠ k.current := fun he => hcpu (he ▸ ht)
      rw [Kernel.modThread_ne _ _ hne]
    · rw [Kernel.modThread_self]
      exact Option.some.inj he
  | timerSleep n => exact passes_pushFrames k _
  | threadSetPriority p =>
    refine .current ?_
    have hset := (h.keep (k.modThread k.current fun th => { th with
      priority := newPriority (k.threads k.current) p, basePriority := p })
      rfl rfl rfl (queue_of_eq rfl rfl fun _ => rfl)
      (modThread_placed k k.current _ (fun _ => rfl) fun _ => rfl)).1
    exact (passes_threadYield hset).after (enters_modThread k k.current _ fun _ => rfl) rfl
      fun hn => hn
  | threadExit =>
    refine .assert (by simp) fun _ => .current ?_
    refine .schedules (h.leave (leaves_exit k (hidle (by simp) (by simp)))) ?_ rfl
    exact .of_eq rfl rfl fun u => endTick_modThread k k.current u
      (fun th => { th with status := .dying }) fun _ => rfl
  | threadCreate p => exact passes_pushFrames k _
  | bitmapScanAndFlip p =>
    cases page with
    | none => exact passes_pushFrames k _
    | some t =>
      refine .ite (fun _ => .fails (by simp)) fun _ => ?_
      refine .returns rfl (.of_eq rfl rfl fun u => ?_) fun hn => hn
      exact endTick_modThread k k.current u (fun th => { th with
        frames := [.lockRelease .poolLock, .initThread t p] ++ th.frames }) fun _ => rfl
  | initThread t p =>
    show Passes new none k (initThread t p k >>= _)
    unfold initThread
    simp only [bind_assoc]
    refine .assert (by simp) fun _ => ?_
    refine .returns rfl ⟨rfl, rfl, fun u hu => ?_, by simp⟩ fun hn => hn
    -- the page holds no thread yet, so it is not that of a sleeper
    have hne : u ≠ t := by
      rintro rfl
      have hm : u ∈ k.queue .sleep := hu
      have := hr.init rfl
      rw [(h.queued hm).1] at this
      cases this
    refine (endTick_modThread _ k.current u (fun th => { th with
      frames := [.lockAcquire .tidLock, .allocateTid t] ++ th.frames }) fun _ => rfl).trans ?_
    rw [Kernel.modThread_ne _ _ hne]
  | allocateTid t =>
    refine .returns rfl (.of_eq rfl rfl fun u => ?_) fun hn => hn
    exact endTick_modThread k k.current u (fun th => { th with
      frames := [.lockRelease .tidLock, .threadUnblock t k.nextTid, .threadYield] ++ th.frames })
      fun _ => rfl
  | threadUnblock t tid =>
    refine .assert (by simp) fun _ => .assert (by simp) fun _ => ?_
    refine .returns rfl ⟨rfl, rfl, fun u hu => ?_, by simp⟩ fun hn => hn
    have hne : u ≠ t := by
      rintro rfl
      have hm : u ∈ k.queue .sleep := hu
      exact h.notNew hm (hr.unblock rfl)
    simp [Kernel.setStatus, Kernel.pushReady, Kernel.modThread, hne]
  | semaInit s v =>
    exact .ite (fun _ => .returns rfl (.of_eq rfl rfl fun _ => rfl) fun hn => hn)
      fun _ => .fails (by simp)
  | semaDown s =>
    refine .assert (by simp) fun _ => .current ?_
    exact passes_semaDownLoop h (hidle (by simp) (by simp))
  | semaDownLoop s m =>
    cases m with
    | none => exact passes_semaDownLoop h (hidle (by simp) (by simp))
    | some l =>
      have hset := (h.keep (k.setWaitingLock k.current none)
        rfl rfl rfl (queue_of_eq rfl rfl fun _ => rfl)
        (modThread_placed k k.current _ (fun _ => rfl) fun _ => rfl)).1
      exact (passes_semaDownLoop hset (hidle (by simp) (by simp))).after
        (enters_modThread k k.current _ fun _ => rfl) rfl fun hn => hn
  | semaTryDown s =>
    refine .returns rfl ?_ ?_
    · unfold semaTryDown
      split <;> exact .of_eq rfl rfl fun _ => rfl
    · unfold semaTryDown
      split <;> exact fun hn => hn
  | semaUp s => exact passes_semaUpInternal h
  | lockInit l =>
    exact .ite (fun _ => .returns rfl (.of_eq rfl rfl fun _ => rfl) fun hn => hn)
      fun _ => .fails (by simp)
  | lockAcquire l =>
    show Passes new none k (lockAcquire l k)
    unfold lockAcquire lockHeldByCurrentThread
    simp only [bind_assoc]
    refine .assert (by simp) fun _ => .current (.assert (by simp) fun _ => .current ?_)
    refine .donate fun k₁ hraised => .assert (by simp) fun _ => .current ?_
    obtain ⟨hp₁, hk₁⟩ := h.of_raised hraised
    refine passes_semaDownLoop hp₁ ?_
    rw [hk₁.current, hraised.rest]
    exact hidle (by simp) (by simp)
  | lockTryAcquire l =>
    show Passes new none k (lockTryAcquire (.user l) k)
    unfold lockTryAcquire lockHeldByCurrentThread semaTryDown
    simp only [bind_assoc]
    refine .current (.assert (by simp) fun _ => ?_)
    by_cases hv : (k.semas (.lock (.user l))).value > 0
    · simp only [hv, if_true]
      refine .returns rfl (.of_eq rfl rfl fun u => ?_) fun hn => hn
      exact endTick_modThread k k.current u (fun th => { th with
        frames := [.lockTryAcquired (.user l)] ++ th.frames }) fun _ => rfl
    · simp only [hv, if_false]
      exact .returns rfl (.of_eq rfl rfl fun _ => rfl) fun hn => hn
  | lockTryAcquired l => exact .current (.returns rfl (.of_eq rfl rfl fun _ => rfl) fun hn => hn)
  | lockRelease l =>
    show Passes new none k (lockRelease l k)
    unfold lockRelease lockHeldByCurrentThread
    simp only [bind_assoc]
    refine .current (.assert (by simp) fun _ => .current ?_)
    have hrel := (h.keep (lockReleased l k) rfl rfl rfl (queue_of_eq rfl rfl fun _ => rfl)
      (modThread_placed k k.current (fun th => { th with
        priority := releasePriority l (k.threads k.current) k
        heldLocks := th.heldLocks.filter (· ≠ l) }) (fun _ => rfl) fun _ => rfl)).1
    refine (passes_semaUpInternal hrel).after (.of_eq rfl rfl fun u => ?_) rfl fun hn => hn
    exact endTick_modThread k k.current u (fun th => { th with
      priority := releasePriority l (k.threads k.current) k
      heldLocks := th.heldLocks.filter (· ≠ l) }) fun _ => rfl
  | condInit c =>
    exact .ite (fun _ => .returns rfl (.of_eq rfl rfl fun _ => rfl) fun hn => hn)
      fun _ => .fails (by simp)
  | condWait c l =>
    show Passes new none k (condWait c (.user l) k)
    unfold condWait lockHeldByCurrentThread
    simp only [bind_assoc]
    refine .assert (by simp) fun _ => .current (.assert (by simp) fun _ => ?_)
    refine .returns rfl (.of_eq rfl rfl fun u => ?_) fun hn => hn
    exact endTick_modThread k k.current u (fun th => { th with
      frames := [.condPushBack c, .lockRelease (.user l), .semaDown (.waiter k.current),
        .lockAcquire (.user l)] ++ th.frames }) fun _ => rfl
  | condPushBack c => exact .returns rfl (.of_eq rfl rfl fun _ => rfl) fun hn => hn
  | condSignal c l =>
    show Passes new none k (condSignal c (.user l) k)
    unfold condSignal lockHeldByCurrentThread
    simp only [bind_assoc]
    refine .assert (by simp) fun _ => .current (.assert (by simp) fun _ => ?_)
    refine .ite (fun _ => .returns rfl (.of_eq rfl rfl fun _ => rfl) fun hn => hn) fun _ => ?_
    split
    next => exact .fails (by simp)
    next top _ =>
      refine .returns rfl (.of_eq rfl rfl fun u => ?_) fun hn => hn
      exact endTick_modThread k k.current u (fun th => { th with
        frames := [.semaUp (.waiter top)] ++ th.frames }) fun _ => rfl
  | condBroadcast c l =>
    show Passes new none k (.ok (condBroadcast c l k))
    unfold condBroadcast
    split
    next => exact .returns rfl (.of_eq rfl rfl fun _ => rfl) fun hn => hn
    next => exact passes_pushFrames k _
  | idleBlock =>
    refine passes_threadBlock h (queued_idle k hr.fits) ?_
    exact enters_modThread k k.current _ fun _ => rfl
  | idleHalt => exact passes_pushFrames k _

/-! ## Every event -/

/-- When the running thread goes to sleep in an event, until when. -/
def Event.sleepsUntil (k : Kernel) : Event → Option Int
  | .run _ => (k.threads k.current).frames.head?.bind Frame.sleepsUntil
  | _ => none

/-- Who goes to sleep is in `thread_yield_for_seconds`. -/
theorem Event.frames_of_sleepsUntil {e : Event} (h : e.sleepsUntil k ≠ none) :
    ∃ tick rest, (k.threads k.current).frames = .threadYieldForSeconds tick :: rest := by
  obtain ⟨tick, htick⟩ := Option.ne_none_iff_exists'.mp h
  cases e with
  | run page =>
    obtain ⟨f, hf, hfs⟩ := Option.bind_eq_some_iff.mp htick
    obtain ⟨rest, hframes⟩ := List.head?_eq_some_iff.mp hf
    cases f with
    | threadYieldForSeconds e' => exact ⟨e', rest, hframes⟩
    | _ => cases hfs
  | _ => cases htick

/-- The clock an event goes by. -/
def Event.clock (k : Kernel) : Event → Kernel
  | .tick => threadTick k
  | _ => k

/-- A tick counts, and wakes through `schedule` alone. -/
theorem passes_timerInterrupt (h : Placed k (some k.current) new) :
    Passes new none (threadTick k) (timerInterrupt k) := by
  refine .assert (by simp) fun _ => .current (.ite (fun _ => ?_) fun _ => ?_)
  · exact passes_threadYield (h.keep_of_eq (threadTick k) rfl rfl rfl rfl
      (queue_of_eq rfl rfl fun _ => rfl)).1
  · exact .returns rfl (.of_eq rfl rfl fun _ => rfl) fun hn => hn

/-- The tail of a switch puts nobody to sleep. -/
theorem passes_threadScheduleTail (prev : Option ThreadRef) (k : Kernel) :
    Passes new none k (threadScheduleTail prev { k with scheduleTail := none }) := by
  have hrun : ∀ u, ((k.setStatus k.current .running).threads u).endTick = (k.threads u).endTick :=
    fun u => endTick_modThread k k.current u (fun th => { th with status := .running }) fun _ => rfl
  unfold threadScheduleTail
  cases prev with
  | none => exact .returns rfl (.of_eq rfl rfl hrun) fun _ => rfl
  | some p =>
    refine .ite (fun _ => ?_) fun _ => .returns rfl (.of_eq rfl rfl hrun) fun _ => rfl
    refine .assert (by simp) fun _ => .assert (by simp) fun _ => ?_
    refine .returns rfl (.of_eq rfl rfl fun u => ?_) fun _ => rfl
    exact (endTick_modThread (k.setStatus k.current .running) p u
      (fun th => { th with magic := false }) fun _ => rfl).trans (hrun u)

/-- Every event leaves the sleepers alone or ends in one `schedule`. -/
theorem Coherent.passes_step (h : Coherent k) (e : Event) :
    Passes k.New (e.sleepsUntil k) (e.clock k) (step e k) := by
  unfold step
  split
  next prev _ => exact passes_threadScheduleTail prev k
  next => exact .returns rfl (enters_modThread k k.current _ fun _ => rfl) fun hn => hn
  next page f rest _ hf =>
    have huntil : Event.sleepsUntil k (.run page) = f.sleepsUntil := by
      simp [Event.sleepsUntil, hf]
    rw [huntil]
    exact (passes_exec (h.placed.setFrames k.current rest) (h.runs hf)).after
      (enters_modThread k k.current _ fun _ => rfl) rfl fun hn => hn
  next => exact passes_timerInterrupt h.placed
  next => exact .ite (fun _ => .fails (by simp)) fun _ => passes_timerInterrupt h.placed
  next => exact .fails (by simp)

/-! ## Sleepers have a tick to wake at -/

/-- A call of `timer_sleep` is made at a tick from which the tick to wake at can be counted: the
sum is within the range of `int64_t`, and the tick counter itself has not overflowed. -/
def sleepsInRange (k : Kernel) (e : Event) : Bool :=
  match e, (k.threads k.current).frames with
  | .run _, .timerSleep n :: _ => decide (0 ≤ k.ticks ∧ k.ticks + max n 0 < 2 ^ 63)
  | _, _ => true

/-- The ticks to wake at are not negative, those of the sleepers and those of the threads that
are about to sleep. -/
structure Timely (k : Kernel) : Prop where
  sleeper : ∀ t ∈ k.sleepList, 0 ≤ (k.threads t).endTick
  caller : ∀ t e, .threadYieldForSeconds e ∈ (k.threads t).frames → 0 ≤ e

/-- `schedule` is always entered with such sleepers. -/
theorem Timely.enters (h : Timely k) {e : Event} (he : Enters (e.sleepsUntil k) (e.clock k) k₁) :
    ∀ t ∈ k₁.sleepList, 0 ≤ (k₁.threads t).endTick := by
  have hclock : (e.clock k).sleepList = k.sleepList ∧ (e.clock k).current = k.current ∧
      (e.clock k).threads = k.threads := by
    cases e <;> exact ⟨rfl, rfl, rfl⟩
  obtain ⟨hsl, hcur, hth⟩ := hclock
  have hold : ∀ t ∈ k.sleepList, 0 ≤ (k₁.threads t).endTick := by
    intro t ht
    rw [he.endTick t (hsl ▸ ht), hth]
    exact h.sleeper t ht
  intro t ht
  have hlist := he.sleepList
  cases hs : e.sleepsUntil k with
  | none =>
    rw [hs] at hlist
    rw [hlist, hsl] at ht
    exact hold t ht
  | some tick =>
    rw [hs] at hlist
    rw [hlist, hsl] at ht
    rcases List.mem_append.mp ht with ht | ht
    · exact hold t ht
    · have hself := he.caller tick hs
      rw [List.mem_singleton.mp ht, hself]
      cases e with
      | run page =>
        obtain ⟨f, hf, hfs⟩ := Option.bind_eq_some_iff.mp hs
        obtain ⟨rest, hframes⟩ := List.head?_eq_some_iff.mp hf
        cases f with
        | threadYieldForSeconds e' =>
          cases hfs
          exact h.caller k.current tick (hframes ▸ List.mem_cons_self)
        | _ => cases hfs
      | _ => cases hs

/-- A number in range is its own 64-bit value. -/
theorem toInt64_of_range {x : Int} (hlo : 0 ≤ x) (hhi : x < 2 ^ 63) : toInt64 x = x := by
  unfold toInt64
  apply Int.bmod_eq_of_le <;> omega

/-- `timer_sleep`, in range: the tick to wake at is the sum. -/
theorem timerSleep_frames {n : Int} {rest : List Frame} (hlo : 0 ≤ k.ticks)
    (hhi : k.ticks + max n 0 < 2 ^ 63)
    (hx : exec page (k.setFrames k.current rest) (.timerSleep n) = .ok k') :
    (k'.threads k.current).frames = .threadYieldForSeconds (k.ticks + max n 0) :: rest := by
  have hsum : (k.ticks + if n > 0 then n else 0) = k.ticks + max n 0 := by
    split <;> omega
  have hend : toInt64 (k.ticks + if n > 0 then n else 0) = k.ticks + max n 0 := by
    rw [hsum, toInt64_of_range (by omega) hhi]
  cases hx
  simp only [Kernel.pushFrames, Kernel.setFrames, Kernel.modThread, Function.update_self,
    hend, List.singleton_append]

/-- Every step keeps the sleepers in time, if wake-up times stay in range. -/
theorem Timely.of_step {e : Event} (h : Timely k) (hk : Coherent k)
    (hok : sleepsInRange k e = true) (hx : step e k = .ok k') : Timely k' where
  sleeper := by
    have hpass := hk.passes_step e
    have hclock : (e.clock k).sleepList = k.sleepList ∧ (e.clock k).threads = k.threads := by
      cases e <;> exact ⟨rfl, rfl⟩
    rw [hx] at hpass
    cases hpass with
    | returns _ he _ =>
      have hlist : k'.sleepList = k.sleepList := he.sleepList.trans hclock.1
      intro t ht
      rw [hlist] at ht
      rw [he.endTick t (hclock.1 ▸ ht), hclock.2]
      exact h.sleeper t ht
    | schedules hp he hs =>
      have hr := schedule_rouses (hp.nodup .sleep) hs.symm
      intro t ht
      rw [hr.endTick t ht]
      rw [hr.asleep] at ht
      exact h.enters he t (List.mem_of_mem_filter ht)
  caller := by
    intro t e' hmem
    rcases hk.step_frames hx t with hsame | ⟨rfl, _, c, hc⟩ |
      ⟨rfl, page, f, rest, fs, rfl, hf, hexec, hfollow, hframes⟩
    · rw [hsame] at hmem
      exact h.caller t e' hmem
    · rw [hc] at hmem
      cases c <;> simp [Call.frame] at hmem
    · rw [hframes] at hmem
      rcases List.mem_append.mp hmem with hmem | hmem
      · cases hfollow with
        | sleep =>
          simp only [sleepsInRange, hf, decide_eq_true_eq] at hok
          rw [timerSleep_frames hok.1 hok.2 hexec] at hframes
          have he := (List.cons.inj hframes).1
          rw [← he, List.mem_singleton] at hmem
          cases hmem
          omega
        | _ => simp at hmem
      · exact h.caller k.current e' (hf ▸ List.mem_cons_of_mem _ hmem)

/-- At first nobody sleeps. -/
theorem timely_afterThreadStart (b : Boot) : Timely (afterThreadStart b) where
  sleeper := by
    intro t ht
    cases ht
  caller := by
    intro t e ht
    have hframes : ((afterThreadStart b).threads t).frames = [] ∨
        ((afterThreadStart b).threads t).frames = [.idleBlock] := by
      simp only [afterThreadStart, bootThread, noThread]
      split
      next => exact .inl rfl
      next => split <;> simp
    rcases hframes with hf | hf <;> simp [hf] at ht

/-- In every state of such a run the sleepers are in time. -/
theorem reach_timely {b : Boot}
    (h : ReachWhere (Steps step) (fun k e => sleepsInRange k e = true) (afterThreadStart b) k) :
    Timely k :=
  h.invariant_with (timely_afterThreadStart b) (fun _ hr => reach_coherent hr.reach)
    fun _ _ _ hk ht hok hx => ht.of_step hk hok hx

/-! ## The three results -/

/-- The event executes `schedule ()` at the tick `tick` or a later one. It does if a switch is
under way after it: the tail of an earlier switch is an event of its own. -/
def schedulesFrom (tick : Int) (k : Kernel) (e : Event) : Bool :=
  match step e k with
  | .ok k' => k'.scheduleTail.isSome && decide (tick ≤ k'.ticks)
  | .error _ => false

/-- Only where a switch is pending can it stay pending. -/
theorem scheduleTail_of_step {e : Event} (hx : step e k = .ok k') (hs : k'.scheduleTail ≠ none) :
    k.scheduleTail = none := by
  obtain ⟨prev, rfl, htail, hx⟩ | ⟨_, _, htail, _⟩ | ⟨_, _, _, _, htail, _⟩ | ⟨_, htail, _⟩ :=
    step_eq_ok hx
  · refine absurd ?_ hs
    obtain ⟨rfl, _⟩ | ⟨p, _, _, _, _, _, rfl⟩ := threadScheduleTail_eq_ok hx
    · rfl
    · rfl
  · exact htail
  · exact htail
  · exact htail

/-- The thread is asleep until a tick. -/
structure Kernel.Asleep (k : Kernel) (t : ThreadRef) (tick : Int) : Prop where
  listed : t ∈ k.sleepList
  endTick : (k.threads t).endTick = tick

/-- The thread has called `timer_sleep` and read the clock, and has still to turn interrupts off;
or it sleeps. -/
def Kernel.Retires (k : Kernel) (t : ThreadRef) (tick : Int) (rest : List Frame) : Prop :=
  (k.threads t).frames = .threadYieldForSeconds tick :: rest ∨ k.Asleep t tick

/-- An event that executes no `schedule` at the tick of a sleeper or later leaves it asleep, and
lets the caller of `thread_yield_for_seconds` fall asleep. -/
theorem Coherent.asleep_of_step {e : Event} {t : ThreadRef} {tick : Int} (h : Coherent k)
    (hx : step e k = .ok k') (hlate : schedulesFrom tick k e = false)
    (hs : k.Asleep t tick ∨ t = k.current ∧ e.sleepsUntil k = some tick) : k'.Asleep t tick := by
  have hpass := h.passes_step e
  have hclock : (e.clock k).sleepList = k.sleepList ∧ (e.clock k).threads = k.threads ∧
      (e.clock k).current = k.current := by
    cases e <;> exact ⟨rfl, rfl, rfl⟩
  obtain ⟨hsl, hth, hcur⟩ := hclock
  rw [hx] at hpass
  cases hpass with
  | returns ha he _ =>
    rcases hs with ⟨hlisted, hend⟩ | ⟨_, hsleep⟩
    · refine ⟨?_, ?_⟩
      · rw [he.sleepList, hsl]
        exact hlisted
      · rw [he.endTick t (hsl ▸ hlisted), hth, hend]
    · rw [ha] at hsleep
      cases hsleep
  | @schedules _ k₁ hp he hsched =>
    have hr := schedule_rouses (hp.nodup .sleep) hsched.symm
    obtain ⟨_, _, _, _, _, _, _, hk'⟩ := schedule_eq_ok hsched.symm
    have hearly : k₁.ticks < tick := by
      have hsome : k'.scheduleTail.isSome = true := by rw [hk']; rfl
      simp only [schedulesFrom, hx, hsome, Bool.true_and, decide_eq_false_iff_not, not_le] at hlate
      rw [← hr.ticks]
      exact hlate
    -- asleep where `schedule` is entered, and not due there
    have hthere : t ∈ k₁.sleepList ∧ (k₁.threads t).endTick = tick := by
      have hlist := he.sleepList
      rcases hs with ⟨hlisted, hend⟩ | ⟨rfl, hsleep⟩
      · refine ⟨?_, by rw [he.endTick t (hsl ▸ hlisted), hth, hend]⟩
        rw [hlist, hsl]
        split
        · exact List.mem_append_left _ hlisted
        · exact hlisted
      · refine ⟨?_, ?_⟩
        · rw [hlist, hsleep, hcur]
          simp
        · rw [← hcur]
          exact he.caller tick hsleep
    have hstays : t ∈ k'.sleepList := by
      rw [hr.asleep]
      apply List.mem_filter.mpr
      refine ⟨hthere.1, ?_⟩
      simp only [Kernel.due, hthere.2, Bool.not_eq_eq_eq_not, Bool.not_true,
        decide_eq_false_iff_not, not_le]
      exact hearly
    exact ⟨hstays, (hr.endTick t hstays).trans hthere.2⟩

/-- Until a `schedule` is executed at its tick or later, a thread that has called `timer_sleep` is
on its way to sleep or sleeps. -/
theorem Coherent.retires_of_step {e : Event} {t : ThreadRef} {tick : Int} {rest : List Frame}
    (h : Coherent k) (hx : step e k = .ok k') (hlate : schedulesFrom tick k e = false)
    (hr : k.Retires t tick rest) : k'.Retires t tick rest := by
  rcases hr with hf | hs
  · rcases h.step_frames hx t with hsame | ⟨rfl, hnil, _⟩ |
      ⟨rfl, page, f, rest', fs, rfl, hf', _, _, _⟩
    · exact .inl (hsame.trans hf)
    · rw [hf] at hnil
      cases hnil
    · right
      refine h.asleep_of_step hx hlate (.inr ⟨rfl, ?_⟩)
      simp [Event.sleepsUntil, hf, Frame.sleepsUntil]
  · exact .inr (h.asleep_of_step hx hlate (.inl hs))

/-- A thread that sleeps is neither READY nor on the CPU. -/
theorem Coherent.asleep_off {t : ThreadRef} {tick : Int} (h : Coherent k)
    (hs : k.Asleep t tick) :
    t ∉ k.readyList ∧ t ≠ k.current ∧ (k.threads t).status = .blocked := by
  have hm : t ∈ k.queue .sleep := hs.listed
  refine ⟨h.placed.not_ready hm (by simp), fun he => ?_, (h.placed.queued hm).2⟩
  exact h.placed.notCpu hm (he ▸ rfl)

/-- Every execution of `schedule ()` in a step, from the state it is entered in. -/
theorem Coherent.schedule_of_step {e : Event} (h : Coherent k) (hx : step e k = .ok k')
    (hs : k'.scheduleTail ≠ none) :
    ∃ k₁, schedule k₁ = .ok k' ∧ Enters (e.sleepsUntil k) (e.clock k) k₁ ∧
      k₁.sleepList.Nodup ∧ Roused k₁ k' := by
  have hn := scheduleTail_of_step hx hs
  have hpass := h.passes_step e
  rw [hx] at hpass
  cases hpass with
  | returns _ _ htail =>
    refine absurd (htail ?_) hs
    cases e <;> exact hn
  | @schedules _ k₁ hp he hsched =>
    exact ⟨k₁, hsched.symm, he, hp.nodup .sleep, schedule_rouses (hp.nodup .sleep) hsched.symm⟩

/-- Who sleeps after an event slept before it, or is the running thread and went to sleep. -/
theorem Coherent.sleeper_of_step {e : Event} {t : ThreadRef} (h : Coherent k)
    (hx : step e k = .ok k') (ht : t ∈ k'.sleepList) :
    t ∈ k.sleepList ∨ t = k.current ∧ e.sleepsUntil k ≠ none := by
  have hclock : (e.clock k).sleepList = k.sleepList ∧ (e.clock k).current = k.current := by
    cases e <;> exact ⟨rfl, rfl⟩
  obtain ⟨hsl, hcur⟩ := hclock
  have hpass := h.passes_step e
  rw [hx] at hpass
  cases hpass with
  | returns _ he _ =>
    rw [he.sleepList, hsl] at ht
    exact .inl ht
  | @schedules _ k₁ hp he hsched =>
    rw [(schedule_rouses (hp.nodup .sleep) hsched.symm).asleep] at ht
    have ht₁ := List.mem_of_mem_filter ht
    rw [he.sleepList, hsl, hcur] at ht₁
    split at ht₁
    next tick htick =>
      rcases List.mem_append.mp ht₁ with ht₁ | ht₁
      · exact .inl ht₁
      · right
        rw [htick]
        exact ⟨List.mem_singleton.mp ht₁, by simp⟩
    next => exact .inl ht₁

/-- Sleeping threads wake on time and only once. The caller of `timer_sleep (n)` at the tick `s`
is on its way to sleep, still inside the call with interrupts on, or sleeps until the tick
`s + max (n, 0)`, in every state up to the first `schedule ()` at that tick or a later one; once
it sleeps it does so up to there, off `ready_list` and off the CPU. Every `schedule ()` moves the
sleepers that are due to `ready_list`, and leaves the others. Its assertion never fails. -/
theorem sleepers_wake_on_time (b : Boot) (k : Kernel)
    (h : ReachWhere (Steps step) (fun k e => sleepsInRange k e = true) (afterThreadStart b) k) :
    (∀ n rest page k₁, (k.threads k.current).frames = .timerSleep n :: rest →
      sleepsInRange k (.run page) = true → step (.run page) k = .ok k₁ →
      ∀ k₂, ReachWhere (Steps step)
        (fun k' e => schedulesFrom (k.ticks + max n 0) k' e = false) k₁ k₂ →
      (k₂.threads k.current).frames = .threadYieldForSeconds (k.ticks + max n 0) :: rest ∨
        k₂.Asleep k.current (k.ticks + max n 0)) ∧
    (∀ t tick, k.Asleep t tick →
      ∀ k₂, ReachWhere (Steps step) (fun k' e => schedulesFrom tick k' e = false) k k₂ →
      k₂.Asleep t tick ∧ t ∉ k₂.readyList ∧ t ≠ k₂.current ∧
        (k₂.threads t).status = .blocked) ∧
    (∀ e k', step e k = .ok k' → k'.scheduleTail ≠ none →
      ∃ k₁, schedule k₁ = .ok k' ∧ Enters (e.sleepsUntil k) (e.clock k) k₁ ∧
        k₁.sleepList.Nodup ∧ Roused k₁ k') ∧
    ∀ e, step e k ≠ .error sleepPanic := by
  have hk := reach_coherent h.reach
  have ht := reach_timely h
  refine ⟨?_, ?_, fun e k' => hk.schedule_of_step, ?_⟩
  · intro n rest page k₁ hf hok hx k₂ hr
    have hk₁ : Coherent k₁ := hk.of_step hx
    have hstart : k₁.Retires k.current (k.ticks + max n 0) rest := by
      simp only [sleepsInRange, hf, decide_eq_true_eq] at hok
      obtain ⟨_, h, _⟩ | ⟨_, h, _⟩ | ⟨page', f, rest', h, _, hf', hexec⟩ | ⟨h, _⟩ := step_eq_ok hx
      · cases h
      · cases h
      · cases h
        rw [hf] at hf'
        cases hf'
        exact .inl (timerSleep_frames hok.1 hok.2 hexec)
      · cases h
    have hboth : Coherent k₂ ∧ k₂.Retires k.current (k.ticks + max n 0) rest := by
      refine hr.invariant (P := fun k' => Coherent k' ∧ k'.Retires _ _ _) ⟨hk₁, hstart⟩ ?_
      intro _ e _ hc hlate hstep
      exact ⟨hc.1.of_step hstep, hc.1.retires_of_step hstep hlate hc.2⟩
    exact hboth.2
  · intro t tick hs k₂ hr
    have hboth : Coherent k₂ ∧ k₂.Asleep t tick := by
      refine hr.invariant (P := fun k' => Coherent k' ∧ k'.Asleep t tick) ⟨hk, hs⟩ ?_
      intro _ e _ hc hlate hstep
      exact ⟨hc.1.of_step hstep, hc.1.asleep_of_step hstep hlate (.inl hc.2)⟩
    exact ⟨hboth.2, hboth.1.asleep_off hboth.2⟩
  · intro e hpanic
    have hpass := hk.passes_step e
    rw [hpanic] at hpass
    cases hpass with
    | fails hne => exact hne rfl
    | schedules hp he hsched =>
      exact avoids_sleepPanic_schedule (hp.nodup .sleep) (ht.enters he) hsched.symm

/-- `main` goes to sleep for ten ticks. -/
theorem main_asleep_for_ten :
    ∃ k : Kernel, k.Asleep 0 10 ∧ 0 ∉ k.readyList ∧ 0 ≠ k.current ∧
      ∀ e, step e k ≠ .error sleepPanic := by
  obtain ⟨k, hk, hp⟩ := exists_of_replay step sleepsInRange
    [.call (.timerSleep 10), .run none, .run none, .tail] (afterThreadStart smallBoot)
    (fun k => k.sleepList == [0] && (k.threads 0).endTick == 10) (by decide +kernel)
  simp only [Bool.and_eq_true, beq_iff_eq] at hp
  obtain ⟨_, hasleep, _, hpanic⟩ := sleepers_wake_on_time smallBoot k hk
  have hs : k.Asleep 0 10 := ⟨by rw [hp.1]; simp, hp.2⟩
  obtain ⟨_, hready, hcur, _⟩ := hasleep 0 10 hs k .start
  exact ⟨k, hs, hready, hcur, hpanic⟩

/-- A thread that has called `timer_sleep` can still be preempted before it turns interrupts off:
a thread of the same priority as `main` does so in the last tick of its time slice, and is in
`ready_list` nine ticks before it may wake. -/
theorem preempted_inside_timer_sleep :
    ¬ ∀ k n rest k₁ k₂, ReachWhere (Steps step) (fun k e => sleepsInRange k e = true)
      (afterThreadStart smallBoot) k → (k.threads k.current).frames = .timerSleep n :: rest →
      sleepsInRange k (.run none) = true → step (.run none) k = .ok k₁ →
      ReachWhere (Steps step)
        (fun k' e => schedulesFrom (k.ticks + max n 0) k' e = false) k₁ k₂ →
      k.current ∉ k₂.readyList := by
  intro hclaim
  obtain ⟨k, hk, hp⟩ := exists_of_replay step sleepsInRange
    (createEvents 2 31 ++ [.tick, .tick, .tick, .call (.timerSleep 10)])
    (afterThreadStart smallBoot)
    (fun k => k.ticks == 3 && (k.threads k.current).frames == [.timerSleep 10] &&
      match step (.run none) k with
      | .ok k₁ => (replay step (fun k' e => !schedulesFrom 13 k' e) [.tick, .tail] k₁).map
          (fun k₂ => k₂.readyList.contains k.current) == some true
      | .error _ => false) (by decide +kernel)
  simp only [Bool.and_eq_true, beq_iff_eq] at hp
  obtain ⟨⟨hticks, hframes⟩, hp⟩ := hp
  cases hstep : step (.run none) k with
  | error e => simp [hstep] at hp
  | ok k₁ =>
    simp only [hstep, beq_iff_eq] at hp
    obtain ⟨k₂, hk₂, hready⟩ := exists_of_replay step
      (fun k' e => !schedulesFrom 13 k' e) [.tick, .tail] k₁
      (fun k₂ => k₂.readyList.contains k.current) hp
    have hend : k.ticks + max 10 0 = 13 := by
      rw [hticks]
      rfl
    have hrange : sleepsInRange k (.run none) = true := by
      simp [sleepsInRange, hframes, hticks]
    refine hclaim k 10 [] k₁ k₂ hk hframes hrange hstep ?_ (by simpa using hready)
    rw [hend]
    exact hk₂.weaken fun _ _ hlate => by simpa using hlate

end Pintos.Threads
