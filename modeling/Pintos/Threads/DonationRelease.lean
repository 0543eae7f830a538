import Pintos.Threads.DonationSteps

/-!
# Priority donation: operations that recompute a priority

`lock_release` and `thread_set_priority` set the caller's own priority from what it records: its
base priority and, in `lock_release`, the recorded priorities of the locks on `held_locks`. Both
then yield. `Recomputed` is what they have in common. `init_thread` and `lock_init` bring a
thread and a lock into their first state.
-/

namespace Pintos.Threads

open Pintos.Lib

variable {page : Option ThreadRef} {k k₁ k' : Kernel} {f : Frame} {rest : List Frame}

/-- The running thread has set its own priorities, after giving up the lock `given` if there is
one. -/
structure Recomputed (k k' : Kernel) (given : Option LockRef) (rest : List Frame) : Prop where
  holder : ∀ l, k'.holder l = if given = some l then none else k.holder l
  lockValue : ∀ l, k'.lockValue l = if given = some l then 1 else k.lockValue l
  waiters : ∀ l, given ≠ some l → k'.waiters l = k.waiters l
  waiters_sub : ∀ l, ∀ t ∈ k'.waiters l, t ∈ k.waiters l
  recorded : ∀ l, given ≠ some l → k'.recorded l = k.recorded l
  recordedGiven : ∀ l, given = some l →
    k'.recorded l = foldMax k'.prio (-1) (k'.waiters l).reverse
  prio : ∀ t, t ≠ k.current → k'.prio t = k.prio t
  base : ∀ t, t ≠ k.current → k'.base t = k.base t
  live : ∀ t, k'.Live t ↔ k.Live t
  dying : ∀ t, (k'.threads t).status = .dying → (k.threads t).status = .dying
  heldLocks : ∀ t, (k'.threads t).heldLocks =
    if t = k.current then (k.threads t).heldLocks.filter (given ≠ some ·)
    else (k.threads t).heldLocks
  waitingLock : ∀ t, k'.waitingLock t = k.waitingLock t
  frames : ∀ t, (k'.threads t).frames = if t = k.current then rest else (k.threads t).frames
  awake : ∀ t ∈ k.readyList, t ∈ k'.readyList ∨ t = k'.current
  woken : ∀ l, given = some l → k'.waiters l ≠ [] → ∃ t, (t ∈ k'.readyList ∨ t = k'.current) ∧
    t ∈ k.waiters l ∧ ∀ w ∈ k'.waiters l, k.prio w ≤ k.prio t

theorem Recomputed.mem_heldLocks {given : Option LockRef} (hr : Recomputed k k' given rest)
    {t : ThreadRef} {l : LockRef} (hm : l ∈ (k'.threads t).heldLocks) :
    l ∈ (k.threads t).heldLocks ∧ (t = k.current → given ≠ some l) := by
  rw [hr.heldLocks] at hm
  split at hm
  next =>
    obtain ⟨hm, hg⟩ := List.mem_filter.mp hm
    exact ⟨hm, fun _ => of_decide_eq_true hg⟩
  next ht => exact ⟨hm, fun he => absurd he ht⟩

/-- A priority that covers the base priority and the threads queued on the locks kept, and is one
of these, is exact. -/
theorem Donated.of_recomputed {given : Option LockRef} (h : Donated k) (hk : Coherent k)
    (hf : (k.threads k.current).frames = f :: rest) (hplain : f.isReturn = false)
    (hr : Recomputed k k' given rest) (hheld : ∀ l, given = some l → k.holder l = some k.current)
    (hnonneg : 0 ≤ k'.base k.current) (hself : k'.base k.current ≤ k'.prio k.current)
    (hbound : ∀ l w, given ≠ some l → k.holder l = some k.current → w ∈ k.waiters l →
      k.prio w ≤ k'.prio k.current)
    (hattained : k'.prio k.current = k'.base k.current ∨ ∃ l w, given ≠ some l ∧
      k.holder l = some k.current ∧ w ∈ k.waiters l ∧ k.prio w = k'.prio k.current) :
    Donated k' := by
  have hnextcur : k.next k.current = some f := by
    rw [Kernel.next, hf]
    rfl
  have hnext : ∀ t, t ≠ k.current → k'.next t = k.next t := fun t ht => by
    unfold Kernel.next
    rw [hr.frames, if_neg ht]
  have hkept : ∀ {l t}, k'.holder l = some t → given ≠ some l ∧ k.holder l = some t := by
    intro l t hl
    rw [hr.holder] at hl
    split at hl
    next => cases hl
    next hg => exact ⟨hg, hl⟩
  have hwaitcur := h.stacked.waitingLock_of_plain hf hplain
  have hne : ∀ {w l}, w ∈ k.waiters l → w ≠ k.current := by
    rintro w l hw rfl
    exact hk.not_waiting l hw
  obtain ⟨hwait, hqueued, hshaped, hbehind⟩ := h.stacked.of_frames [] hf hr.frames (by simp) (by simp)
    ((hr.waitingLock _).trans hwaitcur) (fun t _ => hr.waitingLock t) hk.not_waiting
    (fun l t hm => .inl (hr.waiters_sub l t hm))
  constructor
  case exact =>
    have hlive : k'.Live = k.Live := funext fun t => propext (hr.live t)
    rw [hlive]
    refine h.exact.recompute (fun l hb => hk.not_waiting l hb)
      (fun hl => (hkept hl).2) (fun {l t} ht hl => ?_) (fun {l t w} hl => ?_)
      (fun ht => hr.prio _ ht) (fun ht => hr.base _ ht) hself
      (fun {l w} hl hb => hbound l w (hkept hl).1 (hkept hl).2 hb) (hattained.imp id ?_)
    · rw [hr.holder, if_neg]
      · exact hl
      · intro hg
        rw [hheld l hg] at hl
        exact ht (Option.some.inj hl).symm
    · unfold Kernel.Blocked
      rw [hr.waiters l (hkept hl).1]
    · rintro ⟨l, w, hg, hl, hw, hp⟩
      exact ⟨l, w, by rw [hr.holder, if_neg hg]; exact hl, hw, hp⟩
  case baseNonneg =>
    intro t ht
    by_cases hc : t = k.current
    · rw [hc]
      exact hnonneg
    · rw [hr.base t hc]
      exact h.baseNonneg ((hr.live t).mp ht)
  case recorded =>
    intro l
    by_cases hg : given = some l
    · exact hr.recordedGiven l hg
    · rw [hr.recorded l hg, hr.waiters l hg]
      refine (h.recorded l).trans (foldMax_congr fun w hw => ?_)
      exact (hr.prio w (hne (List.mem_reverse.mp hw))).symm
  case holderLive =>
    intro l t hl
    obtain ⟨hlive, hd⟩ := h.holderLive (hkept hl).2
    exact ⟨(hr.live t).mpr hlive, fun hd' => hd (hr.dying t hd')⟩
  case held =>
    intro l t hl
    rw [hr.lockValue, if_neg (hkept hl).1]
    exact h.held (hkept hl).2
  case free =>
    intro l hl
    rw [hr.holder] at hl
    rw [hr.lockValue]
    split at hl
    next hg => exact .inl (if_pos hg)
    next hg =>
      rw [if_neg hg]
      rcases h.free hl with hv | ⟨_, hn⟩
      · exact .inl hv
      · rw [hnextcur] at hn
        cases hn
        cases hplain
  case heldLocks =>
    intro t l ht hm
    obtain ⟨hm', hgiven⟩ := hr.mem_heldLocks hm
    have hl := h.heldLocks ((hr.live t).mp ht) hm'
    rw [hr.holder, if_neg]
    · exact hl
    · intro hg
      rw [hheld l hg] at hl
      cases hl
      exact hgiven rfl hg
  case waiting => exact hwait
  case queued => exact hqueued
  case shaped => exact hshaped
  case behind => exact hbehind
  case gap =>
    intro t l hg
    by_cases ht : t = k.current
    · subst ht
      rw [Kernel.next, hr.frames, if_pos rfl] at hg
      have hret := h.behind (t := k.current) (g := .lockTryAcquired l) (by
        rw [hf]
        exact List.mem_of_mem_head? hg)
      cases hret
    · rw [hnext t ht] at hg
      exact absurd (h.gap hg).1 ht
  case woken =>
    intro l hv hw
    -- waiters keep their priorities: the running thread is none of them
    have hprio : ∀ {w}, w ∈ k'.waiters l → k'.prio w = k.prio w := fun {w} hw' =>
      hr.prio w (hne (hr.waiters_sub l w hw'))
    by_cases hg : given = some l
    · obtain ⟨t, hmem, htw, hall⟩ := hr.woken l hg hw
      have ht := hne htw
      refine ⟨t, hmem, (hnext t ht).trans (h.queued htw), fun w hw' => ?_⟩
      rw [hprio hw', hr.prio t ht]
      exact hall w hw'
    · rw [hr.lockValue, if_neg hg] at hv
      have hws := hr.waiters l hg
      obtain ⟨t, hmem, hn, hall⟩ := h.woken hv (by rw [← hws]; exact hw)
      have ht : t ≠ k.current := by
        rintro rfl
        rw [hnextcur] at hn
        cases hn
        cases hplain
      refine ⟨t, hr.awake t (hmem.resolve_right ht), (hnext t ht).trans hn, fun w hw' => ?_⟩
      rw [hprio hw', hr.prio t ht]
      exact hall w (hws ▸ hw')

/-! ## `lock_release` -/

/-- The loop over `held_locks` takes a maximum. -/
theorem releasePriority_eq (l : LockRef) (t : Thread) (k : Kernel) :
    releasePriority l t k = foldMax k.recorded t.basePriority (t.heldLocks.filter (· ≠ l)) := by
  unfold releasePriority foldMax
  congr 1
  funext p l'
  unfold Kernel.recorded
  split <;> split <;> omega

/-- `lockReleased`, thread by thread. -/
theorem lockReleased_threads (l : LockRef) (k : Kernel) (t : ThreadRef) :
    (lockReleased l k).threads t =
      if t = k.current then { k.threads t with
        priority := releasePriority l (k.threads t) k
        heldLocks := (k.threads t).heldLocks.filter (· ≠ l) }
      else k.threads t := by
  unfold lockReleased
  simp only [Kernel.setLock, Kernel.modThread_threads]
  split
  next ht => rw [ht]
  next => rfl

/-- Waking a waiter of a lock and counting the lock up. -/
structure Upped (k k' : Kernel) (l : LockRef) : Prop where
  waiters : ∀ l', l' ≠ l → k'.waiters l' = k.waiters l'
  waiters_sub : ∀ t ∈ k'.waiters l, t ∈ k.waiters l
  lockValue : ∀ l', k'.lockValue l' =
    if l' = l then (k.lockValue l + 1) % 2 ^ 32 else k.lockValue l'
  holder : ∀ l', k'.holder l' = k.holder l'
  recorded : ∀ l', l' ≠ l → k'.recorded l' = k.recorded l'
  recordedSelf : k'.recorded l = k.recorded l ∧ k'.waiters l = k.waiters l ∨
    k'.recorded l = foldMax k.prio (-1) (k'.waiters l).reverse
  threads : ∀ t, SameThread (k.threads t) (k'.threads t)
  awake : ∀ t ∈ k.readyList, t ∈ k'.readyList
  woken : k'.waiters l ≠ [] →
    ∃ t ∈ k'.readyList, t ∈ k.waiters l ∧ ∀ w ∈ k'.waiters l, k.prio w ≤ k.prio t

theorem semaIncrement_lock (k : Kernel) (l l' : LockRef) :
    (semaIncrement (.lock l) k).waiters l' = k.waiters l' ∧
      (semaIncrement (.lock l) k).lockValue l' =
        if l' = l then (k.lockValue l + 1) % 2 ^ 32 else k.lockValue l' := by
  refine ⟨setSema_waiters k (.lock l) (.lock l') _ rfl, ?_⟩
  unfold Kernel.lockValue semaIncrement Kernel.setSema
  by_cases h : l' = l
  · subst h
    simp
  · simp [h]

theorem updateLockMaxPriority_locks (l l' : LockRef) (k : Kernel) :
    (updateLockMaxPriority l k).holder l' = k.holder l' ∧
      (updateLockMaxPriority l k).recorded l' =
        if l' = l then foldMax k.prio (-1) (k.waiters l).reverse else k.recorded l' := by
  unfold Kernel.holder Kernel.recorded updateLockMaxPriority Kernel.setLock
  by_cases h : l' = l
  · subst h
    simp
  · simp [h]

theorem setSema_lock_waiters (k : Kernel) (l l' : LockRef) (ws : List ThreadRef) :
    (k.setSema (.lock l) { k.semas (.lock l) with waiters := ws }).waiters l' =
        (if l' = l then ws else k.waiters l') ∧
      (k.setSema (.lock l) { k.semas (.lock l) with waiters := ws }).lockValue l' =
        k.lockValue l' := by
  unfold Kernel.waiters Kernel.lockValue Kernel.setSema
  by_cases h : l' = l
  · subst h
    simp
  · simp [h]

theorem upped_of_semaWake {l : LockRef} (hw : semaWake (.lock l) (some l) k = .ok k₁) :
    Upped k (semaIncrement (.lock l) k₁) l := by
  obtain ⟨hempty, rfl⟩ | ⟨top, k₂, hmax, hu, rfl⟩ := semaWake_eq_ok hw
  · have hw' : (semaIncrement (.lock l) k₁).waiters l = [] :=
      (semaIncrement_lock k₁ l l).1.trans hempty
    constructor
    case waiters => exact fun l' _ => (semaIncrement_lock k₁ l l').1
    case waiters_sub =>
      intro t ht
      rw [hw'] at ht
      cases ht
    case lockValue => exact fun l' => (semaIncrement_lock k₁ l l').2
    case holder => exact fun _ => rfl
    case recorded => exact fun _ _ => rfl
    case recordedSelf => exact .inl ⟨rfl, (semaIncrement_lock k₁ l l).1⟩
    case threads => exact fun _ => .refl _
    case awake => exact fun _ ht => ht
    case woken => exact fun hne => absurd hw' hne
  · -- `k₂` is `k` with `top` moved from the queue of `l` to `ready_list`
    have hsame := threadUnblock_same hu
    have hs := hsame.sameLocks
    have hprio : k₂.prio = k.prio := hsame.prio
    have hws : ∀ l', k₂.waiters l' = if l' = l then (k.waiters l).erase top else k.waiters l' :=
      fun l' => (hs.waiters l').trans (setSema_lock_waiters k l l' _).1
    have hup : ∀ l', (semaIncrement (.lock l) (updateIfLock (some l) k₂)).waiters l' =
        k₂.waiters l' := fun l' => (semaIncrement_lock (updateLockMaxPriority l k₂) l l').1
    have hready : k₂.readyList = k.readyList ++ [top] := by
      obtain ⟨_, _, rfl⟩ := threadUnblock_eq_ok hu
      rfl
    constructor
    case waiters =>
      intro l' he
      rw [hup, hws, if_neg he]
    case waiters_sub =>
      intro t ht
      rw [hup, hws, if_pos rfl] at ht
      exact List.mem_of_mem_erase ht
    case lockValue =>
      intro l'
      have hv : ∀ l', k₂.lockValue l' = k.lockValue l' := fun l' =>
        (hs.lockValue l').trans (setSema_lock_waiters k l l' _).2
      rw [← hv, ← hv]
      exact (semaIncrement_lock (updateLockMaxPriority l k₂) l l').2
    case holder =>
      intro l'
      exact (updateLockMaxPriority_locks l l' k₂).1.trans (hs.holder l')
    case recorded =>
      intro l' he
      refine (updateLockMaxPriority_locks l l' k₂).2.trans ?_
      rw [if_neg he]
      exact hs.recorded l'
    case recordedSelf =>
      right
      rw [hup, ← hprio]
      exact (updateLockMaxPriority_locks l l k₂).2.trans (if_pos rfl)
    case threads => exact hsame.thread
    case awake =>
      intro t ht
      show t ∈ k₂.readyList
      rw [hready]
      exact List.mem_append_left _ ht
    case woken =>
      intro _
      refine ⟨top, ?_, hmax.mem, fun w hw' => ?_⟩
      · show top ∈ k₂.readyList
        rw [hready]
        simp
      · rw [hup, hws, if_pos rfl] at hw'
        exact hmax.le w (List.mem_of_mem_erase hw')

/-- `lock_release` as a recomputation. -/
theorem recomputed_of_release {l : LockRef} (hk : Coherent k) (hv : k.lockValue l = 0)
    (hrec : k.recorded l = foldMax k.prio (-1) (k.waiters l).reverse)
    (hx : semaUpInternal (.lock l) (some l) (lockReleased l (k.setFrames k.current rest)) = .ok k') :
    Recomputed k k' (some l) rest ∧
      k'.prio k.current = releasePriority l (k.threads k.current) k ∧
      k'.base k.current = k.base k.current := by
  obtain ⟨k₁, hw, hy⟩ := semaUpInternal_eq_ok hx
  have hup := upped_of_semaWake hw
  have hsame := threadYield_same hy
  have hs := hsame.sameLocks
  have hquiet := quiet_semaUpInternal hx
  -- the state before the wake-up, thread by thread
  have hthreads : ∀ t, (lockReleased l (k.setFrames k.current rest)).threads t =
      if t = k.current then { k.threads t with
        priority := releasePriority l (k.threads t) k
        heldLocks := (k.threads t).heldLocks.filter (· ≠ l)
        frames := rest }
      else k.threads t := by
    intro t
    rw [lockReleased_threads]
    have hcur : (k.setFrames k.current rest).current = k.current := rfl
    rw [hcur]
    by_cases ht : t = k.current
    · subst ht
      rw [if_pos rfl, if_pos rfl, Kernel.setFrames, Kernel.modThread_self]
      rfl
    · rw [if_neg ht, if_neg ht, Kernel.setFrames, Kernel.modThread_ne _ _ ht]
  have hfinal : ∀ t, SameThread ((lockReleased l (k.setFrames k.current rest)).threads t)
      (k'.threads t) := fun t => (hup.threads t).trans (hsame.thread t)
  have hholder : ∀ l', (lockReleased l (k.setFrames k.current rest)).holder l' =
      if some l = some l' then none else k.holder l' := by
    intro l'
    unfold Kernel.holder lockReleased Kernel.setLock
    by_cases he : l' = l
    · subst he
      simp
    · simp [he, Ne.symm he, Kernel.modThread, Kernel.setFrames]
  have hrecorded : ∀ l', (lockReleased l (k.setFrames k.current rest)).recorded l' =
      k.recorded l' := by
    intro l'
    unfold Kernel.recorded lockReleased Kernel.setLock
    by_cases he : l' = l
    · subst he
      simp [Kernel.modThread, Kernel.setFrames]
    · simp [he, Kernel.modThread, Kernel.setFrames]
  have hprio₀ : ∀ t, t ≠ k.current →
      (lockReleased l (k.setFrames k.current rest)).prio t = k.prio t := by
    intro t ht
    unfold Kernel.prio
    rw [hthreads, if_neg ht]
  have hprio : ∀ t, t ≠ k.current → k'.prio t = k.prio t := fun t ht =>
    (hfinal t).priority.trans (hprio₀ t ht)
  have hne : ∀ {w l'}, w ∈ k.waiters l' → w ≠ k.current := by
    rintro w l' hw rfl
    exact hk.not_waiting l' hw
  have hsub : ∀ l', ∀ t ∈ k'.waiters l', t ∈ k.waiters l' := by
    intro l' t ht
    rw [hs.waiters] at ht
    by_cases he : l' = l
    · subst he
      exact hup.waiters_sub t ht
    · rw [hup.waiters l' he] at ht
      exact ht
  have hawake := awake_threadYield hy
  refine ⟨?_, ?_, ?_⟩
  · constructor
    case holder =>
      intro l'
      rw [hs.holder, hup.holder]
      exact hholder l'
    case lockValue =>
      intro l'
      rw [hs.lockValue, hup.lockValue]
      by_cases he : l' = l
      · subst he
        have hv' : (lockReleased l' (k.setFrames k.current rest)).lockValue l' = 0 := hv
        simp [hv']
      · rw [if_neg he, if_neg (fun hg => he (Option.some.inj hg).symm)]
        rfl
    case waiters =>
      intro l' he
      rw [hs.waiters, hup.waiters l' (fun hg => he (by rw [hg]))]
      rfl
    case waiters_sub => exact hsub
    case recorded =>
      intro l' he
      rw [hs.recorded, hup.recorded l' (fun hg => he (by rw [hg])), hrecorded]
    case recordedGiven =>
      intro l' hg
      cases hg
      have hws : k'.waiters l = (semaIncrement (.lock l) k₁).waiters l := hs.waiters l
      rw [hs.recorded, hws]
      have hstart : (semaIncrement (.lock l) k₁).recorded l =
          foldMax k.prio (-1) ((semaIncrement (.lock l) k₁).waiters l).reverse := by
        rcases hup.recordedSelf with ⟨hr, hw'⟩ | hr
        · rw [hr, hw', hrecorded]
          exact hrec
        · rw [hr]
          refine foldMax_congr fun w hw' => ?_
          exact hprio₀ w (hne (hup.waiters_sub w (List.mem_reverse.mp hw')))
      rw [hstart]
      refine foldMax_congr fun w hw' => ?_
      exact (hprio w (hne (hup.waiters_sub w (List.mem_reverse.mp hw')))).symm
    case prio => exact hprio
    case base =>
      intro t ht
      unfold Kernel.base
      rw [(hfinal t).basePriority, hthreads, if_neg ht]
    case live =>
      intro t
      unfold Kernel.Live
      rw [(hfinal t).magic, hthreads]
      split <;> rfl
    case dying =>
      intro t hd
      have hd' := hquiet.dying t hd
      rw [hthreads] at hd'
      split at hd' <;> exact hd'
    case heldLocks =>
      intro t
      rw [(hfinal t).heldLocks, hthreads]
      split
      next => simp [eq_comm]
      next => rfl
    case waitingLock =>
      intro t
      unfold Kernel.waitingLock
      rw [(hfinal t).waitingLock, hthreads]
      split <;> rfl
    case frames =>
      intro t
      rw [(hfinal t).frames, hthreads]
      split <;> rfl
    case awake => exact fun t ht => hawake t (hup.awake t ht)
    case woken =>
      intro l' hg hne'
      cases hg
      rw [hs.waiters] at hne' ⊢
      obtain ⟨t, hr, ht, hall⟩ := hup.woken hne'
      refine ⟨t, hawake t hr, ht, fun w hw' => ?_⟩
      have hle := hall w hw'
      rw [hprio₀ t (hne ht), hprio₀ w (hne (hup.waiters_sub w hw'))] at hle
      exact hle
  · show (k'.threads k.current).priority = _
    rw [(hfinal k.current).priority, hthreads, if_pos rfl]
  · unfold Kernel.base
    rw [(hfinal k.current).basePriority, hthreads, if_pos rfl]

/-- `lock_release`. The loop reads the locks on `held_locks`, which a lock taken by
`lock_try_acquire` is not on: whoever is queued on such a lock must be covered otherwise. -/
theorem Donated.of_lockRelease {l : LockRef} (h : Donated k) (hk : Coherent k)
    (hf : (k.threads k.current).frames = .lockRelease l :: rest)
    (hlisted : ∀ l' w, l' ≠ l → k.holder l' = some k.current →
      l' ∉ (k.threads k.current).heldLocks → w ∈ k.waiters l' →
      k.prio w ≤ k.base k.current ∨ ∃ l₁ ∈ (k.threads k.current).heldLocks, l₁ ≠ l ∧
        ∃ w₁ ∈ k.waiters l₁, k.prio w ≤ k.prio w₁)
    (hx : lockRelease l (k.setFrames k.current rest) = .ok k') : Donated k' := by
  obtain ⟨hl, hx⟩ := lockRelease_eq_ok hx
  have hl' : k.holder l = some k.current := hl
  have hlive : k.Live k.current := (hk.placed.cpuLive rfl).1
  obtain ⟨hr, hprio, hbase⟩ := recomputed_of_release hk (h.held hl') (h.recorded l) hx
  rw [releasePriority_eq] at hprio
  obtain ⟨hge, hall, hex⟩ := @foldMax_spec _ k.recorded
    ((k.threads k.current).heldLocks.filter (· ≠ l)) (k.threads k.current).basePriority
  rw [← hprio] at hge hall hex
  have hbase' : k'.base k.current = (k.threads k.current).basePriority := hbase
  have hnonneg : 0 ≤ k'.base k.current := hbase ▸ h.baseNonneg hlive
  have hcovered : ∀ l₁ ∈ (k.threads k.current).heldLocks, l₁ ≠ l → ∀ w ∈ k.waiters l₁,
      k.prio w ≤ k'.prio k.current := by
    intro l₁ hm hne w hw
    have hle := hall l₁ (List.mem_filter.mpr ⟨hm, by simpa using hne⟩)
    rw [h.recorded] at hle
    exact le_trans ((foldMax_spec _ _).2.1 w (List.mem_reverse.mpr hw)) hle
  refine h.of_recomputed hk hf rfl hr (fun l' hg => ?_) hnonneg (hbase' ▸ hge)
    (fun l' w hg hh hw => ?_) ?_
  · cases hg
    exact hl'
  · have hne : l' ≠ l := fun he => hg (by rw [he])
    by_cases hm : l' ∈ (k.threads k.current).heldLocks
    · exact hcovered l' hm hne w hw
    · rcases hlisted l' w hne hh hm hw with hle | ⟨l₁, hm₁, hne₁, w₁, hw₁, hle⟩
      · exact le_trans hle hge
      · exact le_trans hle (hcovered l₁ hm₁ hne₁ w₁ hw₁)
  · rcases hex with hex | ⟨l₁, hm, hex⟩
    · exact .inl (hex.trans hbase'.symm)
    · obtain ⟨hm, hne⟩ := List.mem_filter.mp hm
      rw [h.recorded] at hex
      rcases (@foldMax_spec _ k.prio (k.waiters l₁).reverse (-1)).2.2 with hv | ⟨w, hw, hv⟩
      · rw [hv] at hex
        rw [hbase'] at hnonneg
        omega
      · refine .inr ⟨l₁, w, fun hg => ?_, h.heldLocks hlive hm, List.mem_reverse.mp hw,
          hv.trans hex⟩
        cases hg
        simp at hne

/-! ## `thread_set_priority` -/

/-- `thread_set_priority` as a recomputation. -/
theorem recomputed_of_setPriority {p : Int}
    (hx : threadSetPriority p (k.setFrames k.current rest) = .ok k') :
    Recomputed k k' none rest ∧ k'.prio k.current = newPriority (k.threads k.current) p ∧
      k'.base k.current = p := by
  have hy := threadSetPriority_eq_ok hx
  have hsame := threadYield_same hy
  have hs := hsame.sameLocks
  have hawake := awake_threadYield hy
  have hquiet := quiet_threadYield hy
  have hthreads : ∀ t, ((k.setFrames k.current rest).modThread k.current fun th => { th with
      priority := newPriority (k.threads k.current) p, basePriority := p }).threads t =
      if t = k.current then { k.threads t with
        priority := newPriority (k.threads t) p, basePriority := p, frames := rest }
      else k.threads t := by
    intro t
    by_cases ht : t = k.current
    · subst ht
      rw [if_pos rfl, Kernel.modThread_self, Kernel.setFrames, Kernel.modThread_self]
    · rw [if_neg ht, Kernel.modThread_ne _ _ ht, Kernel.setFrames, Kernel.modThread_ne _ _ ht]
  have hnew : newPriority ((k.setFrames k.current rest).threads
      (k.setFrames k.current rest).current) p = newPriority (k.threads k.current) p := by
    unfold Kernel.setFrames
    have hcur : (k.modThread k.current fun th => { th with frames := rest }).current =
      k.current := rfl
    rw [hcur, Kernel.modThread_self]
    rfl
  rw [hnew] at hsame hquiet
  have hcur₀ : (k.setFrames k.current rest).current = k.current := rfl
  rw [hcur₀] at hsame hquiet
  have hfinal : ∀ t, SameThread (if t = k.current then { k.threads t with
      priority := newPriority (k.threads t) p, basePriority := p, frames := rest }
      else k.threads t) (k'.threads t) := by
    intro t
    rw [← hthreads]
    exact hsame.thread t
  refine ⟨?_, ?_, ?_⟩
  · constructor
    case holder => exact fun l => hs.holder l
    case lockValue => exact fun l => hs.lockValue l
    case waiters => exact fun l _ => hs.waiters l
    case waiters_sub =>
      intro l t ht
      rw [hs.waiters] at ht
      exact ht
    case recorded => exact fun l _ => hs.recorded l
    case recordedGiven => exact fun l hg => by cases hg
    case prio =>
      intro t ht
      have hp' := (hfinal t).priority
      rw [if_neg ht] at hp'
      exact hp'
    case base =>
      intro t ht
      have hp' := (hfinal t).basePriority
      rw [if_neg ht] at hp'
      exact hp'
    case live =>
      intro t
      unfold Kernel.Live
      rw [(hfinal t).magic]
      split <;> rfl
    case dying =>
      intro t hd
      have hd' := hquiet.dying t hd
      rw [hthreads] at hd'
      split at hd' <;> exact hd'
    case heldLocks =>
      intro t
      rw [(hfinal t).heldLocks]
      split
      next => simp
      next => rfl
    case waitingLock =>
      intro t
      unfold Kernel.waitingLock
      rw [(hfinal t).waitingLock]
      split <;> rfl
    case frames =>
      intro t
      rw [(hfinal t).frames]
      split <;> rfl
    case awake => exact hawake
    case woken => exact fun l hg => by cases hg
  · have hp' := (hfinal k.current).priority
    rw [if_pos rfl] at hp'
    exact hp'
  · have hb := (hfinal k.current).basePriority
    rw [if_pos rfl] at hb
    exact hb

/-- `thread_set_priority`. It keeps a donated priority when that exceeds the base priority; when
the two are equal it takes the new priority, which must then cover the donors itself. -/
theorem Donated.of_threadSetPriority {p : Int} (h : Donated k) (hk : Coherent k)
    (hf : (k.threads k.current).frames = .threadSetPriority p :: rest) (hp : 0 ≤ p)
    (hequal : k.prio k.current ≤ k.base k.current → ∀ l w, k.holder l = some k.current →
      w ∈ k.waiters l → k.prio w ≤ p)
    (hx : threadSetPriority p (k.setFrames k.current rest) = .ok k') : Donated k' := by
  obtain ⟨hr, hprio, hbase⟩ := recomputed_of_setPriority hx
  have hlive : k.Live k.current := (hk.placed.cpuLive rfl).1
  refine h.of_recomputed hk hf rfl hr (fun l hg => by cases hg) (hbase ▸ hp) ?_
    (fun l w _ hl hw => ?_) ?_
  all_goals rw [hprio]
  all_goals unfold newPriority
  · rw [hbase]
    split
    · split <;> omega
    · exact le_refl _
  · have hle : k.prio w ≤ k.prio k.current := h.exact.bound hl hw
    have hle' : k.prio w ≤ (k.threads k.current).priority := hle
    split
    next => split <;> omega
    next hngt => exact hequal (not_lt.mp hngt) l w hl hw
  · rw [hbase]
    split
    next hgt =>
      split
      next hgt' =>
        -- a donated priority is kept: somebody queued has it
        right
        rcases h.exact.attained k.current hlive with hb | ⟨l, w, hl, hw, hpw⟩
        · have : (k.threads k.current).priority = (k.threads k.current).basePriority := hb
          omega
        · exact ⟨l, w, by simp, hl, hw, hpw⟩
      next => exact .inl rfl
    next => exact .inl rfl

/-! ## `init_thread` and `lock_init` -/

/-- A thread on a page that held none brings its own priority and nothing else. -/
theorem Donated.of_fresh {t : ThreadRef} {p : Int} (h : Donated k) (hk : Coherent k)
    (hdead : ¬ k.Live t) (hp : 0 ≤ p) :
    Donated ({ k with allList := k.allList ++ [t] }.modThread t fun _ =>
      bootThread 0 p 0 .blocked []) := by
  have hframes₀ : (k.threads t).frames = [] :=
    hk.framed.dead t (by simpa [Kernel.Live] using hdead)
  have hthreads : ∀ u, ({ k with allList := k.allList ++ [t] }.modThread t fun _ =>
      bootThread 0 p 0 .blocked []).threads u =
      if u = t then bootThread 0 p 0 .blocked [] else k.threads u :=
    fun u => Kernel.modThread_threads _ _ _ _
  generalize hk₁ : ({ k with allList := k.allList ++ [t] }.modThread t fun _ =>
      bootThread 0 p 0 .blocked []) = k₁ at hthreads ⊢
  have hsemas : k₁.semas = k.semas := by rw [← hk₁]; rfl
  have hlocks : k₁.locks = k.locks := by rw [← hk₁]; rfl
  have hcurrent : k₁.current = k.current := by rw [← hk₁]; rfl
  have htail : k₁.scheduleTail = k.scheduleTail := by rw [← hk₁]; rfl
  have hready : k₁.readyList = k.readyList := by rw [← hk₁]; rfl
  have hwaiters : ∀ l, k₁.waiters l = k.waiters l := fun l => by unfold Kernel.waiters; rw [hsemas]
  have hvalue : ∀ l, k₁.lockValue l = k.lockValue l := fun l => by
    unfold Kernel.lockValue
    rw [hsemas]
  have hholder : ∀ l, k₁.holder l = k.holder l := fun l => by unfold Kernel.holder; rw [hlocks]
  have hrecorded : ∀ l, k₁.recorded l = k.recorded l := fun l => by
    unfold Kernel.recorded
    rw [hlocks]
  have hother : ∀ u, u ≠ t → k₁.threads u = k.threads u := fun u hu => by
    rw [hthreads, if_neg hu]
  have hself : k₁.threads t = bootThread 0 p 0 .blocked [] := by rw [hthreads, if_pos rfl]
  have hprio : ∀ u, u ≠ t → k₁.prio u = k.prio u := fun u hu => by
    unfold Kernel.prio
    rw [hother u hu]
  have hframes : ∀ u, (k₁.threads u).frames = (k.threads u).frames := by
    intro u
    by_cases hu : u = t
    · rw [hu, hself, hframes₀]
      rfl
    · rw [hother u hu]
  have hnext : ∀ u, k₁.next u = k.next u := fun u => by
    unfold Kernel.next
    rw [hframes]
  -- nobody has dealt with the new thread yet
  have hnotHolder : ∀ {l u}, k.holder l = some u → u ≠ t := by
    rintro l u hl rfl
    exact hdead (h.holderLive hl).1
  have hnotQueued : ∀ {l u}, u ∈ k.waiters l → u ≠ t := by
    rintro l u hu rfl
    have hq : u ∈ k.queue (.sema (.lock l)) := hu
    exact hdead (hk.placed.queued hq).1
  constructor
  case exact =>
    refine ⟨fun u hu => ?_, fun {l u w} hl hb => ?_, fun u hu => ?_⟩
    · by_cases he : u = t
      · rw [he, Kernel.base, Kernel.prio, hself]
        exact le_refl _
      · rw [hprio u he, Kernel.base, hother u he]
        rw [Kernel.Live, hother u he] at hu
        exact h.exact.base_le u hu
    · rw [hholder] at hl
      have hb' : w ∈ k.waiters l := hwaiters l ▸ hb
      rw [hprio u (hnotHolder hl), hprio w (hnotQueued hb')]
      exact h.exact.bound hl hb'
    · by_cases he : u = t
      · left
        rw [he, Kernel.base, Kernel.prio, hself]
        rfl
      · rw [hprio u he, Kernel.base, hother u he]
        rw [Kernel.Live, hother u he] at hu
        refine (h.exact.attained u hu).imp id ?_
        rintro ⟨l, w, hl, hb, hpw⟩
        refine ⟨l, w, (hholder l).trans hl, ?_, (hprio w (hnotQueued hb)).trans hpw⟩
        unfold Kernel.Blocked
        rw [hwaiters]
        exact hb
  case baseNonneg =>
    intro u hu
    by_cases he : u = t
    · rw [he, Kernel.base, hself]
      exact hp
    · rw [Kernel.base, hother u he]
      rw [Kernel.Live, hother u he] at hu
      exact h.baseNonneg hu
  case recorded =>
    intro l
    rw [hrecorded, hwaiters]
    refine (h.recorded l).trans (foldMax_congr fun w hw => ?_)
    exact (hprio w (hnotQueued (List.mem_reverse.mp hw))).symm
  case holderLive =>
    intro l u hl
    rw [hholder] at hl
    rw [Kernel.Live, hother u (hnotHolder hl)]
    exact h.holderLive hl
  case held =>
    intro l u hl
    rw [hholder] at hl
    rw [hvalue]
    exact h.held hl
  case free =>
    intro l hl
    rw [hholder] at hl
    rw [hvalue, hcurrent, hnext]
    exact h.free hl
  case heldLocks =>
    intro u l hu hm
    by_cases he : u = t
    · rw [he, hself] at hm
      cases hm
    · rw [Kernel.Live, hother u he] at hu
      rw [hother u he] at hm
      rw [hholder]
      exact h.heldLocks hu hm
  case waiting =>
    intro u
    rw [hnext]
    by_cases he : u = t
    · rw [he, Kernel.waitingLock, hself, Kernel.next, hframes₀]
      rfl
    · rw [Kernel.waitingLock, hother u he]
      exact h.waiting u
  case queued =>
    intro u l hu
    rw [hwaiters] at hu
    rw [hnext]
    exact h.queued hu
  case shaped =>
    intro u g hg
    rw [hframes] at hg
    exact h.shaped hg
  case behind =>
    intro u g hg
    rw [hframes] at hg
    exact h.behind hg
  case gap =>
    intro u l hg
    rw [hnext] at hg
    obtain ⟨hc, hn, hl, hv, hall⟩ := h.gap hg
    rw [hcurrent, htail, hholder, hvalue, hwaiters]
    have hne : u ≠ t := by
      rintro rfl
      exact hdead (hc ▸ (hk.placed.cpuLive rfl).1)
    refine ⟨hc, hn, hl, hv, fun w hw => ?_⟩
    rw [hprio u hne, hprio w (hnotQueued hw)]
    exact hall w hw
  case woken =>
    intro l hv hw
    rw [hvalue] at hv
    rw [hwaiters] at hw ⊢
    obtain ⟨u, hmem, hn, hall⟩ := h.woken hv hw
    have hne : u ≠ t := by
      rintro rfl
      rcases hmem with hmem | hc
      · have hq : u ∈ k.queue .ready := hmem
        exact hdead (hk.placed.queued hq).1
      · exact hdead (hc ▸ (hk.placed.cpuLive rfl).1)
    rw [hready, hcurrent]
    refine ⟨u, hmem, (hnext u).trans hn, fun w hw' => ?_⟩
    rw [hprio u hne, hprio w (hnotQueued hw')]
    exact hall w hw'

/-- `lock_init` on a lock that is not in use writes what is there. -/
theorem sameLocks_lockInit {l : LockRef} (hw : k.waiters l = []) (hh : k.holder l = none)
    (hv : k.lockValue l = 1) (hrec : k.recorded l = -1) : SameLocks k (lockInit l k) := by
  refine .of_eq (fun _ => rfl) (fun l' => ?_) (fun l' => ?_)
  · by_cases he : l' = l
    · subst he
      have hrec' : (k.locks l').maxWaiterPriority = -1 := hrec
      have hh' : (k.locks l').holder = none := hh
      simp only [lockInit, semaInit, Kernel.setSema, Kernel.setLock, Function.update_self]
      rw [← hrec', ← hh']
    · exact Function.update_of_ne he _ _
  · by_cases he : l' = l
    · subst he
      have hw' : (k.semas (.lock l')).waiters = [] := hw
      have hv' : (k.semas (.lock l')).value = 1 := hv
      simp only [lockInit, semaInit, Kernel.setSema, Kernel.setLock, Function.update_self]
      rw [← hw', ← hv']
    · have hne : SemaRef.lock l' ≠ SemaRef.lock l := by
        intro hg
        cases hg
        exact he rfl
      exact Function.update_of_ne hne _ _

end Pintos.Threads
