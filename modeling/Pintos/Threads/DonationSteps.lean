import Pintos.Threads.Donation

/-!
# Priority donation: the lock operations

What `lock_acquire`, `lock_try_acquire`, `lock_release`, `thread_set_priority` and `init_thread`
do to the donation invariant. Each operation is first brought to the fields it changes
(`Taken`, `Joined`, ...), then to the matching law of the library. Where the code does not keep
the invariant by itself, the law's side condition is a hypothesis here.
-/

namespace Pintos.Threads

open Pintos.Lib

variable {page : Option ThreadRef} {k k₁ k' : Kernel} {f : Frame} {rest : List Frame}

/-! ## The walk -/

/-- A donation gives the holder the donor's priority. -/
theorem donateTo_prio (k : Kernel) (cur : ThreadRef) (l : LockRef) (t u : ThreadRef) :
    (k.donateTo cur l t).prio u = if u = t then k.prio cur else k.prio u := by
  unfold Kernel.prio Kernel.donateTo Kernel.setPriority
  rw [Kernel.modThread_threads]
  split <;> rfl

/-- A donation is recorded at the lock. -/
theorem donateTo_recorded (k : Kernel) (cur : ThreadRef) (l l' : LockRef) (t : ThreadRef) :
    (k.donateTo cur l t).recorded l' = if l' = l then k.prio cur else k.recorded l' := by
  unfold Kernel.recorded Kernel.donateTo Kernel.setPriority Kernel.modThread Kernel.setLock
  by_cases h : l' = l
  · subst h
    simp
  · simp [h]

/-- A donation changes no holder. -/
theorem Raised.holder_eq (h : Raised k k') : k'.holder = k.holder := funext h.holder

/-- A donation does not change what anybody waits for. -/
theorem Raised.waitingLock_eq (h : Raised k k') : k'.waitingLock = k.waitingLock := by
  funext t
  unfold Kernel.waitingLock
  rw [h.threads t]

/-- The walk raises the holders on the chain, all of lower priority, to the donor's priority,
and records it with the locks it passes. -/
theorem donate_spec {cur : ThreadRef} : ∀ (fuel : Nat) {lo : Option LockRef} {k k' : Kernel},
    donate cur fuel lo k = .ok k' →
      (∀ u, OnChain k.holder k.waitingLock lo u → k.prio u < k.prio cur ∧ k'.prio u = k.prio cur) ∧
      (∀ u, ¬ OnChain k.holder k.waitingLock lo u → k'.prio u = k.prio u) ∧
      (∀ l, Passes k.holder k.waitingLock lo l → k'.recorded l = k.prio cur) ∧
      (∀ l, ¬ Passes k.holder k.waitingLock lo l → k'.recorded l = k.recorded l)
  | fuel, none, k, k', h => by
    unfold donate at h
    cases h
    refine ⟨fun u hu => ?_, fun _ _ => rfl, fun l hl => ?_, fun _ _ => rfl⟩
    · cases hu
    · cases hl
  | fuel, some l, k, k', h => by
    obtain ⟨hfree, rfl⟩ | ⟨t, n, hl, rfl, _, hlt, h⟩ := donate_eq_ok h
    · refine ⟨fun u hu => ?_, fun _ _ => rfl, fun l' hl' => ?_, fun _ _ => rfl⟩
      · cases hu with
        | here ht => rw [hfree] at ht; cases ht
        | there ht _ => rw [hfree] at ht; cases ht
      · cases hl' with
        | here ht => rw [hfree] at ht; cases ht
        | there ht _ => rw [hfree] at ht; cases ht
    · have hr := raised_donateTo k cur l t
      have hne : cur ≠ t := by
        rintro rfl
        exact lt_irrefl _ hlt
      obtain ⟨hup, hrest, hpass, hkeep⟩ := donate_spec n h
      rw [hr.holder_eq, hr.waitingLock_eq] at hup hrest hpass hkeep
      simp only [donateTo_prio, donateTo_recorded, if_neg hne] at hup hrest hpass hkeep
      have hwt : (k.threads t).waitingLock = k.waitingLock t := rfl
      rw [hwt] at hup hrest hpass hkeep
      -- the walk does not come back to `t`: it would find it at the donor's priority
      have honce : ¬ OnChain k.holder k.waitingLock (k.waitingLock t) t := fun hc => by
        have := (hup t hc).1
        rw [if_pos rfl] at this
        exact lt_irrefl _ this
      refine ⟨fun u hu => ?_, fun u hu => ?_, fun l' hl' => ?_, fun l' hl' => ?_⟩
      · cases hu with
        | here ht =>
          rw [hl] at ht
          cases ht
          refine ⟨hlt, ?_⟩
          rw [hrest t honce, if_pos rfl]
        | there ht hc =>
          rw [hl] at ht
          cases ht
          have hut : u ≠ t := by
            rintro rfl
            exact honce hc
          have hu' := hup u hc
          rw [if_neg hut] at hu'
          exact hu'
      · have hut : u ≠ t := by
          rintro rfl
          exact hu (.here hl)
        rw [hrest u fun hc => hu (.there hl hc), if_neg hut]
      · by_cases hp : Passes k.holder k.waitingLock (k.waitingLock t) l'
        · exact hpass l' hp
        · rw [hkeep l' hp]
          cases hl' with
          | here _ => rw [if_pos rfl]
          | there ht hp' =>
            rw [hl] at ht
            cases ht
            exact absurd hp' hp
      · have hll : l' ≠ l := by
          rintro rfl
          exact hl' (.here hl)
        rw [hkeep l' fun hp => hl' (.there hl hp), if_neg hll]

/-! ## Stacks -/

/-- What stacks and `waiting_lock` have to do with the queues of the locks. -/
structure Stacked (k : Kernel) : Prop where
  waiting : ∀ t, k.waitingLock t = (k.next t).bind Frame.awaits
  queued : ∀ {t l}, t ∈ k.waiters l → k.next t = some (.awaiting l)
  shaped : ∀ {t g}, g ∈ (k.threads t).frames → g.Shaped
  behind : ∀ {t g}, g ∈ (k.threads t).frames.tail → g.isReturn = false

theorem Donated.stacked (h : Donated k) : Stacked k := ⟨h.waiting, h.queued, h.shaped, h.behind⟩

/-- Code outside the lock operations waits for no lock. -/
theorem Stacked.waitingLock_of_plain (h : Stacked k)
    (hf : (k.threads k.current).frames = f :: rest) (hret : f.isReturn = false) :
    k.waitingLock k.current = none := by
  rw [h.waiting, Kernel.next, hf]
  exact Frame.awaits_of_plain hret

/-- The running thread has run one frame, and put `fs` in its place. -/
theorem Stacked.of_frames (h : Stacked k) (fs : List Frame)
    (hf : (k.threads k.current).frames = f :: rest)
    (hframes : ∀ t, (k'.threads t).frames =
      if t = k.current then fs ++ rest else (k.threads t).frames)
    (hshaped : ∀ g ∈ fs, g.Shaped) (htail : ∀ g ∈ fs.tail, g.isReturn = false)
    (hcur : k'.waitingLock k.current = fs.head?.bind Frame.awaits)
    (hother : ∀ t, t ≠ k.current → k'.waitingLock t = k.waitingLock t)
    (hnot : ∀ l, k.current ∉ k.waiters l)
    (hwaiters : ∀ l t, t ∈ k'.waiters l →
      t ∈ k.waiters l ∨ (t = k.current ∧ fs.head? = some (.awaiting l))) : Stacked k' := by
  have hrest : ∀ g ∈ rest, g.isReturn = false := fun g hg => h.behind (t := k.current) (by
    rw [hf]
    exact hg)
  have hself : (k'.threads k.current).frames = fs ++ rest := by rw [hframes, if_pos rfl]
  have hsame : ∀ t, t ≠ k.current → (k'.threads t).frames = (k.threads t).frames := fun t ht => by
    rw [hframes, if_neg ht]
  have hnext : ∀ t, t ≠ k.current → k'.next t = k.next t := fun t ht => by
    unfold Kernel.next
    rw [hsame t ht]
  refine ⟨fun t => ?_, fun {t l} ht => ?_, fun {t g} hg => ?_, fun {t g} hg => ?_⟩
  · by_cases ht : t = k.current
    · subst ht
      rw [hcur, Kernel.next, hself]
      cases fs with
      | cons g gs => rfl
      | nil =>
        cases rest with
        | nil => rfl
        | cons g gs =>
          exact (Frame.awaits_of_plain (hrest g List.mem_cons_self)).symm
    · rw [hother t ht, hnext t ht]
      exact h.waiting t
  · rcases hwaiters l t ht with ht | ⟨rfl, hhead⟩
    · have hne : t ≠ k.current := fun he => hnot l (he ▸ ht)
      rw [hnext t hne]
      exact h.queued ht
    · rw [Kernel.next, hself]
      cases fs with
      | nil => cases hhead
      | cons g gs => exact hhead
  · by_cases ht : t = k.current
    · subst ht
      rw [hself] at hg
      rcases List.mem_append.mp hg with hg | hg
      · exact hshaped g hg
      · exact h.shaped (t := k.current) (by
          rw [hf]
          exact List.mem_cons_of_mem _ hg)
    · rw [hsame t ht] at hg
      exact h.shaped hg
  · by_cases ht : t = k.current
    · subst ht
      rw [hself] at hg
      cases fs with
      | nil => exact hrest g (List.mem_of_mem_tail hg)
      | cons g' gs =>
        rcases List.mem_append.mp hg with hg | hg
        · exact htail g hg
        · exact hrest g hg
    · rw [hsame t ht] at hg
      exact h.behind hg

/-- A thread on the CPU is queued on no lock. -/
theorem Coherent.not_waiting (h : Coherent k) (l : LockRef) : k.current ∉ k.waiters l := by
  intro hm
  have hm' : k.current ∈ k.queue (.sema (.lock l)) := hm
  exact h.placed.notCpu hm' rfl

/-! ## Taking a lock -/

/-- The running thread has taken the lock `l`; `held` is what its `held_locks` has become. -/
structure Taken (k k' : Kernel) (l : LockRef) (held : List LockRef) (rest : List Frame) :
    Prop where
  holder : ∀ l', k'.holder l' = if l' = l then some k.current else k.holder l'
  recorded : ∀ l', k'.recorded l' = k.recorded l'
  waiters : ∀ l', k'.waiters l' = k.waiters l'
  lockValue : ∀ l', k'.lockValue l' = if l' = l then 0 else k.lockValue l'
  prio : ∀ t, k'.prio t = k.prio t
  base : ∀ t, k'.base t = k.base t
  live : ∀ t, k'.Live t ↔ k.Live t
  status : ∀ t, (k'.threads t).status = (k.threads t).status
  heldLocks : ∀ t, (k'.threads t).heldLocks = if t = k.current then held else (k.threads t).heldLocks
  waitingSelf : k'.waitingLock k.current = none
  waitingLock : ∀ t, t ≠ k.current → k'.waitingLock t = k.waitingLock t
  frames : ∀ t, (k'.threads t).frames = if t = k.current then rest else (k.threads t).frames
  readyList : k'.readyList = k.readyList
  current : k'.current = k.current

/-- Taking a free lock keeps the invariant when nobody queued on it is more important. -/
theorem Donated.of_taken {l : LockRef} (h : Donated k) (held : List LockRef) (hk : Coherent k)
    (hf : (k.threads k.current).frames = f :: rest) (ht : Taken k k' l held rest)
    (hfree : k.holder l = none)
    (hgap : ∀ l', k.next k.current = some (.lockTryAcquired l') → l' = l)
    (hawait : ∀ l', k.next k.current = some (.awaiting l') → l' = l)
    (hle : ∀ w ∈ k.waiters l, k.prio w ≤ k.prio k.current)
    (hheld : ∀ l' ∈ held, l' = l ∨ l' ∈ (k.threads k.current).heldLocks) : Donated k' := by
  have hother : ∀ {l'}, l' ≠ l → k'.holder l' = k.holder l' := fun hne => by
    rw [ht.holder, if_neg hne]
  have hself : k'.holder l = some k.current := by rw [ht.holder, if_pos rfl]
  have hprio : k'.prio = k.prio := funext ht.prio
  have hnext : ∀ t, t ≠ k.current → k'.next t = k.next t := fun t htc => by
    unfold Kernel.next
    rw [ht.frames, if_neg htc]
  obtain ⟨hwait, hqueued, hshaped, hbehind⟩ := h.stacked.of_frames [] hf ht.frames (by simp) (by simp)
    ht.waitingSelf ht.waitingLock hk.not_waiting (fun l' t hm => .inl (ht.waiters l' ▸ hm))
  have hcurnext : ∀ g, k'.next k.current = some g → g.isReturn = false := by
    intro g hg
    rw [Kernel.next, ht.frames, if_pos rfl] at hg
    exact h.behind (t := k.current) (by
      rw [hf]
      exact List.mem_of_mem_head? hg)
  constructor
  case exact =>
    have hx := h.exact.take hfree (fun {w} hw => hle w hw) hself hother
    have hblocked : k'.Blocked = k.Blocked := by
      funext t l'
      unfold Kernel.Blocked
      rw [ht.waiters]
    have hbase : k'.base = k.base := funext ht.base
    have hlive : k'.Live = k.Live := funext fun t => propext (ht.live t)
    rw [hblocked, hprio, hbase, hlive]
    exact hx
  case baseNonneg =>
    intro t hl
    rw [ht.base]
    exact h.baseNonneg ((ht.live t).mp hl)
  case recorded =>
    intro l'
    rw [ht.recorded, ht.waiters, hprio]
    exact h.recorded l'
  case holderLive =>
    intro l' t hl'
    rw [ht.live, ht.status]
    by_cases he : l' = l
    · rw [he, hself] at hl'
      rw [← Option.some.inj hl']
      exact ⟨(hk.placed.cpuLive rfl).1, (hk.placed.cpuLive rfl).2.1⟩
    · rw [hother he] at hl'
      exact h.holderLive hl'
  case held =>
    intro l' t hl'
    rw [ht.lockValue]
    split
    next => rfl
    next he =>
      rw [hother he] at hl'
      exact h.held hl'
  case free =>
    intro l' hl'
    have he : l' ≠ l := by
      rintro rfl
      rw [hself] at hl'
      cases hl'
    rw [hother he] at hl'
    rw [ht.lockValue, if_neg he]
    rcases h.free hl' with hv | ⟨_, hg⟩
    · exact .inl hv
    · exact absurd (hgap l' hg) he
  case heldLocks =>
    intro t l' hl hm
    rw [ht.live] at hl
    rw [ht.heldLocks] at hm
    rw [ht.holder]
    split at hm
    next htc =>
      subst htc
      split
      next => rfl
      next he => exact h.heldLocks hl ((hheld l' hm).resolve_left he)
    next htc =>
      split
      next he =>
        have := h.heldLocks hl hm
        rw [he, hfree] at this
        cases this
      next => exact h.heldLocks hl hm
  case waiting => exact hwait
  case queued => exact hqueued
  case shaped => exact hshaped
  case behind => exact hbehind
  case gap =>
    intro t l' hg
    by_cases htc : t = k.current
    · subst htc
      cases hcurnext _ hg
    · rw [hnext t htc] at hg
      exact absurd (h.gap hg).1 htc
  case woken =>
    intro l' hv hw
    have he : l' ≠ l := by
      rintro rfl
      rw [ht.lockValue, if_pos rfl] at hv
      cases hv
    rw [ht.lockValue, if_neg he] at hv
    rw [ht.waiters] at hw ⊢
    obtain ⟨t, hmem, hn, hall⟩ := h.woken hv hw
    have htc : t ≠ k.current := by
      rintro rfl
      exact he (hawait l' hn)
    rw [ht.readyList, ht.current, hprio]
    exact ⟨t, hmem, (hnext t htc).trans hn, hall⟩

/-- The threads queued on a free lock are no more important than a thread that can take it:
one of those woken is still to run, and it is not ahead of the running thread. -/
theorem Donated.waiters_le {l : LockRef} (h : Donated k)
    (htop : ∀ t ∈ k.readyList, k.prio t ≤ k.prio k.current) (hv : k.lockValue l = 1) :
    ∀ w ∈ k.waiters l, k.prio w ≤ k.prio k.current := by
  intro w hw
  obtain ⟨t, hmem, _, hall⟩ := h.woken hv (List.ne_nil_of_mem hw)
  rcases hmem with hmem | rfl
  · exact le_trans (hall w hw) (htop t hmem)
  · exact hall w hw

/-- A lock that can be taken has no holder. -/
theorem Donated.free_of_value {l : LockRef} (h : Donated k) (hv : k.lockValue l ≠ 0) :
    k.holder l = none ∧ k.lockValue l = 1 := by
  have hnone : k.holder l = none := by
    cases hl : k.holder l with
    | none => rfl
    | some t => exact absurd (h.held hl) hv
  refine ⟨hnone, ?_⟩
  rcases h.free hnone with hv' | ⟨hv', _⟩
  · exact hv'
  · exact absurd hv' hv

/-- A lock whose value is zero is held, outside the gap in `lock_try_acquire`. -/
theorem Donated.held_of_value {l : LockRef} (h : Donated k) (hv : k.lockValue l = 0)
    (hgap : k.next k.current ≠ some (.lockTryAcquired l)) : ∃ t, k.holder l = some t := by
  cases hl : k.holder l with
  | some t => exact ⟨t, rfl⟩
  | none =>
    rcases h.free hl with hv' | ⟨_, hg⟩
    · rw [hv] at hv'
      cases hv'
    · exact absurd hg hgap

/-! ## Waiting for a lock -/

/-- The running thread has joined the queue of the lock `l` and left the CPU. -/
structure Joined (k k' : Kernel) (l : LockRef) (rest : List Frame) : Prop where
  holder : ∀ l', k'.holder l' = k.holder l'
  lockValue : ∀ l', k'.lockValue l' = k.lockValue l'
  waiters : ∀ l', k'.waiters l' = if l' = l then k.waiters l' ++ [k.current] else k.waiters l'
  recorded : k'.recorded l = foldMax k'.prio (-1) (k'.waiters l).reverse
  base : ∀ t, k'.base t = k.base t
  live : ∀ t, k'.Live t ↔ k.Live t
  dying : ∀ t, (k'.threads t).status = .dying → (k.threads t).status = .dying
  heldLocks : ∀ t, (k'.threads t).heldLocks = (k.threads t).heldLocks
  waitingSelf : k'.waitingLock k.current = some l
  waitingLock : ∀ t, t ≠ k.current → k'.waitingLock t = k.waitingLock t
  frames : ∀ t, (k'.threads t).frames =
    if t = k.current then .awaiting l :: rest else (k.threads t).frames
  awake : ∀ t ∈ k.readyList, t ∈ k'.readyList ∨ t = k'.current

/-- Who joins the waiters of a lock is blocked on it, as those before. -/
theorem Joined.blocked {l : LockRef} (hj : Joined k k' l rest) {w : ThreadRef} {l' : LockRef} :
    k'.Blocked w l' ↔ k.Blocked w l' ∨ (w = k.current ∧ l' = l) := by
  unfold Kernel.Blocked
  rw [hj.waiters]
  by_cases he : l' = l
  · simp [he]
  · simp [he]

/-- Joining the queue of a held lock keeps the invariant, given exactness and what the other
locks record. -/
theorem Donated.of_joined {l : LockRef} {X : ThreadRef} (h : Donated k) (hk : Coherent k)
    (hf : (k.threads k.current).frames = f :: rest) (hj : Joined k k' l rest)
    (hl : k.holder l = some X)
    (hgap : ∀ l', k.next k.current ≠ some (.lockTryAcquired l'))
    (hawait : ∀ l', k.next k.current = some (.awaiting l') → l' = l)
    (hexact : Exact k'.holder k'.Blocked k'.prio k'.base k'.Live)
    (hrecorded : ∀ l', l' ≠ l → k'.recorded l' = foldMax k'.prio (-1) (k.waiters l').reverse)
    (hup : ∀ t, k.prio t ≤ k'.prio t)
    (hsame : ∀ l' w, k.holder l' = none → w ∈ k.waiters l' → k'.prio w = k.prio w) :
    Donated k' := by
  have hnext : ∀ t, t ≠ k.current → k'.next t = k.next t := fun t htc => by
    unfold Kernel.next
    rw [hj.frames, if_neg htc]
  have hself : k'.next k.current = some (.awaiting l) := by
    rw [Kernel.next, hj.frames, if_pos rfl]
    rfl
  obtain ⟨hwait, hqueued, hshaped, hbehind⟩ := h.stacked.of_frames [.awaiting l] hf hj.frames
    (fun g hg => by rw [List.mem_singleton.mp hg]; rfl) (by simp) hj.waitingSelf hj.waitingLock
    hk.not_waiting (fun l' t hm => by
      rcases hj.blocked.mp hm with hm | ⟨ht, hl'⟩
      · exact .inl hm
      · exact .inr ⟨ht, by rw [hl']; rfl⟩)
  constructor
  case exact => exact hexact
  case baseNonneg =>
    intro t ht
    rw [hj.base]
    exact h.baseNonneg ((hj.live t).mp ht)
  case recorded =>
    intro l'
    by_cases he : l' = l
    · rw [he]
      exact hj.recorded
    · rw [hj.waiters, if_neg he]
      exact hrecorded l' he
  case holderLive =>
    intro l' t hl'
    rw [hj.holder] at hl'
    obtain ⟨hlive, hd⟩ := h.holderLive hl'
    exact ⟨(hj.live t).mpr hlive, fun hd' => hd (hj.dying t hd')⟩
  case held =>
    intro l' t hl'
    rw [hj.holder] at hl'
    rw [hj.lockValue]
    exact h.held hl'
  case free =>
    intro l' hl'
    rw [hj.holder] at hl'
    rw [hj.lockValue]
    rcases h.free hl' with hv | ⟨_, hg⟩
    · exact .inl hv
    · exact absurd hg (hgap l')
  case heldLocks =>
    intro t l' ht hm
    rw [hj.heldLocks] at hm
    rw [hj.holder]
    exact h.heldLocks ((hj.live t).mp ht) hm
  case waiting => exact hwait
  case queued => exact hqueued
  case shaped => exact hshaped
  case behind => exact hbehind
  case gap =>
    intro t l' hg
    by_cases htc : t = k.current
    · rw [htc, hself] at hg
      cases hg
    · rw [hnext t htc] at hg
      exact absurd (h.gap hg).1 htc
  case woken =>
    intro l' hv hw
    rw [hj.lockValue] at hv
    have he : l' ≠ l := by
      rintro rfl
      rw [h.held hl] at hv
      cases hv
    rw [hj.waiters, if_neg he] at hw ⊢
    have hnone := (h.free_of_value (by rw [hv]; simp)).1
    obtain ⟨t, hmem, hn, hall⟩ := h.woken hv hw
    have htc : t ≠ k.current := by
      rintro rfl
      exact he (hawait l' hn)
    refine ⟨t, hj.awake t (hmem.resolve_right htc), (hnext t htc).trans hn, fun w hwm => ?_⟩
    rw [hsame l' w hnone hwm]
    exact le_trans (hall w hwm) (hup t)

/-- `semaEnqueue` on a lock, field by field. -/
theorem semaEnqueue_waiters (l l' : LockRef) (k : Kernel) :
    (semaEnqueue (.lock l) (some l) k).waiters l' =
      if l' = l then k.waiters l' ++ [k.current] else k.waiters l' := by
  unfold Kernel.waiters
  rw [semaEnqueue_semas]
  by_cases h : l' = l
  · subst h
    simp
  · simp [h]

/-- To wait takes nothing from the semaphore. -/
theorem semaEnqueue_lockValue (l l' : LockRef) (k : Kernel) :
    (semaEnqueue (.lock l) (some l) k).lockValue l' = k.lockValue l' := by
  unfold Kernel.lockValue
  rw [semaEnqueue_semas]
  by_cases h : l' = l
  · subst h
    simp
  · simp [h]

/-- The thread that waits notes the lock. -/
theorem semaEnqueue_threads (l : LockRef) (k : Kernel) (t : ThreadRef) :
    (semaEnqueue (.lock l) (some l) k).threads t =
      if t = k.current then { k.threads t with
        waitingLock := some l, frames := .awaiting l :: (k.threads t).frames }
      else k.threads t := by
  by_cases h : t = k.current
  · subst h
    simp [semaEnqueue, Kernel.pushFrames, Kernel.setWaitingLock, updateLockMaxPriority,
      Kernel.setLock, Kernel.setSema, Kernel.modThread]
  · simp [semaEnqueue, Kernel.pushFrames, Kernel.setWaitingLock, updateLockMaxPriority,
      Kernel.setLock, Kernel.setSema, Kernel.modThread, h]

theorem semaEnqueue_prio (l : LockRef) (k : Kernel) (t : ThreadRef) :
    (semaEnqueue (.lock l) (some l) k).prio t = k.prio t := by
  unfold Kernel.prio
  rw [semaEnqueue_threads]
  split <;> rfl

/-- The lock records the greatest priority of its waiters. -/
theorem semaEnqueue_locks (l l' : LockRef) (k : Kernel) :
    (semaEnqueue (.lock l) (some l) k).holder l' = k.holder l' ∧
      (semaEnqueue (.lock l) (some l) k).recorded l' =
        if l' = l then foldMax k.prio (-1) (k.waiters l ++ [k.current]).reverse
        else k.recorded l' := by
  have hprio : ((k.setSema (.lock l) { k.semas (.lock l) with
      waiters := (k.semas (.lock l)).waiters ++ [k.current] }).setWaitingLock k.current
        (some l)).prio = k.prio := by
    funext t
    exact prio_modThread k k.current (fun th => { th with waitingLock := some l })
      (fun _ => rfl) t
  by_cases h : l' = l
  · subst h
    refine ⟨?_, ?_⟩
    · simp [semaEnqueue, Kernel.holder, Kernel.pushFrames, Kernel.setWaitingLock,
        updateLockMaxPriority, Kernel.setLock, Kernel.setSema, Kernel.modThread]
    · rw [if_pos rfl, ← hprio]
      simp [semaEnqueue, Kernel.recorded, Kernel.pushFrames, Kernel.setWaitingLock,
        updateLockMaxPriority, Kernel.setLock, Kernel.setSema, Kernel.modThread, Kernel.waiters]
  · refine ⟨?_, ?_⟩
    · simp [semaEnqueue, Kernel.holder, Kernel.pushFrames, Kernel.setWaitingLock,
        updateLockMaxPriority, Kernel.setLock, Kernel.setSema, Kernel.modThread, h]
    · rw [if_neg h]
      simp [semaEnqueue, Kernel.recorded, Kernel.pushFrames, Kernel.setWaitingLock,
        updateLockMaxPriority, Kernel.setLock, Kernel.setSema, Kernel.modThread, h]

/-- `k₁` is `k` with the running thread's frame taken off, up to priorities, what locks record
of them, and the running thread's `waiting_lock`. -/
structure Popped (k k₁ : Kernel) (rest : List Frame) : Prop where
  current : k₁.current = k.current
  holder : ∀ l, k₁.holder l = k.holder l
  semas : k₁.semas = k.semas
  readyList : k₁.readyList = k.readyList
  threads : ∀ t, (k₁.threads t).basePriority = (k.threads t).basePriority ∧
    (k₁.threads t).magic = (k.threads t).magic ∧
    (k₁.threads t).status = (k.threads t).status ∧
    (k₁.threads t).heldLocks = (k.threads t).heldLocks ∧
    (t ≠ k.current → (k₁.threads t).waitingLock = (k.threads t).waitingLock)
  frames : ∀ t, (k₁.threads t).frames = if t = k.current then rest else (k.threads t).frames

/-- To pop a frame leaves the waiters of a lock. -/
theorem Popped.waiters (h : Popped k k₁ rest) (l : LockRef) : k₁.waiters l = k.waiters l := by
  unfold Kernel.waiters
  rw [h.semas]

theorem Popped.lockValue (h : Popped k k₁ rest) (l : LockRef) :
    k₁.lockValue l = k.lockValue l := by
  unfold Kernel.lockValue
  rw [h.semas]

/-- Blocking on a lock. -/
theorem joined_of_block {l : LockRef} (hp : Popped k k₁ rest)
    (hawake : ∀ t ∈ k.readyList, t ∈ k'.readyList ∨ t = k'.current)
    (hb : threadBlock (semaEnqueue (.lock l) (some l) k₁) = .ok k') :
    Joined k k' l rest ∧ (∀ t, k'.prio t = k₁.prio t) ∧
      ∀ l', l' ≠ l → k'.recorded l' = k₁.recorded l' := by
  have hsame := threadBlock_same hb
  have hs := hsame.sameLocks
  have hquiet := quiet_threadBlock hb
  have hprio : ∀ t, k'.prio t = k₁.prio t := fun t =>
    (hs.prio t).trans (semaEnqueue_prio l k₁ t)
  have hwaiters : ∀ l', k'.waiters l' =
      if l' = l then k.waiters l' ++ [k.current] else k.waiters l' := fun l' => by
    rw [hs.waiters, semaEnqueue_waiters, hp.waiters, hp.current]
  refine ⟨?_, hprio, fun l' he => ?_⟩
  · constructor
    case holder =>
      intro l'
      rw [hs.holder, (semaEnqueue_locks l l' k₁).1, hp.holder]
    case lockValue =>
      intro l'
      rw [hs.lockValue, semaEnqueue_lockValue, hp.lockValue]
    case waiters => exact hwaiters
    case recorded =>
      have hpf : k'.prio = k₁.prio := funext hprio
      rw [hs.recorded, (semaEnqueue_locks l l k₁).2, if_pos rfl, hwaiters, if_pos rfl, hpf,
        hp.waiters, hp.current]
    case base =>
      intro t
      rw [hs.base]
      unfold Kernel.base
      rw [semaEnqueue_threads]
      split <;> exact (hp.threads t).1
    case live =>
      intro t
      rw [hs.live]
      unfold Kernel.Live
      rw [semaEnqueue_threads]
      split <;> rw [← (hp.threads t).2.1]
    case dying =>
      intro t hd
      have hd' := hquiet.dying t hd
      rw [semaEnqueue_threads] at hd'
      rw [← (hp.threads t).2.2.1]
      split at hd' <;> exact hd'
    case heldLocks =>
      intro t
      rw [hs.heldLocks, semaEnqueue_threads]
      split <;> exact (hp.threads t).2.2.2.1
    case waitingSelf =>
      rw [hs.waitingLock]
      unfold Kernel.waitingLock
      rw [semaEnqueue_threads, if_pos hp.current.symm]
    case waitingLock =>
      intro t ht
      rw [hs.waitingLock]
      unfold Kernel.waitingLock
      rw [semaEnqueue_threads, if_neg (by rw [hp.current]; exact ht)]
      exact (hp.threads t).2.2.2.2 ht
    case frames =>
      intro t
      rw [hsame.frames t, semaEnqueue_threads, hp.current]
      have hft := hp.frames t
      split
      next ht =>
        rw [if_pos ht] at hft
        rw [hft]
      next ht =>
        rw [if_neg ht] at hft
        exact hft
    case awake => exact hawake
  · rw [hs.recorded, (semaEnqueue_locks l l' k₁).2, if_neg he]

/-- Taking a unit of a lock's semaphore at the end of `lock_acquire`. -/
theorem taken_of_semaTake {l : LockRef} (hp : Popped k k₁ rest)
    (hprio : ∀ t, k₁.prio t = k.prio t) (hrec : ∀ l', k₁.recorded l' = k.recorded l')
    (hwait : k₁.waitingLock k.current = none) (hv : k.lockValue l = 1) :
    Taken k (semaTake (.lock l) (some l) k₁) l ((k.threads k.current).heldLocks ++ [l]) rest := by
  have hc := hp.current
  have hthreads : ∀ t, (semaTake (.lock l) (some l) k₁).threads t =
      if t = k.current then { k₁.threads t with heldLocks := (k₁.threads t).heldLocks ++ [l] }
      else k₁.threads t := by
    intro t
    simp only [semaTake, lockAcquired, Kernel.modThread_threads]
    rw [show ((k₁.setSema (.lock l) { k₁.semas (.lock l) with
      value := (k₁.semas (.lock l)).value - 1 }).current) = k.current from hc]
    split
    next ht =>
      rw [ht]
      rfl
    next => rfl
  constructor
  case holder =>
    intro l'
    rw [← hp.holder, ← hc]
    by_cases he : l' = l
    · subst he
      simp [semaTake, lockAcquired, Kernel.holder, Kernel.modThread, Kernel.setLock,
        Kernel.setSema]
    · simp [semaTake, lockAcquired, Kernel.holder, Kernel.modThread, Kernel.setLock,
        Kernel.setSema, he]
  case recorded =>
    intro l'
    rw [← hrec]
    by_cases he : l' = l
    · subst he
      simp [semaTake, lockAcquired, Kernel.recorded, Kernel.modThread, Kernel.setLock,
        Kernel.setSema]
    · simp [semaTake, lockAcquired, Kernel.recorded, Kernel.modThread, Kernel.setLock,
        Kernel.setSema, he]
  case waiters =>
    intro l'
    rw [← hp.waiters]
    exact setSema_waiters k₁ (.lock l) (.lock l') _ rfl
  case lockValue =>
    intro l'
    rw [← hp.lockValue] at hv ⊢
    unfold Kernel.lockValue at hv ⊢
    by_cases he : l' = l
    · subst he
      simp [semaTake, lockAcquired, Kernel.modThread, Kernel.setLock, Kernel.setSema, hv]
    · simp [semaTake, lockAcquired, Kernel.modThread, Kernel.setLock, Kernel.setSema, he]
  case prio =>
    intro t
    rw [← hprio]
    unfold Kernel.prio
    rw [hthreads]
    split <;> rfl
  case base =>
    intro t
    unfold Kernel.base
    rw [hthreads, ← (hp.threads t).1]
    split <;> rfl
  case live =>
    intro t
    unfold Kernel.Live
    rw [hthreads, ← (hp.threads t).2.1]
    split <;> rfl
  case status =>
    intro t
    rw [hthreads, ← (hp.threads t).2.2.1]
    split <;> rfl
  case heldLocks =>
    intro t
    rw [hthreads]
    split
    next ht => rw [← (hp.threads k.current).2.2.2.1, ht]
    next => exact (hp.threads t).2.2.2.1
  case waitingSelf =>
    rw [← hwait]
    unfold Kernel.waitingLock
    rw [hthreads, if_pos rfl]
  case waitingLock =>
    intro t ht
    unfold Kernel.waitingLock
    rw [hthreads, if_neg ht]
    exact (hp.threads t).2.2.2.2 ht
  case frames =>
    intro t
    rw [hthreads, ← hp.frames t]
    split <;> rfl
  case readyList => exact hp.readyList
  case current => exact hc

/-! ## `lock_acquire` -/

/-- A frame taken off, and nothing else. -/
theorem popped_setFrames (k : Kernel) (rest : List Frame) :
    Popped k (k.setFrames k.current rest) rest := by
  refine ⟨rfl, fun _ => rfl, rfl, rfl, fun t => ?_, fun t => ?_⟩
  · unfold Kernel.setFrames
    rw [Kernel.modThread_threads]
    split
    next ht => rw [ht]; exact ⟨rfl, rfl, rfl, rfl, fun hne => absurd rfl hne⟩
    next => exact ⟨rfl, rfl, rfl, rfl, fun _ => rfl⟩
  · unfold Kernel.setFrames
    rw [Kernel.modThread_threads]
    split <;> rfl

theorem setFrames_prio (k : Kernel) (rest : List Frame) (t : ThreadRef) :
    (k.setFrames k.current rest).prio t = k.prio t :=
  prio_modThread k k.current (fun th => { th with frames := rest }) (fun _ => rfl) t

theorem setFrames_waitingLock (k : Kernel) (rest : List Frame) :
    (k.setFrames k.current rest).waitingLock = k.waitingLock := by
  funext t
  unfold Kernel.waitingLock Kernel.setFrames
  rw [Kernel.modThread_threads]
  split
  next ht => rw [ht]
  next => rfl

/-- Behind it a donation may follow. -/
theorem Popped.raised {k₂ : Kernel} (h : Popped k k₁ rest) (hr : Raised k₁ k₂) :
    Popped k k₂ rest := by
  refine ⟨hr.current.trans h.current, fun l => (hr.holder l).trans (h.holder l),
    hr.semas.trans h.semas, by rw [hr.rest]; exact h.readyList, fun t => ?_, fun t => ?_⟩
  · rw [hr.threads t]
    exact h.threads t
  · rw [hr.threads t]
    exact h.frames t

/-- The test of the value at the return from a wait: the thread joins the queue again or takes
the lock. -/
theorem semaDownResume_spec {l : LockRef}
    (hawake : ∀ t ∈ k.readyList, t ∈ k'.readyList ∨ t = k'.current)
    (hx : semaDownResume (.lock l) (some l) (k.setFrames k.current rest) = .ok k') :
    (k.lockValue l = 0 ∧ Joined k k' l rest ∧ (∀ t, k'.prio t = k.prio t) ∧
      ∀ l', l' ≠ l → k'.recorded l' = k.recorded l') ∨
    (k.lockValue l ≠ 0 ∧ (k.lockValue l = 1 →
      Taken k k' l ((k.threads k.current).heldLocks ++ [l]) rest)) := by
  have hthreads : ∀ t, ((k.setFrames k.current rest).setWaitingLock k.current none).threads t =
      if t = k.current then { k.threads t with waitingLock := none, frames := rest }
      else k.threads t := by
    intro t
    unfold Kernel.setWaitingLock Kernel.setFrames
    rw [Kernel.modThread_threads]
    split
    next ht => rw [ht, Kernel.modThread_self]
    next ht => rw [Kernel.modThread_ne _ _ ht]
  have hp : Popped k ((k.setFrames k.current rest).setWaitingLock k.current none) rest := by
    refine ⟨rfl, fun _ => rfl, rfl, rfl, fun t => ?_, fun t => ?_⟩
    · rw [hthreads]
      split
      next ht => exact ⟨rfl, rfl, rfl, rfl, fun hne => absurd ht hne⟩
      next => exact ⟨rfl, rfl, rfl, rfl, fun _ => rfl⟩
    · rw [hthreads]
      split <;> rfl
  have hprio : ∀ t, ((k.setFrames k.current rest).setWaitingLock k.current none).prio t =
      k.prio t := by
    intro t
    unfold Kernel.prio
    rw [hthreads]
    split <;> rfl
  obtain ⟨hz, hb⟩ | ⟨hnz, rfl⟩ := semaDownLoop_eq_ok hx
  · obtain ⟨hj, hp', hrec⟩ := joined_of_block hp hawake hb
    exact .inl ⟨hz, hj, fun t => (hp' t).trans (hprio t), hrec⟩
  · have hself : ((k.setFrames k.current rest).setWaitingLock k.current none).waitingLock
        k.current = none := by
      unfold Kernel.waitingLock
      rw [hthreads, if_pos rfl]
    exact .inr ⟨hnz, taken_of_semaTake hp hprio (fun _ => rfl) hself⟩

/-- `lock_acquire`: the caller joins the queue of the lock, with the holders on the chain raised
to its priority and this priority recorded with the locks passed, or takes the lock. -/
theorem lockAcquire_spec {l : LockRef} (hwait : k.waitingLock k.current = none)
    (hawake : ∀ t ∈ k.readyList, t ∈ k'.readyList ∨ t = k'.current)
    (hx : lockAcquire l (k.setFrames k.current rest) = .ok k') :
    (k.lockValue l = 0 ∧ Joined k k' l rest ∧
      (∀ u, OnChain k.holder k.waitingLock (some l) u →
        k.prio u < k.prio k.current ∧ k'.prio u = k.prio k.current) ∧
      (∀ u, ¬ OnChain k.holder k.waitingLock (some l) u → k'.prio u = k.prio u) ∧
      (∀ l', l' ≠ l → Passes k.holder k.waitingLock (some l) l' →
        k'.recorded l' = k.prio k.current) ∧
      ∀ l', l' ≠ l → ¬ Passes k.holder k.waitingLock (some l) l' →
        k'.recorded l' = k.recorded l') ∨
    (k.lockValue l ≠ 0 ∧ (k.holder l = none → k.lockValue l = 1 →
      Taken k k' l ((k.threads k.current).heldLocks ++ [l]) rest)) := by
  obtain ⟨_, k₁, hd, hx⟩ := lockAcquire_eq_ok hx
  have hr := donate_raised _ hd
  have hp := (popped_setFrames k rest).raised hr
  obtain ⟨hup, hrest, hpass, hkeep⟩ := donate_spec _ hd
  have hholder₀ : (k.setFrames k.current rest).holder = k.holder := rfl
  rw [hholder₀, setFrames_waitingLock] at hup hrest hpass hkeep
  simp only [setFrames_prio] at hup hrest hpass hkeep
  have hcur₀ : (k.setFrames k.current rest).current = k.current := rfl
  rw [hcur₀] at hup hpass
  obtain ⟨hz, hb⟩ | ⟨hnz, rfl⟩ := semaDownLoop_eq_ok hx
  · obtain ⟨hj, hp', hrec⟩ := joined_of_block hp hawake hb
    refine .inl ⟨(hp.lockValue l).symm.trans hz, hj, fun u hu => ?_, fun u hu => ?_,
      fun l' he hl' => ?_, fun l' he hl' => ?_⟩
    · exact ⟨(hup u hu).1, (hp' u).trans (hup u hu).2⟩
    · exact (hp' u).trans (hrest u hu)
    · exact (hrec l' he).trans (hpass l' hl')
    · exact (hrec l' he).trans (hkeep l' hl')
  · refine .inr ⟨(hp.lockValue l) ▸ hnz, fun hfree hone => ?_⟩
    -- nobody holds the lock, so the walk ended where it began
    have hnochain : ∀ u, ¬ OnChain k.holder k.waitingLock (some l) u := by
      intro u hu
      cases hu with
      | here ht => rw [hfree] at ht; cases ht
      | there ht _ => rw [hfree] at ht; cases ht
    have hnopass : ∀ l', ¬ Passes k.holder k.waitingLock (some l) l' := by
      intro l' hl'
      cases hl' with
      | here ht => rw [hfree] at ht; cases ht
      | there ht _ => rw [hfree] at ht; cases ht
    have hself : k₁.waitingLock k.current = none := by
      rw [hr.waitingLock_eq, setFrames_waitingLock]
      exact hwait
    exact taken_of_semaTake hp (fun t => hrest t (hnochain t)) (fun l' => hkeep l' (hnopass l'))
      hself hone

/-- The test of the value at the return from a wait. A thread that finds the lock taken again
waits on without donating: this keeps the invariant only when the new holder is at least as
important. -/
theorem Donated.of_resume {l : LockRef} (h : Donated k) (hk : Coherent k)
    (htop : ∀ t ∈ k.readyList, k.prio t ≤ k.prio k.current)
    (hf : (k.threads k.current).frames = .awaiting l :: rest)
    (hbarge : ∀ X, k.holder l = some X → k.prio k.current ≤ k.prio X)
    (hawake : ∀ t ∈ k.readyList, t ∈ k'.readyList ∨ t = k'.current)
    (hx : semaDownResume (.lock l) (some l) (k.setFrames k.current rest) = .ok k') :
    Donated k' := by
  have hnext : k.next k.current = some (.awaiting l) := by rw [Kernel.next, hf]; rfl
  have hgap : ∀ l', k.next k.current ≠ some (.lockTryAcquired l') := by
    intro l' hg
    rw [hnext] at hg
    cases hg
  have hawait : ∀ l', k.next k.current = some (.awaiting l') → l' = l := by
    intro l' hg
    rw [hnext] at hg
    cases hg
    rfl
  obtain ⟨hz, hj, hp, hrec⟩ | ⟨hnz, htaken⟩ := semaDownResume_spec hawake hx
  · obtain ⟨X, hX⟩ := h.held_of_value hz (hgap l)
    have hpf : k'.prio = k.prio := funext hp
    refine h.of_joined hk hf hj hX hgap hawait ?_ (fun l' he => ?_) (fun t => by rw [hpf])
      (fun l' w _ _ => by rw [hpf])
    · have hx' := h.exact.join hX (hbarge X hX) (fun {_ _} => hj.blocked)
      have hholder : k'.holder = k.holder := funext hj.holder
      have hbase : k'.base = k.base := funext hj.base
      have hlive : k'.Live = k.Live := funext fun t => propext (hj.live t)
      rw [hholder, hpf, hbase, hlive]
      exact hx'
    · rw [hrec l' he, hpf]
      exact h.recorded l'
  · obtain ⟨hfree, hone⟩ := h.free_of_value hnz
    refine h.of_taken _ hk hf (htaken hone) hfree (fun l' hg => absurd hg (hgap l')) hawait
      (h.waiters_le htop hone) (fun l' hm => ?_)
    rcases List.mem_append.mp hm with hm | hm
    · exact .inr hm
    · exact .inl (List.mem_singleton.mp hm)

/-- `lock_acquire`. The walk finds the chain of holders; it keeps the invariant when whoever
on the chain has a `waiting_lock` is queued on it exactly if somebody holds it. -/
theorem Donated.of_lockAcquire {l : LockRef} (h : Donated k) (hk : Coherent k)
    (htop : ∀ t ∈ k.readyList, k.prio t ≤ k.prio k.current)
    (hf : (k.threads k.current).frames = .lockAcquire l :: rest)
    (hchain : ∀ u l', OnChain k.holder k.waitingLock (some l) u → k.waitingLock u = some l' →
      (u ∈ k.waiters l' ↔ k.holder l' ≠ none))
    (hawake : ∀ t ∈ k.readyList, t ∈ k'.readyList ∨ t = k'.current)
    (hx : lockAcquire l (k.setFrames k.current rest) = .ok k') : Donated k' := by
  have hnext : k.next k.current = some (.lockAcquire l) := by rw [Kernel.next, hf]; rfl
  have hgap : ∀ l', k.next k.current ≠ some (.lockTryAcquired l') := by
    intro l' hg
    rw [hnext] at hg
    cases hg
  have hawait : ∀ l', k.next k.current = some (.awaiting l') → l' = l := by
    intro l' hg
    rw [hnext] at hg
    cases hg
  have hwaitcur : k.waitingLock k.current = none := by
    rw [h.waiting, hnext]
    rfl
  obtain ⟨hz, hj, hup, hrest, hpass, hkeep⟩ | ⟨hnz, htaken⟩ := lockAcquire_spec hwaitcur hawake hx
  · obtain ⟨X, hX⟩ := h.held_of_value hz (hgap l)
    -- who is queued has its lock for `waiting_lock`
    have hwaits : ∀ {w l'}, k.Blocked w l' → k.waitingLock w = some l' := by
      intro w l' hw
      rw [h.waiting, h.queued hw]
      rfl
    have hmono : ∀ t, k.prio t ≤ k'.prio t := by
      intro t
      by_cases ht : OnChain k.holder k.waitingLock (some l) t
      · rw [(hup t ht).2]
        exact le_of_lt (hup t ht).1
      · rw [hrest t ht]
    -- a thread on the chain that is queued on a lock leads the chain through that lock
    have hthrough : ∀ {w l'}, w ∈ k.waiters l' → OnChain k.holder k.waitingLock (some l) w →
        Passes k.holder k.waitingLock (some l) l' := by
      intro w l' hw hc
      have hheld := (hchain w l' hc (hwaits hw)).mp hw
      obtain ⟨v, hv⟩ := Option.ne_none_iff_exists'.mp hheld
      exact hc.passes (hwaits hw) hv
    refine h.of_joined hk hf hj hX hgap hawait ?_ (fun l' he => ?_) hmono (fun l' w hfree hw => ?_)
    · have hx' : Exact k.holder k'.Blocked k'.prio k.base k.Live := h.exact.donate hX
        (fun l' hb' => hk.not_waiting l' hb') hwaits
        (fun {u l' v} hc hwu hl' => (hchain u l' hc hwu).mpr (by rw [hl']; simp))
        (fun {u} hc => hup u hc) (fun {u} hc => hrest u hc) (fun {_ _} => hj.blocked)
      have hholder : k'.holder = k.holder := funext hj.holder
      have hbase : k'.base = k.base := funext hj.base
      have hlive : k'.Live = k.Live := funext fun t => propext (hj.live t)
      rw [hholder, hbase, hlive]
      exact hx'
    · by_cases hpl : Passes k.holder k.waitingLock (some l) l'
      · -- the lock is passed: the thread that leads to it is queued on it, at the top now
        rw [hpass l' he hpl]
        obtain ⟨hprev, v, hv, hcv⟩ := hpl.prev rfl
        obtain ⟨t, hct, hwt⟩ := hprev.resolve_left he
        have htq : t ∈ k.waiters l' := (hchain t l' hct hwt).mpr (by rw [hv]; simp)
        have hcurNonneg : 0 ≤ k.prio k.current := by
          have hlive := (hk.placed.cpuLive rfl).1
          exact le_trans (h.baseNonneg hlive) (h.exact.base_le _ hlive)
        refine (foldMax_eq (by omega) (fun w hw => ?_)
          (.inr ⟨t, by simpa using htq, (hup t hct).2⟩)).symm
        have hw' : w ∈ k.waiters l' := by simpa using hw
        by_cases hcw : OnChain k.holder k.waitingLock (some l) w
        · rw [(hup w hcw).2]
        · rw [hrest w hcw]
          exact le_trans (h.exact.bound hv hw') (le_of_lt (hup v hcv).1)
      · rw [hkeep l' he hpl]
        refine (h.recorded l').trans (foldMax_congr fun w hw => ?_)
        have hw' : w ∈ k.waiters l' := by simpa using hw
        rw [hrest w fun hc => hpl (hthrough hw' hc)]
    · rw [hrest w fun hc => ?_]
      obtain ⟨_, v, hv, _⟩ := (hthrough hw hc).prev rfl
      rw [hfree] at hv
      cases hv
  · obtain ⟨hfree, hone⟩ := h.free_of_value hnz
    refine h.of_taken _ hk hf (htaken hfree hone) hfree (fun l' hg => absurd hg (hgap l')) hawait
      (h.waiters_le htop hone) (fun l' hm => ?_)
    rcases List.mem_append.mp hm with hm | hm
    · exact .inr hm
    · exact .inl (List.mem_singleton.mp hm)

/-! ## `lock_try_acquire` -/

/-- The first half of a successful `lock_try_acquire` takes the unit and leaves the second half
to be run next. -/
theorem Donated.of_lockTryAcquire {l : LockRef} (h : Donated k) (hk : Coherent k)
    (hn : k.scheduleTail = none) (htop : ∀ t ∈ k.readyList, k.prio t ≤ k.prio k.current)
    {n : Nat} (hf : (k.threads k.current).frames = .lockTryAcquire n :: rest)
    (hv : 0 < k.lockValue l) :
    Donated (((k.setFrames k.current rest).setSema (.lock l) { k.semas (.lock l) with
      value := k.lockValue l - 1 }).pushFrames k.current [.lockTryAcquired l]) := by
  obtain ⟨hfree, hone⟩ := h.free_of_value (Nat.ne_of_gt hv)
  have hnext : k.next k.current = some (.lockTryAcquire n) := by rw [Kernel.next, hf]; rfl
  have hthreads : ∀ t, (((k.setFrames k.current rest).setSema (.lock l) { k.semas (.lock l) with
      value := k.lockValue l - 1 }).pushFrames k.current [.lockTryAcquired l]).threads t =
      if t = k.current then { k.threads t with frames := .lockTryAcquired l :: rest }
      else k.threads t := by
    intro t
    simp only [Kernel.pushFrames, Kernel.modThread_threads, Kernel.setSema, Kernel.setFrames]
    split
    next ht =>
      rw [ht]
      rfl
    next => rfl
  have hset : SameLocks k (k.setFrames k.current rest) :=
    sameLocks_modThread k k.current (fun th => { th with frames := rest })
      fun _ => ⟨rfl, rfl, rfl, rfl, rfl⟩
  -- `k₁` is the result, of which only the semaphore of `l` and one stack are new
  generalize hk' : ((k.setFrames k.current rest).setSema (.lock l) { k.semas (.lock l) with
      value := k.lockValue l - 1 }).pushFrames k.current [.lockTryAcquired l] = k₁ at hthreads ⊢
  have hholder : ∀ l', k₁.holder l' = k.holder l' := fun l' => by rw [← hk']; rfl
  have hrecorded : ∀ l', k₁.recorded l' = k.recorded l' := fun l' => by rw [← hk']; rfl
  have hcurrent : k₁.current = k.current := by rw [← hk']; rfl
  have htail : k₁.scheduleTail = none := by rw [← hk']; exact hn
  have hready : k₁.readyList = k.readyList := by rw [← hk']; rfl
  have hwaiters : ∀ l', k₁.waiters l' = k.waiters l' := fun l' => by
    rw [← hk']
    exact setSema_waiters k (.lock l) (.lock l') _ rfl
  have hvalue : ∀ l', k₁.lockValue l' = if l' = l then 0 else k.lockValue l' := by
    intro l'
    rw [← hk']
    by_cases he : l' = l
    · subst he
      simp [Kernel.lockValue, Kernel.pushFrames, Kernel.modThread, Kernel.setSema]
      have : (k.semas (.lock l')).value = 1 := hone
      omega
    · simp [Kernel.lockValue, Kernel.pushFrames, Kernel.modThread, Kernel.setSema,
        Kernel.setFrames, he]
  have hprio : k₁.prio = k.prio := by
    funext t
    unfold Kernel.prio
    rw [hthreads]
    split <;> rfl
  have hbase : k₁.base = k.base := by
    funext t
    unfold Kernel.base
    rw [hthreads]
    split <;> rfl
  have hlive : k₁.Live = k.Live := by
    funext t
    unfold Kernel.Live
    rw [hthreads]
    split <;> rfl
  have hblocked : k₁.Blocked = k.Blocked := by
    funext t l'
    unfold Kernel.Blocked
    rw [hwaiters]
  have hwaiting : ∀ t, k₁.waitingLock t = k.waitingLock t := by
    intro t
    unfold Kernel.waitingLock
    rw [hthreads]
    split <;> rfl
  have hframes : ∀ t, (k₁.threads t).frames =
      if t = k.current then [.lockTryAcquired l] ++ rest else (k.threads t).frames := by
    intro t
    rw [hthreads]
    split <;> rfl
  have hself : k₁.next k.current = some (.lockTryAcquired l) := by
    rw [Kernel.next, hframes, if_pos rfl]
    rfl
  have hother : ∀ t, t ≠ k.current → k₁.next t = k.next t := fun t ht => by
    unfold Kernel.next
    rw [hframes, if_neg ht]
  obtain ⟨hwait, hqueued, hshaped, hbehind⟩ := h.stacked.of_frames [.lockTryAcquired l] hf hframes
    (fun g hg => by rw [List.mem_singleton.mp hg]; trivial) (by simp)
    (by rw [hwaiting, h.waiting, hnext]; rfl) (fun t _ => hwaiting t) hk.not_waiting
    (fun l' t hm => .inl (hwaiters l' ▸ hm))
  constructor
  case exact =>
    have hh : k₁.holder = k.holder := funext hholder
    rw [hh, hblocked, hprio, hbase, hlive]
    exact h.exact
  case baseNonneg =>
    intro t ht
    rw [hlive] at ht
    rw [hbase]
    exact h.baseNonneg ht
  case recorded =>
    intro l'
    rw [hrecorded, hwaiters, hprio]
    exact h.recorded l'
  case holderLive =>
    intro l' t hl'
    rw [hholder] at hl'
    rw [hlive, hthreads]
    have hd := h.holderLive hl'
    refine ⟨hd.1, ?_⟩
    split <;> exact hd.2
  case held =>
    intro l' t hl'
    rw [hholder] at hl'
    rw [hvalue]
    split
    · rfl
    · exact h.held hl'
  case free =>
    intro l' hl'
    rw [hholder] at hl'
    rw [hvalue, hcurrent]
    split
    next he =>
      subst he
      exact .inr ⟨rfl, hself⟩
    next =>
      rcases h.free hl' with hv' | ⟨_, hg⟩
      · exact .inl hv'
      · rw [hnext] at hg
        cases hg
  case heldLocks =>
    intro t l' ht hm
    rw [hlive] at ht
    rw [hholder]
    refine h.heldLocks ht ?_
    rw [hthreads] at hm
    split at hm <;> exact hm
  case waiting => exact hwait
  case queued => exact hqueued
  case shaped => exact hshaped
  case behind => exact hbehind
  case gap =>
    intro t l' hg
    by_cases ht : t = k.current
    · subst ht
      rw [hself] at hg
      cases hg
      refine ⟨hcurrent.symm, htail, (hholder l).trans hfree, by rw [hvalue, if_pos rfl], ?_⟩
      rw [hwaiters, hprio]
      exact h.waiters_le htop hone
    · rw [hother t ht] at hg
      exact absurd (h.gap hg).1 ht
  case woken =>
    intro l' hv' hw
    rw [hvalue] at hv'
    split at hv'
    next => cases hv'
    next he =>
      rw [hwaiters] at hw ⊢
      obtain ⟨t, hmem, hn', hall⟩ := h.woken hv' hw
      have ht : t ≠ k.current := by
        rintro rfl
        rw [hnext] at hn'
        cases hn'
      rw [hready, hcurrent, hprio]
      exact ⟨t, hmem, (hother t ht).trans hn', hall⟩

/-- The second half records the holder. -/
theorem Donated.of_lockTryAcquired {l : LockRef} (h : Donated k) (hk : Coherent k)
    (hf : (k.threads k.current).frames = .lockTryAcquired l :: rest) :
    Donated ((k.setFrames k.current rest).setLock l { k.locks l with
      holder := some k.current }) := by
  have hnext : k.next k.current = some (.lockTryAcquired l) := by rw [Kernel.next, hf]; rfl
  obtain ⟨_, _, hfree, hzero, hle⟩ := h.gap hnext
  have hpop := popped_setFrames k rest
  refine h.of_taken (k.threads k.current).heldLocks hk hf ?_ hfree (fun l' hg => ?_)
    (fun l' hg => ?_) hle (fun l' hm => .inr hm)
  · constructor
    case holder =>
      intro l'
      by_cases he : l' = l
      · subst he
        simp [Kernel.holder, Kernel.setLock]
      · simp [Kernel.holder, Kernel.setLock, Kernel.setFrames, Kernel.modThread, he]
    case recorded =>
      intro l'
      by_cases he : l' = l
      · subst he
        simp [Kernel.recorded, Kernel.setLock]
      · simp [Kernel.recorded, Kernel.setLock, Kernel.setFrames, Kernel.modThread, he]
    case waiters => exact fun _ => rfl
    case lockValue =>
      intro l'
      split
      next he =>
        rw [he]
        exact hzero
      next => rfl
    case prio => exact setFrames_prio k rest
    case base => exact fun t => (hpop.threads t).1
    case live =>
      intro t
      exact iff_of_eq (congrArg (· = true) (hpop.threads t).2.1)
    case status => exact fun t => (hpop.threads t).2.2.1
    case heldLocks =>
      intro t
      split
      next ht =>
        rw [ht]
        exact (hpop.threads k.current).2.2.2.1
      next => exact (hpop.threads t).2.2.2.1
    case waitingSelf =>
      have hw := congrFun (setFrames_waitingLock k rest) k.current
      refine hw.trans ?_
      rw [h.waiting, hnext]
      rfl
    case waitingLock => exact fun t _ => congrFun (setFrames_waitingLock k rest) t
    case frames => exact hpop.frames
    case readyList => rfl
    case current => rfl
  · rw [hnext] at hg
    cases hg
    rfl
  · rw [hnext] at hg
    cases hg

end Pintos.Threads
