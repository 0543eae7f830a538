import Pintos.Threads.Footprint

/-!
# Queues and thread status

One list element in `struct thread` serves three kinds of list. `Placed k cpu new` is the
discipline that makes this sound: every queue is free of repeats, no thread is in two of
them, a queued thread has the status of its queue, and conversely a READY or BLOCKED thread
is in the queue its status names. Three kinds of thread are exempt. `cpu` is the thread on
the CPU, in no queue whatever its status; it is absent in the middle of a function that has
taken its caller off the CPU and not yet called `schedule`. The idle thread is in no queue.
A thread in `new` is being created: BLOCKED and in no queue.

The laws follow the scheduler: leaving the CPU for a queue (`yield`, `block`, `exit`), moving
from a wait queue to `ready_list` (`unblock`), and being chosen (`schedule`).
-/

namespace Pintos.Threads

open Pintos.Lib

/-- The lists a thread's `elem` can be in. -/
inductive QueueRef where
  | ready
  | sleep
  | sema (s : SemaRef)
  deriving DecidableEq, Repr

/-- The status of the threads in a queue. -/
def QueueRef.status : QueueRef → ThreadStatus
  | .ready => .ready
  | .sleep => .blocked
  | .sema _ => .blocked

/-- The threads in a queue. -/
def Kernel.queue (k : Kernel) : QueueRef → List ThreadRef
  | .ready => k.readyList
  | .sleep => k.sleepList
  | .sema s => (k.semas s).waiters

/-- Queues and status agree; see the head of this module. -/
structure Placed (k : Kernel) (cpu : Option ThreadRef) (new : ThreadRef → Prop) : Prop where
  nodup : ∀ q, (k.queue q).Nodup
  once : ∀ {q q' : QueueRef} {t : ThreadRef}, t ∈ k.queue q → t ∈ k.queue q' → q = q'
  queued : ∀ {q : QueueRef} {t : ThreadRef}, t ∈ k.queue q →
    (k.threads t).magic = true ∧ (k.threads t).status = q.status
  notIdle : ∀ {q : QueueRef} {t : ThreadRef}, t ∈ k.queue q → t ≠ k.idleThread
  notCpu : ∀ {q : QueueRef} {t : ThreadRef}, t ∈ k.queue q → cpu ≠ some t
  notNew : ∀ {q : QueueRef} {t : ThreadRef}, t ∈ k.queue q → ¬ new t
  ready : ∀ {t : ThreadRef}, (k.threads t).magic = true → (k.threads t).status = .ready →
    t ≠ k.idleThread → cpu ≠ some t → t ∈ k.readyList
  blocked : ∀ {t : ThreadRef}, (k.threads t).magic = true → (k.threads t).status = .blocked →
    t ≠ k.idleThread → cpu ≠ some t → ¬ new t → ∃ q, q ≠ .ready ∧ t ∈ k.queue q
  running : ∀ {t : ThreadRef}, (k.threads t).magic = true → (k.threads t).status = .running →
    cpu = some t
  cpuLive : ∀ {t : ThreadRef}, cpu = some t →
    (k.threads t).magic = true ∧ (k.threads t).status ≠ .dying ∧ ¬ new t
  created : ∀ {t : ThreadRef}, new t →
    (k.threads t).magic = true ∧ (k.threads t).status = .blocked ∧ t ≠ k.idleThread
  idle : (k.threads k.idleThread).magic = true ∧ (k.threads k.idleThread).status ≠ .dying

variable {k k' : Kernel} {cpu : Option ThreadRef} {new : ThreadRef → Prop}

/-- The discipline reads the queues and, of each thread, `magic` and `status`. -/
theorem Placed.congr (h : Placed k cpu new) (hq : ∀ q, k'.queue q = k.queue q)
    (hidle : k'.idleThread = k.idleThread)
    (ht : ∀ t, (k'.threads t).magic = (k.threads t).magic ∧
      (k'.threads t).status = (k.threads t).status) : Placed k' cpu new := by
  have hr : k'.readyList = k.readyList := hq .ready
  constructor
  · intro q
    rw [hq]
    exact h.nodup q
  · intro q q' t hm hm'
    rw [hq] at hm hm'
    exact h.once hm hm'
  · intro q t hm
    rw [hq] at hm
    rw [(ht t).1, (ht t).2]
    exact h.queued hm
  · intro q t hm
    rw [hq] at hm
    rw [hidle]
    exact h.notIdle hm
  · intro q t hm
    rw [hq] at hm
    exact h.notCpu hm
  · intro q t hm
    rw [hq] at hm
    exact h.notNew hm
  · intro t
    rw [(ht t).1, (ht t).2, hidle, hr]
    exact h.ready
  · intro t
    rw [(ht t).1, (ht t).2, hidle]
    intro hm hs hi hc hn
    obtain ⟨q, hne, hmem⟩ := h.blocked hm hs hi hc hn
    exact ⟨q, hne, (hq q).symm ▸ hmem⟩
  · intro t
    rw [(ht t).1, (ht t).2]
    exact h.running
  · intro t hc
    rw [(ht t).1, (ht t).2]
    exact h.cpuLive hc
  · intro t hn
    rw [(ht t).1, (ht t).2, hidle]
    exact h.created hn
  · rw [hidle, (ht _).1, (ht _).2]
    exact h.idle

/-- `new` may be replaced by an equivalent predicate. -/
theorem Placed.congrNew {new' : ThreadRef → Prop} (h : Placed k cpu new)
    (hn : ∀ t, new' t ↔ new t) : Placed k cpu new' := by
  have : new' = new := funext fun t => propext (hn t)
  exact this ▸ h

/-! ## Leaving the CPU -/

/-- What a function does to the queues when its caller leaves the CPU: the caller gets a new
status, and is appended to the queue that status asks for, if any. -/
structure Leaves (k k' : Kernel) (c : ThreadRef) (s : ThreadStatus) (dst : Option QueueRef) :
    Prop where
  queue : ∀ q, k'.queue q = if dst = some q then k.queue q ++ [c] else k.queue q
  idleThread : k'.idleThread = k.idleThread
  self : (k'.threads c).magic = (k.threads c).magic ∧ (k'.threads c).status = s
  other : ∀ t, t ≠ c → (k'.threads t).magic = (k.threads t).magic ∧
    (k'.threads t).status = (k.threads t).status
  notRunning : s ≠ .running
  toStatus : ∀ q, dst = some q → q.status = s ∧ c ≠ k.idleThread
  fromIdle : dst = none → s = .dying ∧ c ≠ k.idleThread ∨ s ≠ .dying ∧ c = k.idleThread

theorem Leaves.mem {c : ThreadRef} {s : ThreadStatus} {dst : Option QueueRef}
    (hl : Leaves k k' c s dst) {q : QueueRef} {t : ThreadRef} (hm : t ∈ k'.queue q) :
    t ∈ k.queue q ∨ (dst = some q ∧ t = c) := by
  rw [hl.queue] at hm
  split at hm
  next hq =>
    rcases List.mem_append.mp hm with hm | hm
    · exact .inl hm
    · exact .inr ⟨hq, List.mem_singleton.mp hm⟩
  next => exact .inl hm

theorem Leaves.mem_of_mem {c : ThreadRef} {s : ThreadStatus} {dst : Option QueueRef}
    (hl : Leaves k k' c s dst) {q : QueueRef} {t : ThreadRef} (hm : t ∈ k.queue q) :
    t ∈ k'.queue q := by
  rw [hl.queue]
  split
  · exact List.mem_append_left _ hm
  · exact hm

/-- The caller leaves the CPU: nobody is on it until `schedule` is done. -/
theorem Placed.leave {c : ThreadRef} {s : ThreadStatus} {dst : Option QueueRef}
    (h : Placed k (some c) new) (hl : Leaves k k' c s dst) : Placed k' none new := by
  have hcq : ∀ q, c ∉ k.queue q := fun q hm => h.notCpu hm rfl
  have hlive := h.cpuLive rfl
  constructor
  · intro q
    rw [hl.queue]
    split
    · exact List.nodup_append.mpr ⟨h.nodup q, by simp, by
        intro a ha b hb
        rw [List.mem_singleton.mp hb]
        intro hac
        exact hcq q (hac ▸ ha)⟩
    · exact h.nodup q
  · intro q q' t hm hm'
    rcases hl.mem hm with hm | ⟨hq, rfl⟩
    · rcases hl.mem hm' with hm' | ⟨hq', rfl⟩
      · exact h.once hm hm'
      · exact absurd hm (hcq q)
    · rcases hl.mem hm' with hm' | ⟨hq', _⟩
      · exact absurd hm' (hcq q')
      · exact Option.some.inj (hq.symm.trans hq')
  · intro q t hm
    rcases hl.mem hm with hm | ⟨hq, rfl⟩
    · have hne : t ≠ c := fun htc => hcq q (htc ▸ hm)
      rw [(hl.other t hne).1, (hl.other t hne).2]
      exact h.queued hm
    · exact ⟨hl.self.1.trans hlive.1, hl.self.2.trans (hl.toStatus q hq).1.symm⟩
  · intro q t hm
    rw [hl.idleThread]
    rcases hl.mem hm with hm | ⟨hq, rfl⟩
    · exact h.notIdle hm
    · exact (hl.toStatus q hq).2
  · intro q t hm
    simp
  · intro q t hm
    rcases hl.mem hm with hm | ⟨_, rfl⟩
    · exact h.notNew hm
    · exact hlive.2.2
  · intro t hmagic hstatus hidle _
    rw [hl.idleThread] at hidle
    by_cases htc : t = c
    · subst htc
      cases hto : dst with
      | none =>
        rcases hl.fromIdle hto with ⟨hs, _⟩ | ⟨_, hi⟩
        · rw [hl.self.2, hs] at hstatus
          cases hstatus
        · exact absurd hi hidle
      | some q =>
        have hq := (hl.toStatus q hto).1
        rw [hl.self.2] at hstatus
        have hqr : q = .ready := by
          cases q with
          | ready => rfl
          | sleep =>
            rw [hstatus] at hq
            cases hq
          | sema s =>
            rw [hstatus] at hq
            cases hq
        show t ∈ k'.queue .ready
        rw [hl.queue, if_pos (by rw [hto, hqr])]
        exact List.mem_append_right _ (List.mem_singleton_self t)
    · rw [(hl.other t htc).1] at hmagic
      rw [(hl.other t htc).2] at hstatus
      exact hl.mem_of_mem (q := .ready)
        (h.ready hmagic hstatus hidle (fun he => htc (Option.some.inj he).symm))
  · intro t hmagic hstatus hidle _ hnew
    rw [hl.idleThread] at hidle
    by_cases htc : t = c
    · subst htc
      cases hto : dst with
      | none =>
        rcases hl.fromIdle hto with ⟨hs, _⟩ | ⟨_, hi⟩
        · rw [hl.self.2, hs] at hstatus
          cases hstatus
        · exact absurd hi hidle
      | some q =>
        have hq := (hl.toStatus q hto).1
        rw [hl.self.2] at hstatus
        refine ⟨q, ?_, ?_⟩
        · rintro rfl
          rw [hstatus] at hq
          cases hq
        · rw [hl.queue, if_pos hto]
          exact List.mem_append_right _ (List.mem_singleton_self t)
    · rw [(hl.other t htc).1] at hmagic
      rw [(hl.other t htc).2] at hstatus
      obtain ⟨q, hne, hm⟩ :=
        h.blocked hmagic hstatus hidle (fun he => htc (Option.some.inj he).symm) hnew
      exact ⟨q, hne, hl.mem_of_mem hm⟩
  · intro t hmagic hstatus
    by_cases htc : t = c
    · subst htc
      rw [hl.self.2] at hstatus
      exact absurd hstatus hl.notRunning
    · rw [(hl.other t htc).1] at hmagic
      rw [(hl.other t htc).2] at hstatus
      exact absurd (Option.some.inj (h.running hmagic hstatus)).symm htc
  · intro t hc
    cases hc
  · intro t hn
    have hne : t ≠ c := fun htc => hlive.2.2 (htc ▸ hn)
    rw [(hl.other t hne).1, (hl.other t hne).2, hl.idleThread]
    exact h.created hn
  · rw [hl.idleThread]
    by_cases hic : k.idleThread = c
    · rw [hic, hl.self.1, hl.self.2]
      refine ⟨hlive.1, ?_⟩
      intro hdying
      cases hto : dst with
      | none =>
        rcases hl.fromIdle hto with ⟨_, hi⟩ | ⟨hs, _⟩
        · exact hi hic.symm
        · exact hs hdying
      | some q => exact (hl.toStatus q hto).2 hic.symm
    · rw [(hl.other _ hic).1, (hl.other _ hic).2]
      exact h.idle

/-! ## Coming back to `ready_list` -/

/-- What waking a thread does to the queues: it goes from where it was, a wait queue or
nowhere, to the end of `ready_list`, and becomes READY. -/
structure Wakes (k k' : Kernel) (t : ThreadRef) (src : Option QueueRef) : Prop where
  ready : k'.readyList = k.readyList ++ [t]
  queue : ∀ q, q ≠ .ready →
    k'.queue q = if src = some q then (k.queue q).erase t else k.queue q
  idleThread : k'.idleThread = k.idleThread
  self : (k'.threads t).magic = (k.threads t).magic ∧ (k'.threads t).status = .ready
  other : ∀ u, u ≠ t → (k'.threads u).magic = (k.threads u).magic ∧
    (k'.threads u).status = (k.threads u).status

/-- A queue after a wake-up holds what it held, except that the woken thread has moved. -/
theorem Wakes.mem {t : ThreadRef} {src : Option QueueRef} (hw : Wakes k k' t src)
    {q : QueueRef} {u : ThreadRef} (hm : u ∈ k'.queue q) :
    u ∈ k.queue q ∨ (q = .ready ∧ u = t) := by
  by_cases hq : q = .ready
  · subst hq
    change u ∈ k'.readyList at hm
    rw [hw.ready] at hm
    rcases List.mem_append.mp hm with hm | hm
    · exact .inl hm
    · exact .inr ⟨rfl, List.mem_singleton.mp hm⟩
  · rw [hw.queue q hq] at hm
    split at hm
    · exact .inl (List.mem_of_mem_erase hm)
    · exact .inl hm

theorem Wakes.mem_of_mem {t : ThreadRef} {src : Option QueueRef} (hw : Wakes k k' t src)
    {q : QueueRef} {u : ThreadRef} (hne : u ≠ t) (hm : u ∈ k.queue q) : u ∈ k'.queue q := by
  by_cases hq : q = .ready
  · subst hq
    change u ∈ k'.readyList
    rw [hw.ready]
    exact List.mem_append_left _ hm
  · rw [hw.queue q hq]
    split
    · exact (List.mem_erase_of_ne hne).mpr hm
    · exact hm

/-- A BLOCKED thread becomes READY. It is taken out of the wait queue it is in, or it was a
new thread and stops being one. -/
theorem Placed.unblock {t : ThreadRef} {src : Option QueueRef} {new' : ThreadRef → Prop}
    (h : Placed k cpu new) (hw : Wakes k k' t src)
    (hsrc : (∃ q, src = some q ∧ q ≠ .ready ∧ t ∈ k.queue q ∧ ∀ u, new' u ↔ new u) ∨
      (src = none ∧ new t ∧ ∀ u, new' u ↔ new u ∧ u ≠ t)) : Placed k' cpu new' := by
  -- in both cases the thread is a live one, off the CPU, and in no queue but `src`
  have hmagic : (k.threads t).magic = true := by
    rcases hsrc with ⟨q, _, _, hm, _⟩ | ⟨_, hn, _⟩
    · exact (h.queued hm).1
    · exact (h.created hn).1
  have hidle : t ≠ k.idleThread := by
    rcases hsrc with ⟨q, _, _, hm, _⟩ | ⟨_, hn, _⟩
    · exact h.notIdle hm
    · exact (h.created hn).2.2
  have hcpu : cpu ≠ some t := by
    rcases hsrc with ⟨q, _, _, hm, _⟩ | ⟨_, hn, _⟩
    · exact h.notCpu hm
    · exact fun hc => (h.cpuLive hc).2.2 hn
  have hnew' : ∀ u, new' u → new u := by
    rcases hsrc with ⟨_, _, _, _, hn⟩ | ⟨_, _, hn⟩
    · exact fun u => (hn u).mp
    · exact fun u hu => ((hn u).mp hu).1
  have hnewt : ¬ new' t := by
    rcases hsrc with ⟨q, _, _, hm, hn⟩ | ⟨_, _, hn⟩
    · exact fun ht => h.notNew hm ((hn t).mp ht)
    · exact fun ht => ((hn t).mp ht).2 rfl
  have hgone : ∀ q, q ≠ .ready → t ∉ k'.queue q := by
    intro q hq hm
    rw [hw.queue q hq] at hm
    rcases hsrc with ⟨q', hs, _, hmem, _⟩ | ⟨hs, hn, _⟩
    · split at hm
      · exact ((h.nodup q).mem_erase_iff.mp hm).1 rfl
      next hne => exact hne (hs.trans (congrArg some (h.once hmem hm)))
    · rw [if_neg (by rw [hs]; simp)] at hm
      exact h.notNew hm hn
  have hfresh : t ∉ k.readyList := by
    intro hm
    rcases hsrc with ⟨q, _, hne, hmem, _⟩ | ⟨_, hn, _⟩
    · have hm' : t ∈ k.queue .ready := hm
      exact hne (h.once hmem hm')
    · exact h.notNew (q := .ready) hm hn
  constructor
  · intro q
    by_cases hq : q = .ready
    · subst hq
      change k'.readyList.Nodup
      rw [hw.ready]
      refine List.nodup_append.mpr ⟨h.nodup .ready, by simp, ?_⟩
      intro a ha b hb
      rw [List.mem_singleton.mp hb]
      intro hat
      exact hfresh (hat ▸ ha)
    · rw [hw.queue q hq]
      split
      · exact (h.nodup q).erase t
      · exact h.nodup q
  · intro q q' u hm hm'
    by_cases hut : u = t
    · subst hut
      have hr : ∀ q, u ∈ k'.queue q → q = .ready := fun q hm =>
        Classical.byContradiction fun hq => hgone q hq hm
      rw [hr q hm, hr q' hm']
    · rcases hw.mem hm with hm | ⟨_, hu⟩
      · rcases hw.mem hm' with hm' | ⟨_, hu⟩
        · exact h.once hm hm'
        · exact absurd hu hut
      · exact absurd hu hut
  · intro q u hm
    by_cases hut : u = t
    · subst hut
      have hq : q = .ready := Classical.byContradiction fun hq => hgone q hq hm
      rw [hq, hw.self.1, hw.self.2]
      exact ⟨hmagic, rfl⟩
    · rw [(hw.other u hut).1, (hw.other u hut).2]
      rcases hw.mem hm with hm | ⟨_, hu⟩
      · exact h.queued hm
      · exact absurd hu hut
  · intro q u hm
    rw [hw.idleThread]
    rcases hw.mem hm with hm | ⟨_, rfl⟩
    · exact h.notIdle hm
    · exact hidle
  · intro q u hm
    rcases hw.mem hm with hm | ⟨_, rfl⟩
    · exact h.notCpu hm
    · exact hcpu
  · intro q u hm
    rcases hw.mem hm with hm | ⟨_, rfl⟩
    · exact fun hn => h.notNew hm (hnew' u hn)
    · exact hnewt
  · intro u hmag hst hid hc
    by_cases hut : u = t
    · subst hut
      rw [hw.ready]
      exact List.mem_append_right _ (List.mem_singleton_self u)
    · rw [(hw.other u hut).1] at hmag
      rw [(hw.other u hut).2] at hst
      rw [hw.idleThread] at hid
      exact hw.mem_of_mem (q := .ready) hut (h.ready hmag hst hid hc)
  · intro u hmag hst hid hc hn
    by_cases hut : u = t
    · subst hut
      rw [hw.self.2] at hst
      cases hst
    · rw [(hw.other u hut).1] at hmag
      rw [(hw.other u hut).2] at hst
      rw [hw.idleThread] at hid
      have hold : ¬ new u := by
        intro hnu
        rcases hsrc with ⟨_, _, _, _, heq⟩ | ⟨_, _, heq⟩
        · exact hn ((heq u).mpr hnu)
        · exact hn ((heq u).mpr ⟨hnu, hut⟩)
      obtain ⟨q, hne, hm⟩ := h.blocked hmag hst hid hc hold
      exact ⟨q, hne, hw.mem_of_mem hut hm⟩
  · intro u hmag hst
    by_cases hut : u = t
    · subst hut
      rw [hw.self.2] at hst
      cases hst
    · rw [(hw.other u hut).1] at hmag
      rw [(hw.other u hut).2] at hst
      exact h.running hmag hst
  · intro u hc
    have hut : u ≠ t := fun hu => hcpu (hu ▸ hc)
    rw [(hw.other u hut).1, (hw.other u hut).2]
    obtain ⟨hm, hs, hn⟩ := h.cpuLive hc
    exact ⟨hm, hs, fun hnu => hn (hnew' u hnu)⟩
  · intro u hn
    have hut : u ≠ t := fun hu => hnewt (hu ▸ hn)
    rw [(hw.other u hut).1, (hw.other u hut).2, hw.idleThread]
    exact h.created (hnew' u hn)
  · rw [hw.idleThread, (hw.other _ hidle.symm).1, (hw.other _ hidle.symm).2]
    exact h.idle

/-! ## Being chosen -/

/-- The thread `schedule` puts on the CPU comes off `ready_list`, or is the idle thread when
the list is empty. -/
theorem Placed.choose {next : ThreadRef} (h : Placed k none new)
    (hn : nextThreadToRun k = .ok (next, k')) : Placed k' (some next) new := by
  rcases nextThreadToRun_eq_ok hn with ⟨hempty, rfl, rfl⟩ | ⟨hmax, rfl⟩
  · exact { h with
      notCpu := fun hm hc => h.notIdle hm (Option.some.inj hc).symm
      ready := fun hm hs hi _ => h.ready hm hs hi (by simp)
      blocked := fun hm hs hi _ hnew => h.blocked hm hs hi (by simp) hnew
      running := fun hm hs => absurd (h.running hm hs) (by simp)
      cpuLive := by
        intro t ht
        cases ht
        exact ⟨h.idle.1, h.idle.2, fun hnew => (h.created hnew).2.2 rfl⟩ }
  · have hmem : next ∈ k.queue .ready := hmax.mem
    have hsub : ∀ {q : QueueRef} {t : ThreadRef},
        t ∈ ({ k with readyList := k.readyList.erase next } : Kernel).queue q → t ∈ k.queue q := by
      intro q t hm
      cases q with
      | ready => exact List.mem_of_mem_erase hm
      | sleep => exact hm
      | sema s => exact hm
    have hself : ∀ {q : QueueRef},
        next ∉ ({ k with readyList := k.readyList.erase next } : Kernel).queue q := by
      intro q hm
      cases h.once (hsub hm) hmem
      exact ((h.nodup .ready).mem_erase_iff.mp hm).1 rfl
    constructor
    · intro q
      cases q with
      | ready => exact (h.nodup .ready).erase next
      | sleep => exact h.nodup .sleep
      | sema s => exact h.nodup (.sema s)
    · exact fun hm hm' => h.once (hsub hm) (hsub hm')
    · exact fun hm => h.queued (hsub hm)
    · exact fun hm => h.notIdle (hsub hm)
    · intro q t hm hc
      cases hc
      exact hself hm
    · exact fun hm => h.notNew (hsub hm)
    · intro t hm hs hi hc
      have hne : t ≠ next := fun he => hc (congrArg some he.symm)
      exact (List.mem_erase_of_ne hne).mpr (h.ready hm hs hi (by simp))
    · intro t hm hs hi hc hnew
      obtain ⟨q, hne, hq⟩ := h.blocked hm hs hi (by simp) hnew
      refine ⟨q, hne, ?_⟩
      cases q with
      | ready => exact absurd rfl hne
      | sleep => exact hq
      | sema s => exact hq
    · exact fun hm hs => absurd (h.running hm hs) (by simp)
    · intro t ht
      cases ht
      have hs := (h.queued hmem).2
      exact ⟨(h.queued hmem).1, by rw [hs]; simp [QueueRef.status], h.notNew hmem⟩
    · exact h.created
    · exact h.idle

/-- The sleeper the wake-up loop takes. -/
theorem wakes_of_sleeper {t : ThreadRef} (hu : threadUnblock t (k.offSleep t) = .ok k') :
    Wakes k k' t (some .sleep) := by
  obtain ⟨_, _, rfl⟩ := threadUnblock_eq_ok hu
  refine ⟨rfl, ?_, rfl, ?_, ?_⟩
  · intro q hq
    cases q with
    | ready => exact absurd rfl hq
    | sleep => rfl
    | sema s => rfl
  · simp [Kernel.setStatus, Kernel.offSleep, Kernel.pushReady, Kernel.modThread]
  · intro u hne
    simp [Kernel.setStatus, Kernel.offSleep, Kernel.pushReady, Kernel.modThread, hne]

/-- A thread that is in no queue is unblocked. -/
theorem wakes_threadUnblock {t : ThreadRef} (hu : threadUnblock t k = .ok k') :
    Wakes k k' t none := by
  obtain ⟨_, _, rfl⟩ := threadUnblock_eq_ok hu
  refine ⟨rfl, fun q hq => ?_, rfl, ?_, fun u hne => ?_⟩
  · cases q with
    | ready => exact absurd rfl hq
    | sleep => rfl
    | sema s => rfl
  · simp [Kernel.setStatus, Kernel.pushReady]
  · simp [Kernel.setStatus, Kernel.modThread_ne _ _ hne, Kernel.pushReady]

/-- The wake-up loop of `schedule` keeps queues and status in agreement, whatever part of
`sleep_list` it still has to visit. -/
theorem Placed.of_wakeSleepers : ∀ (ts : List ThreadRef) {k k' : Kernel}, Placed k none new →
    ts.Nodup → (∀ t ∈ ts, t ∈ k.sleepList) → wakeSleepers ts k = .ok k' →
    Placed k' none new
  | [], k, k', h, _, _, hw => by
    cases hw
    exact h
  | t :: rest, k, k', h, hnd, hsub, hw => by
    have hnd' := List.nodup_cons.mp hnd
    obtain ⟨_, ⟨_, hw⟩ | ⟨_, k₁, h₁, h₂⟩⟩ := wakeSleepers_cons hw
    · exact Placed.of_wakeSleepers rest h hnd'.2 (fun u hu => hsub u (List.mem_cons_of_mem _ hu)) hw
    · have hwakes := wakes_of_sleeper h₁
      have hmem : t ∈ k.queue .sleep := hsub t List.mem_cons_self
      refine Placed.of_wakeSleepers rest
        (h.unblock hwakes (.inl ⟨.sleep, rfl, by simp, hmem, fun _ => Iff.rfl⟩)) hnd'.2 ?_ h₂
      intro u hu
      have hut : u ≠ t := fun he => hnd'.1 (he ▸ hu)
      exact hwakes.mem_of_mem (q := .sleep) hut (hsub u (List.mem_cons_of_mem _ hu))

/-- `schedule` puts a thread on an empty CPU. -/
theorem Placed.of_schedule (h : Placed k none new) (hs : schedule k = .ok k') :
    Placed k' (some k'.current) new := by
  obtain ⟨k₁, k₂, next, hwake, hnext, _, _, rfl⟩ := schedule_eq_ok hs
  have h₁ := Placed.of_wakeSleepers k.sleepList h (h.nodup .sleep) (fun _ ht => ht) hwake
  refine (h₁.choose hnext).congr (fun q => ?_) rfl (fun t => ⟨rfl, rfl⟩)
  cases q <;> rfl

end Pintos.Threads
