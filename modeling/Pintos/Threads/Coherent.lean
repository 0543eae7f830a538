import Pintos.Threads.Membership

/-!
# Queue membership and thread status, over whole runs

`Coherent` is the invariant of the machine: the discipline of `Queues` with the current thread
on the CPU, the stacks in order, and what is known of a switch under way. It holds after
`thread_start` and every event keeps it; what a reader wants to know of the queues, of dying
threads and their pages, and of the assertion in `thread_unblock`, is read off it.
-/

namespace Pintos.Threads

open Pintos.Lib

/-- What holds between any two events. -/
structure Coherent (k : Kernel) : Prop where
  placed : Placed k (some k.current) k.New
  framed : Framed k
  running : k.scheduleTail = none → (k.threads k.current).status = .running
  switching : ∀ {prev}, k.scheduleTail = some prev →
    (k.threads k.current).status ≠ .running ∧ prev ≠ some k.current ∧
      (k.current = k.idleThread ∨ (k.threads k.current).status = .ready) ∧
      ∀ p ∈ prev, (k.threads p).magic = true
  dying : ∀ {t}, (k.threads t).magic = true → (k.threads t).status = .dying →
    t ≠ k.initialThread → k.scheduleTail = some (some t)

/-- The same of a kernel in which some threads have blocked themselves outside of every queue. -/
structure CoherentBut (aside : ThreadRef → Prop) (k : Kernel) : Prop where
  placed : Placed k (some k.current) fun t => k.New t ∨ aside t
  apart : ∀ {t}, aside t → ¬ k.New t
  framed : Framed k
  running : k.scheduleTail = none → (k.threads k.current).status = .running
  switching : ∀ {prev}, k.scheduleTail = some prev →
    (k.threads k.current).status ≠ .running ∧ prev ≠ some k.current ∧
      (k.current = k.idleThread ∨ (k.threads k.current).status = .ready) ∧
      ∀ p ∈ prev, (k.threads p).magic = true
  dying : ∀ {t}, (k.threads t).magic = true → (k.threads t).status = .dying →
    t ≠ k.initialThread → k.scheduleTail = some (some t)

variable {page : Option ThreadRef} {k k' : Kernel} {f : Frame} {new aside : ThreadRef → Prop}

/-- Coherent but for nobody is coherent. -/
theorem coherentBut_iff : CoherentBut (fun _ => False) k ↔ Coherent k := by
  have hnew : ∀ t, k.New t ∨ False ↔ k.New t := fun t => by rw [or_false]
  constructor
  · intro h
    exact ⟨h.placed.congrNew fun t => (hnew t).symm, h.framed, h.running, h.switching, h.dying⟩
  · intro h
    exact ⟨h.placed.congrNew hnew, False.elim, h.framed, h.running, h.switching, h.dying⟩

/-! ## Parts of a step -/

/-- A thread is new by its frames. -/
theorem new_iff_of_sameFrames (h : SameFrames k k') (t : ThreadRef) : k'.New t ↔ k.New t := by
  unfold Kernel.New
  simp only [h _]

/-- A quiet change that touches no frames keeps the stacks in order. -/
theorem Framed.of_quiet (h : Framed k) (hq : Quiet k k') (hf : SameFrames k k') : Framed k' where
  dead t ht := by
    rw [hf t]
    exact h.dead t (hq.magic t ▸ ht)
  dying t ht := by
    rw [hf t]
    exact h.dying t (hq.dying t ht)
  fits t g hg := by
    rw [hf t] at hg
    rw [hq.idleThread]
    exact h.fits t g hg
  exits t ht := by
    rw [hf t] at ht ⊢
    exact h.exits t ht
  idle := by
    rw [hq.idleThread, hf]
    exact h.idle
  nodup u := by
    rw [hf u]
    exact h.nodup u
  apart {t u v} hu hv := by
    rw [hf] at hu hv
    exact h.apart hu hv
  unmade {t u p} hu := by
    rw [hf] at hu
    rw [hq.magic]
    exact h.unmade hu
  made {t u} hu := by
    rw [hf] at hu
    rw [hq.usedMap]
    exact h.made hu
  used t ht := by
    rw [hq.magic] at ht
    rw [hq.usedMap]
    exact h.used t ht
  waiter x t ht := (hq.waiter x t ht).elim (h.waiter x t) id

/-- The thread on the CPU becomes RUNNING. -/
theorem Placed.run (h : Placed k (some k.current) new) :
    Placed (k.setStatus k.current .running) (some k.current) new := by
  have hself : (k.setStatus k.current .running).threads k.current =
      { k.threads k.current with status := .running } := by
    simp [Kernel.setStatus]
  have hother : ∀ t, t ≠ k.current →
      (k.setStatus k.current .running).threads t = k.threads t := by
    intro t ht
    exact Kernel.modThread_ne _ _ ht
  have hq : ∀ {q t}, t ∈ k.queue q → t ≠ k.current := fun {q t} hm he =>
    h.notCpu hm (congrArg some he.symm)
  have hqueue : ∀ q, (k.setStatus k.current .running).queue q = k.queue q := by
    intro q
    cases q <;> rfl
  have hlive := h.cpuLive rfl
  constructor
  · intro q
    rw [hqueue]
    exact h.nodup q
  · intro q q' t hm hm'
    rw [hqueue] at hm hm'
    exact h.once hm hm'
  · intro q t hm
    rw [hqueue] at hm
    rw [hother t (hq hm)]
    exact h.queued hm
  · intro q t hm
    rw [hqueue] at hm
    exact h.notIdle hm
  · intro q t hm
    rw [hqueue] at hm
    exact h.notCpu hm
  · intro q t hm
    rw [hqueue] at hm
    exact h.notNew hm
  · intro t hm hs hi hc
    have ht : t ≠ k.current := fun he => hc (congrArg some he.symm)
    rw [hother t ht] at hm hs
    exact h.ready hm hs hi hc
  · intro t hm hs hi hc hn
    have ht : t ≠ k.current := fun he => hc (congrArg some he.symm)
    rw [hother t ht] at hm hs
    obtain ⟨q, hne, hmem⟩ := h.blocked hm hs hi hc hn
    exact ⟨q, hne, (hqueue q).symm ▸ hmem⟩
  · intro t hm hs
    by_cases ht : t = k.current
    · rw [ht]
    · rw [hother t ht] at hm hs
      exact h.running hm hs
  · intro t hc
    cases hc
    rw [hself]
    exact ⟨hlive.1, by simp, hlive.2.2⟩
  · intro t hn
    have ht : t ≠ k.current := fun he => hlive.2.2 (he ▸ hn)
    rw [hother t ht]
    exact h.created hn
  · show ((k.setStatus k.current .running).threads k.idleThread).magic = true ∧
      ((k.setStatus k.current .running).threads k.idleThread).status ≠ .dying
    by_cases hi : k.idleThread = k.current
    · rw [hi, hself]
      exact ⟨hlive.1, by simp⟩
    · rw [hother _ hi]
      exact h.idle

/-- The page of a DYING thread is freed. -/
theorem Placed.free {p : ThreadRef} {cpu : Option ThreadRef} (h : Placed k cpu new)
    (hd : (k.threads p).status = .dying) (u : ThreadRef → Bool) :
    Placed ({ k with usedMap := u }.modThread p fun th => { th with magic := false }) cpu new := by
  have hqueue : ∀ q, ({ k with usedMap := u }.modThread p
      fun th => { th with magic := false }).queue q = k.queue q := by
    intro q
    cases q <;> rfl
  have hother : ∀ t, t ≠ p → ({ k with usedMap := u }.modThread p
      fun th => { th with magic := false }).threads t = k.threads t := by
    intro t ht
    exact Kernel.modThread_ne _ _ ht
  have hdead : ∀ t, (({ k with usedMap := u }.modThread p
      fun th => { th with magic := false }).threads t).magic = true → t ≠ p := by
    rintro t hm rfl
    simp at hm
  have hq : ∀ {q t}, t ∈ k.queue q → t ≠ p := by
    rintro q t hm rfl
    have hs := (h.queued hm).2
    rw [hd] at hs
    cases q <;> cases hs
  have hidle : k.idleThread ≠ p := fun he => h.idle.2 (he ▸ hd)
  constructor
  · intro q
    rw [hqueue]
    exact h.nodup q
  · intro q q' t hm hm'
    rw [hqueue] at hm hm'
    exact h.once hm hm'
  · intro q t hm
    rw [hqueue] at hm
    rw [hother t (hq hm)]
    exact h.queued hm
  · intro q t hm
    rw [hqueue] at hm
    exact h.notIdle hm
  · intro q t hm
    rw [hqueue] at hm
    exact h.notCpu hm
  · intro q t hm
    rw [hqueue] at hm
    exact h.notNew hm
  · intro t hm hs hi hc
    have htp := hdead t hm
    rw [hother t htp] at hm hs
    exact h.ready hm hs hi hc
  · intro t hm hs hi hc hn
    have htp := hdead t hm
    rw [hother t htp] at hm hs
    obtain ⟨q, hne, hmem⟩ := h.blocked hm hs hi hc hn
    exact ⟨q, hne, (hqueue q).symm ▸ hmem⟩
  · intro t hm hs
    have htp := hdead t hm
    rw [hother t htp] at hm hs
    exact h.running hm hs
  · intro t hc
    have ht : t ≠ p := fun he => (h.cpuLive hc).2.1 (he ▸ hd)
    rw [hother t ht]
    exact h.cpuLive hc
  · intro t hn
    have ht : t ≠ p := by
      rintro rfl
      have := (h.created hn).2.1
      rw [hd] at this
      cases this
    rw [hother t ht]
    exact h.created hn
  · have hi := h.idle
    rw [← hother _ hidle] at hi
    exact hi

/-! ## The four events -/

/-- `thread_schedule_tail`, inverted: the thread on the CPU is RUNNING; the page of the thread
switched from is freed if that thread is DYING and is not the initial thread. -/
theorem threadScheduleTail_eq_ok {prev : Option ThreadRef}
    (h : threadScheduleTail prev k = .ok k') :
    (k' = { k.setStatus k.current .running with threadTicks := 0 } ∧
      ∀ p, prev = some p → ((k.setStatus k.current .running).threads p).status = .dying →
        p = k.initialThread) ∨
    ∃ p, prev = some p ∧ ((k.setStatus k.current .running).threads p).status = .dying ∧
      p ≠ k.initialThread ∧ p ≠ k.current ∧ k.usedMap p = true ∧
      k' = { k.setStatus k.current .running with
        threadTicks := 0
        usedMap := Function.update k.usedMap p false }.modThread p
          fun th => { th with magic := false } := by
  unfold threadScheduleTail at h
  cases prev with
  | none =>
    cases h
    exact .inl ⟨rfl, by simp⟩
  | some p =>
    dsimp only at h
    split at h
    next hd =>
      obtain ⟨_, hne, h⟩ := bind_eq_ok.mp h
      unfold pallocFreePage at h
      obtain ⟨_, hused, h⟩ := bind_eq_ok.mp h
      cases h
      exact .inr ⟨p, rfl, hd.1, hd.2, assert_eq_ok.mp hne, assert_eq_ok.mp hused, rfl⟩
    next hd =>
      cases h
      refine .inl ⟨rfl, fun q hq hdying => ?_⟩
      cases hq
      by_contra hne
      exact hd ⟨hdying, hne⟩

/-- What a tail leaves of the kernel outside the threads and the pages. -/
structure TailKeeps (k k' : Kernel) : Prop where
  queue : ∀ q, k'.queue q = k.queue q
  semas : k'.semas = k.semas
  current : k'.current = k.current
  scheduleTail : k'.scheduleTail = none
  idleThread : k'.idleThread = k.idleThread
  initialThread : k'.initialThread = k.initialThread

/-- The end of a switch in which no page is freed. -/
theorem CoherentBut.tail_keep {prev : Option ThreadRef} (h : CoherentBut aside k)
    (ht : k.scheduleTail = some prev) (hk : TailKeeps k k')
    (hthreads : k'.threads = (k.setStatus k.current .running).threads)
    (hused : k'.usedMap = k.usedMap)
    (hkeep : ∀ p, prev = some p → (k'.threads p).status = .dying → p = k.initialThread) :
    CoherentBut aside k' := by
  have hquiet := quiet_setStatus k k.current (s := .running) (by simp)
  have hframes : SameFrames k k' := fun u => by
    rw [hthreads]
    exact sameFrames_modThread k k.current (fun th => { th with status := .running })
      (fun _ => rfl) u
  have hmagic : ∀ t, (k'.threads t).magic = (k.threads t).magic := fun t => by
    rw [hthreads]
    exact hquiet.magic t
  have hdying : ∀ t, (k'.threads t).status = .dying → (k.threads t).status = .dying := fun t => by
    rw [hthreads]
    exact hquiet.dying t
  constructor
  · have hrun : Placed k' (some k.current) fun t => k.New t ∨ aside t := h.placed.run.congr
      (fun q => (hk.queue q).trans (by cases q <;> rfl)) hk.idleThread
      fun t => by rw [hthreads]; exact ⟨rfl, rfl⟩
    rw [hk.current]
    exact hrun.congrNew fun t => or_congr_left (new_iff_of_sameFrames hframes t)
  · exact fun ha hn => h.apart ha ((new_iff_of_sameFrames hframes _).mp hn)
  · refine h.framed.of_quiet ⟨hmagic, hdying, hused, hk.idleThread, hk.initialThread, ?_⟩ hframes
    intro x t hm
    rw [hk.semas] at hm
    exact .inl hm
  · intro _
    rw [hthreads, hk.current]
    simp [Kernel.setStatus]
  · intro prev' hp
    rw [hk.scheduleTail] at hp
    cases hp
  · intro t hm hd hi
    rw [hk.initialThread] at hi
    have hold := h.dying (hmagic t ▸ hm) (hdying t hd) hi
    rw [ht] at hold
    exact absurd (hkeep t (Option.some.inj hold) hd) hi

/-- The end of a switch from a DYING thread: its page is freed and it is no thread any more. -/
theorem CoherentBut.tail_free {p : ThreadRef} (h : CoherentBut aside k)
    (ht : k.scheduleTail = some (some p)) (hk : TailKeeps k k')
    (hother : ∀ t, t ≠ p → k'.threads t = (k.setStatus k.current .running).threads t)
    (hself : k'.threads p = { k.threads p with magic := false })
    (hd : (k.threads p).status = .dying)
    (hused : k'.usedMap = Function.update k.usedMap p false) : CoherentBut aside k' := by
  have hquiet := quiet_setStatus k k.current (s := .running) (by simp)
  have hmagic : (k.threads p).magic = true := (h.switching ht).2.2.2 p rfl
  have hpc : k.current ≠ p := fun he => (h.switching ht).2.1 (congrArg some he.symm)
  have hnil : (k.threads p).frames = [] := h.framed.dying p hd
  have hframes : SameFrames k k' := fun u => by
    by_cases hu : u = p
    · rw [hu, hself]
    · rw [hother u hu]
      exact sameFrames_modThread k k.current (fun th => { th with status := .running })
        (fun _ => rfl) u
  have hdead : (k'.threads p).magic = false := by rw [hself]
  have hlive : ∀ t, (k'.threads t).magic = true → t ≠ p := fun t hm he => by
    rw [he, hdead] at hm
    cases hm
  have hold : ∀ t, t ≠ p → (k'.threads t).magic = (k.threads t).magic := fun t htp => by
    rw [hother t htp]
    exact hquiet.magic t
  have hdying : ∀ t, (k'.threads t).status = .dying → (k.threads t).status = .dying := by
    intro t hts
    by_cases htp : t = p
    · rw [htp]
      exact hd
    · rw [hother t htp] at hts
      exact hquiet.dying t hts
  -- a page being made into a thread is not the page of `p`, which is a thread and not new
  have hmade : ∀ {t u}, t ∈ making (k.threads u).frames → t ≠ p := by
    rintro t u hu rfl
    obtain ⟨g, hg, hc⟩ := List.mem_filterMap.mp hu
    have hnotnew : ¬ k.New t := fun hn => by
      have hs := (h.placed.created (.inl hn)).2.1
      rw [hd] at hs
      cases hs
    cases g with
    | initThread t' q =>
      cases hc
      have hfalse := h.framed.unmade hg
      rw [hmagic] at hfalse
      cases hfalse
    | allocateTid t' => exact hnotnew ⟨u, _, hg, hc⟩
    | threadUnblock t' tid => exact hnotnew ⟨u, _, hg, hc⟩
    | _ => cases hc
  have hpages : ∀ t, t ≠ p → k.usedMap t = true → k'.usedMap t = true := fun t htp hu => by
    rw [hused, Function.update_of_ne htp]
    exact hu
  constructor
  · have hstatus : ((k.setStatus k.current .running).threads p).status = .dying := by
      rw [Kernel.setStatus, Kernel.modThread_ne _ _ hpc.symm]
      exact hd
    have hfree : Placed k' (some k.current) fun t => k.New t ∨ aside t := by
      refine (h.placed.run.free hstatus k.usedMap).congr
        (fun q => (hk.queue q).trans (by cases q <;> rfl)) hk.idleThread fun t => ?_
      rw [Kernel.modThread_threads]
      split
      next htp =>
        subst htp
        exact ⟨hdead, by rw [hself]; exact hd.trans hstatus.symm⟩
      next htp =>
        rw [hother t htp]
        exact ⟨rfl, rfl⟩
    rw [hk.current]
    exact hfree.congrNew fun t => or_congr_left (new_iff_of_sameFrames hframes t)
  · exact fun ha hn => h.apart ha ((new_iff_of_sameFrames hframes _).mp hn)
  · constructor
    case dead =>
      intro t htm
      rw [hframes t]
      by_cases htp : t = p
      · rw [htp]
        exact hnil
      · exact h.framed.dead t (hold t htp ▸ htm)
    case dying =>
      intro t hts
      rw [hframes t]
      exact h.framed.dying t (hdying t hts)
    case fits =>
      intro t g hg
      rw [hframes t] at hg
      rw [hk.idleThread]
      exact h.framed.fits t g hg
    case exits =>
      intro t hte
      rw [hframes t] at hte ⊢
      exact h.framed.exits t hte
    case idle =>
      rw [hk.idleThread, hframes]
      exact h.framed.idle
    case nodup =>
      intro u
      rw [hframes u]
      exact h.framed.nodup u
    case apart =>
      intro t u v hu hv
      rw [hframes] at hu hv
      exact h.framed.apart hu hv
    case unmade =>
      intro t u q hu
      rw [hframes] at hu
      by_cases htp : t = p
      · rw [htp]
        exact hdead
      · rw [hold t htp]
        exact h.framed.unmade hu
    case made =>
      intro t u hu
      rw [hframes] at hu
      exact hpages t (hmade hu) (h.framed.made hu)
    case used =>
      intro t htm
      have htp := hlive t htm
      exact hpages t htp (h.framed.used t (hold t htp ▸ htm))
    case waiter =>
      intro x t hm
      rw [hk.semas] at hm
      exact h.framed.waiter x t hm
  · intro _
    rw [hk.current, hother _ hpc]
    simp [Kernel.setStatus]
  · intro prev' hp
    rw [hk.scheduleTail] at hp
    cases hp
  · intro t hm hdt hi
    have htp := hlive t hm
    rw [hk.initialThread] at hi
    have hprev := h.dying (hold t htp ▸ hm) (hdying t hdt) hi
    rw [ht] at hprev
    exact absurd (Option.some.inj (Option.some.inj hprev)).symm htp

/-- The tail of a switch marks the thread running, and frees the page of one that has died. -/
theorem CoherentBut.of_tail {prev : Option ThreadRef} (h : CoherentBut aside k)
    (ht : k.scheduleTail = some prev)
    (hx : threadScheduleTail prev { k with scheduleTail := none } = .ok k') : CoherentBut aside k' := by
  obtain ⟨rfl, hkeep⟩ | ⟨p, rfl, hd, hini, hne, hused, rfl⟩ := threadScheduleTail_eq_ok hx
  · exact h.tail_keep ht ⟨fun q => by cases q <;> rfl, rfl, rfl, rfl, rfl, rfl⟩ rfl rfl hkeep
  · have hne' : p ≠ k.current := hne
    have hstatus : (k.setStatus k.current .running).threads p = k.threads p :=
      Kernel.modThread_ne _ _ hne'
    refine h.tail_free ht ⟨fun q => by cases q <;> rfl, rfl, rfl, rfl, rfl, rfl⟩
      (fun t htp => Kernel.modThread_ne _ _ htp) ?_ ?_ rfl
    · rw [Kernel.modThread_self]
      exact congrArg (fun th : Thread => { th with magic := false }) hstatus
    · rw [← hstatus]
      exact hd

/-- Frames are not what places a thread. -/
theorem setFrames_placed (k : Kernel) (t : ThreadRef) (fs : List Frame) (u : ThreadRef) :
    ((k.setFrames t fs).threads u).magic = (k.threads u).magic ∧
      ((k.setFrames t fs).threads u).status = (k.threads u).status :=
  modThread_placed k t (fun th => { th with frames := fs }) (fun _ => rfl) (fun _ => rfl) u

/-- What a thread has to do is no concern of the queues. -/
theorem Placed.setFrames {cpu : Option ThreadRef} (h : Placed k cpu new) (t : ThreadRef)
    (fs : List Frame) : Placed (k.setFrames t fs) cpu new := by
  refine h.congr (fun q => ?_) rfl (setFrames_placed k t fs)
  cases q <;> rfl

/-- The code of a call creates nobody and is nobody's private code. -/
theorem Call.frame_plain (c : Call) :
    c.frame.creates = none ∧ ∀ idle t, c.frame.Fits idle t := by
  cases c <;> exact ⟨rfl, fun _ _ => trivial⟩

/-- A thread in thread code is not the idle thread, which never leaves its loop. -/
theorem Framed.current_ne_idle (h : Framed k) (hf : (k.threads k.current).frames = []) :
    k.current ≠ k.idleThread := by
  intro he
  rcases h.idle with hi | hi
  · rw [← he, hf] at hi
    cases hi
  · rw [← he, hf] at hi
    cases hi

/-- The running thread may call anything. -/
theorem CoherentBut.of_call {c : Call} (h : CoherentBut aside k) (hn : k.scheduleTail = none)
    (hf : (k.threads k.current).frames = []) :
    CoherentBut aside (k.setFrames k.current [c.frame]) := by
  have hself : ((k.setFrames k.current [c.frame]).threads k.current).frames = [c.frame] := by
    simp [Kernel.setFrames]
  have hother : ∀ u, u ≠ k.current →
      (k.setFrames k.current [c.frame]).threads u = k.threads u := fun u hu =>
    Kernel.modThread_ne _ _ hu
  have hplain := setFrames_placed k k.current [c.frame]
  have hmaking : ∀ u, making ((k.setFrames k.current [c.frame]).threads u).frames =
      making (k.threads u).frames := by
    intro u
    by_cases hu : u = k.current
    · rw [hu, hself, hf]
      simp [making, c.frame_plain.1]
    · rw [hother u hu]
  have hlive := h.placed.cpuLive rfl
  have hnew : ∀ t, (k.setFrames k.current [c.frame]).New t ↔ k.New t := by
    intro t
    constructor
    · rintro ⟨u, g, hg, hs⟩
      by_cases hu : u = k.current
      · rw [hu, hself] at hg
        rw [List.mem_singleton.mp hg] at hs
        have hc := creates_of_starts hs
        rw [c.frame_plain.1] at hc
        cases hc
      · rw [hother u hu] at hg
        exact ⟨u, g, hg, hs⟩
    · rintro ⟨u, g, hg, hs⟩
      refine ⟨u, g, ?_, hs⟩
      by_cases hu : u = k.current
      · rw [hu, hf] at hg
        cases hg
      · rw [hother u hu]
        exact hg
  constructor
  · exact (h.placed.setFrames k.current [c.frame]).congrNew fun t => or_congr_left (hnew t)
  · exact fun ha hn => h.apart ha ((hnew _).mp hn)
  · constructor
    case dead =>
      intro t hm
      rw [(hplain t).1] at hm
      have hu : t ≠ k.current := fun he => by
        rw [he, hlive.1] at hm
        cases hm
      rw [hother t hu]
      exact h.framed.dead t hm
    case dying =>
      intro t hs
      rw [(hplain t).2] at hs
      have hu : t ≠ k.current := fun he => by
        rw [he, h.running hn] at hs
        cases hs
      rw [hother t hu]
      exact h.framed.dying t hs
    case fits =>
      intro t g hg
      by_cases hu : t = k.current
      · rw [hu, hself] at hg
        rw [List.mem_singleton.mp hg]
        exact c.frame_plain.2 _ _
      · rw [hother t hu] at hg
        exact h.framed.fits t g hg
    case exits =>
      intro t ht
      by_cases hu : t = k.current
      · rw [hu, hself] at ht ⊢
        rw [List.mem_singleton.mp ht]
      · rw [hother t hu] at ht ⊢
        exact h.framed.exits t ht
    case idle =>
      have hi := h.framed.idle
      rw [← hother _ (h.framed.current_ne_idle hf).symm] at hi
      exact hi
    case nodup =>
      intro u
      rw [hmaking]
      exact h.framed.nodup u
    case apart =>
      intro t u v hu hv
      rw [hmaking] at hu hv
      exact h.framed.apart hu hv
    case unmade =>
      intro t u q hu
      rw [(hplain t).1]
      by_cases huc : u = k.current
      · rw [huc, hself] at hu
        have hc := c.frame_plain.1
        rw [← List.mem_singleton.mp hu] at hc
        cases hc
      · rw [hother u huc] at hu
        exact h.framed.unmade hu
    case made =>
      intro t u hu
      rw [hmaking] at hu
      exact h.framed.made hu
    case used =>
      intro t hm
      rw [(hplain t).1] at hm
      exact h.framed.used t hm
    case waiter => exact h.framed.waiter
  · intro hn'
    exact (hplain k.current).2.trans (h.running hn')
  · intro prev hp
    have hp' : k.scheduleTail = some prev := hp
    rw [hn] at hp'
    cases hp'
  · intro t hm hd hi
    rw [(hplain t).1] at hm
    rw [(hplain t).2] at hd
    exact h.dying hm hd hi

/-- Where the CPU is after a step, and who may be dying then. -/
theorem CoherentBut.of_cpu {aside' : ThreadRef → Prop}
    (hp : Placed k' (some k'.current) fun t => k'.New t ∨ aside' t)
    (ha : ∀ {t}, aside' t → ¬ k'.New t) (hf : Framed k') (h : CoherentBut aside k) (hn : k.scheduleTail = none)
    (hcpu : Kept k k' ∨ Switched k.current k')
    (hmagic : (k'.threads k.current).magic = true)
    (hdying : ∀ t, (k'.threads t).magic = true → (k'.threads t).status = .dying →
      t ≠ k'.initialThread → t = k.current) : CoherentBut aside' k' := by
  -- a DYING thread is not on the CPU, so the step was its switch
  have hoff : ∀ {t}, (k'.threads t).status = .dying → t ≠ k'.current := fun hd he =>
    (hp.cpuLive rfl).2.1 (he ▸ hd)
  rcases hcpu with hk | hs
  · have hnone : k'.scheduleTail = none := hk.scheduleTail.trans hn
    refine ⟨hp, ha, hf, fun _ => hk.status.trans (h.running hn), fun {prev} hprev => ?_,
      fun {t} hm hd hi => ?_⟩
    · rw [hnone] at hprev
      cases hprev
    · have ht := hdying t hm hd hi
      exact absurd (ht.trans hk.current.symm) (hoff hd)
  · refine ⟨hp, ha, hf, fun hnone => ?_, fun {prev} hprev => ?_, fun {t} hm hd hi => ?_⟩
    · rw [hs.scheduleTail] at hnone
      cases hnone
    · rw [hs.scheduleTail] at hprev
      have hprev' := Option.some.inj hprev
      refine ⟨hs.status, fun he => ?_, hs.chosen, fun p hpm => ?_⟩
      · rw [he] at hprev'
        split at hprev'
        next hne => exact hne (Option.some.inj hprev')
        next => cases hprev'
      · rw [Option.mem_def.mp hpm] at hprev'
        split at hprev'
        next => exact Option.some.inj hprev' ▸ hmagic
        next => cases hprev'
    · have ht := hdying t hm hd hi
      have hne : k.current ≠ k'.current := ht ▸ hoff hd
      rw [hs.scheduleTail, if_pos hne, ht]

/-- The next frame of the running thread finds the state it needs. -/
theorem CoherentBut.runs {rest : List Frame} (h : CoherentBut aside k)
    (hf : (k.threads k.current).frames = f :: rest) :
    Runs (k.setFrames k.current rest) f fun t => k.New t ∨ aside t := by
  have hhead : f ∈ (k.threads k.current).frames := hf ▸ List.mem_cons_self
  refine ⟨fun hi => ?_, h.framed.fits _ _ hhead, fun t ht => h.framed.waiter _ t ht, ?_, ?_⟩
  · have hi' : k.current = k.idleThread := hi
    rcases h.framed.idle with hidle | hidle
    · rw [← hi', hf] at hidle
      exact .inl (List.cons.inj hidle).1
    · rw [← hi', hf] at hidle
      exact .inr (List.cons.inj hidle).1
  · rintro t p rfl
    rw [(setFrames_placed k k.current rest t).1]
    exact h.framed.unmade hhead
  · rintro t tid rfl
    exact .inl ⟨k.current, _, hhead, rfl⟩

/-- And leaves behind what `Follows` lists. -/
theorem CoherentBut.pushes {rest : List Frame} (h : CoherentBut aside k)
    (hf : (k.threads k.current).frames = f :: rest)
    (hx : exec page (k.setFrames k.current rest) f = .ok k') :
    ∃ fs, Follows page (k.setFrames k.current rest) f fs ∧
      Pushes (k.setFrames k.current rest) k' fs := by
  refine exec_frames hx ?_
  rintro t p rfl
  have hdead := h.framed.unmade (hf ▸ List.mem_cons_self)
  have hne : t ≠ k.current := fun he => by
    rw [he, (h.placed.cpuLive rfl).1] at hdead
    cases hdead
  refine ⟨hne, ?_⟩
  rw [Kernel.setFrames, Kernel.modThread_ne _ _ hne]
  exact h.framed.dead t hdead

/-- One frame of it leaves every thread where it belongs, whatever it runs. -/
theorem CoherentBut.of_run {rest : List Frame} (h : CoherentBut aside k) (hn : k.scheduleTail = none)
    (hf : (k.threads k.current).frames = f :: rest)
    (hx : exec page (k.setFrames k.current rest) f = .ok k') : CoherentBut aside k' := by
  have hplain := setFrames_placed k k.current rest
  have hplaced := h.placed.setFrames k.current rest
  have hhead : f ∈ (k.threads k.current).frames := hf ▸ List.mem_cons_self
  have hfit := h.framed.fits _ _ hhead
  have hlive := h.placed.cpuLive rfl
  have hrun := h.running hn
  obtain ⟨hp, hcpu⟩ := Placed.exec hplaced (h.runs hf) hx
  have hvital := exec_vital hx hfit
  obtain ⟨fs, hfs, hpush⟩ := h.pushes hf hx
  have hfound : ∀ t p, .initThread t p ∈ fs → k'.usedMap t = true := by
    intro t p ht
    obtain ⟨rfl, _⟩ := hfs.of_init ht
    rcases hfs.making with ⟨t', p', _, _, rfl⟩ | hsub
    · simp only [List.mem_cons, reduceCtorEq, Frame.initThread.injEq, List.not_mem_nil,
        or_false, false_or] at ht
      obtain ⟨rfl, rfl⟩ := ht
      exact found_used hx hpush
    · cases hsub.subset (mem_making ht rfl)
  have hframed := h.framed.exec hf hlive.1 hrun hvital hfs hpush hfound
  have hnew := h.framed.new_iff hf hfs hpush
  -- a thread aside is not being created, and a page that is made into a thread was none
  have hunblock : ∀ t, aside t → ∀ tid, f ≠ .threadUnblock t tid := by
    rintro t ha tid rfl
    exact h.apart ha ⟨k.current, _, hhead, rfl⟩
  have hinit : ∀ t, aside t → ∀ p, f ≠ .initThread t p := by
    rintro t ha p rfl
    have hm := h.framed.unmade hhead
    rw [(h.placed.created (.inr ha)).1] at hm
    cases hm
  have hafter : ∀ t, k'.New t ∨ aside t ↔ NewAfter f (fun t => k.New t ∨ aside t) t := by
    intro t
    rw [hnew t]
    constructor
    · rintro ((⟨hn, hu⟩ | hp) | ha)
      · exact .inl ⟨.inl hn, hu⟩
      · exact .inr hp
      · exact .inl ⟨.inr ha, hunblock t ha⟩
    · rintro (⟨hn | ha, hu⟩ | hp)
      · exact .inl (.inl ⟨hn, hu⟩)
      · exact .inr ha
      · exact .inl (.inr hp)
  have hapart : ∀ {t}, aside t → ¬ k'.New t := by
    intro t ha hn
    rcases (hnew t).mp hn with ⟨hn, _⟩ | ⟨p, hp⟩
    · exact h.apart ha hn
    · exact hinit t ha p hp
  have hmag : ∀ t, (k.threads t).magic = true → (k'.threads t).magic = true := fun t hm =>
    (hvital.magic t).mpr (.inl ((hplain t).1.trans hm))
  refine CoherentBut.of_cpu (hp.congrNew hafter) hapart hframed h hn ?_ (hmag _ hlive.1) ?_
  · rcases hcpu with hk | hs
    · exact .inl ⟨hk.current, hk.scheduleTail, hk.status.trans (hplain k.current).2⟩
    · exact .inr hs
  · intro t hm hd hi
    rw [hvital.initialThread] at hi
    rcases hvital.dying t hd with hold | ⟨_, ht⟩
    · rw [(hplain t).2] at hold
      rcases (hvital.magic t).mp hm with hm | ⟨p, rfl⟩
      · have := h.dying ((hplain t).1 ▸ hm) hold hi
        rw [hn] at this
        cases this
      · -- a page just made into a thread is BLOCKED
        have := (hp.created (t := t) (.inr ⟨p, rfl⟩)).2.1
        rw [hd] at this
        cases this
    · exact ht

/-- Nobody is born, nobody dies and no stack changes. -/
theorem CoherentBut.of_quiet {aside' : ThreadRef → Prop} (h : CoherentBut aside k)
    (hn : k.scheduleTail = none) (hq : Quiet k k') (hf : SameFrames k k')
    (hp : Placed k' (some k'.current) fun t => k.New t ∨ aside' t)
    (ha : ∀ {t}, aside' t → ¬ k.New t) (hcpu : Kept k k' ∨ Switched k.current k') :
    CoherentBut aside' k' := by
  have hnew := new_iff_of_sameFrames hf
  refine CoherentBut.of_cpu (hp.congrNew fun t => or_congr_left (hnew t))
    (fun hat hn => ha hat ((hnew _).mp hn)) (h.framed.of_quiet hq hf) h hn hcpu ?_ ?_
  · rw [hq.magic]
    exact (h.placed.cpuLive rfl).1
  · intro t hm hd hi
    rw [hq.magic] at hm
    rw [hq.initialThread] at hi
    have := h.dying hm (hq.dying t hd) hi
    rw [hn] at this
    cases this

/-- A tick leaves every thread where it belongs. -/
theorem CoherentBut.of_tick (h : CoherentBut aside k) (hn : k.scheduleTail = none)
    (hx : timerInterrupt k = .ok k') : CoherentBut aside k' := by
  obtain ⟨hp, hk⟩ := h.placed.keep_of_eq (threadTick k) rfl rfl rfl rfl
    (queue_of_eq rfl rfl fun _ => rfl)
  have hquiet : Quiet k (threadTick k) := .of_eq rfl rfl rfl rfl rfl
  rcases timerInterrupt_eq_ok hx with rfl | hy
  · exact h.of_quiet hn hquiet (fun _ => rfl) hp h.apart (.inl hk)
  · obtain ⟨hp', hs⟩ := hp.of_threadYield hy
    exact h.of_quiet hn (hquiet.trans (quiet_threadYield hy))
      (fun u => (threadYield_same hy).frames u) hp' h.apart (.inr hs)

/-- Every event keeps the invariant, whoever is aside. -/
theorem CoherentBut.of_step {e : Event} (h : CoherentBut aside k) (hx : step e k = .ok k') :
    CoherentBut aside k' := by
  obtain ⟨prev, _, ht, hx⟩ | ⟨c, _, hn, hf, rfl⟩ | ⟨page, f, rest, _, hn, hf, hx⟩ |
    ⟨_, hn, hx, _⟩ := step_eq_ok hx
  · exact h.of_tail ht hx
  · exact h.of_call hn hf
  · exact h.of_run hn hf hx
  · exact h.of_tick hn hx

/-- Every step keeps the kernel coherent. -/
theorem Coherent.of_step {e : Event} (h : Coherent k) (hx : step e k = .ok k') : Coherent k' :=
  coherentBut_iff.mp ((coherentBut_iff.mpr h).of_step hx)

/-- A frame as part of a step. -/
theorem Coherent.of_run {rest : List Frame} (h : Coherent k) (hn : k.scheduleTail = none)
    (hf : (k.threads k.current).frames = f :: rest)
    (hx : exec page (k.setFrames k.current rest) f = .ok k') : Coherent k' :=
  coherentBut_iff.mp ((coherentBut_iff.mpr h).of_run hn hf hx)

/-- The next frame of the running thread finds the state it needs. -/
theorem Coherent.runs {rest : List Frame} (h : Coherent k)
    (hf : (k.threads k.current).frames = f :: rest) :
    Runs (k.setFrames k.current rest) f k.New := by
  obtain ⟨hidle, hfits, hwaiter, hinit, -⟩ := (coherentBut_iff.mpr h).runs hf
  refine ⟨hidle, hfits, hwaiter, hinit, ?_⟩
  rintro t tid rfl
  exact ⟨k.current, _, hf ▸ List.mem_cons_self, rfl⟩

/-- What it leaves on the stack is what the function has still to do. -/
theorem Coherent.pushes {rest : List Frame} (h : Coherent k)
    (hf : (k.threads k.current).frames = f :: rest)
    (hx : exec page (k.setFrames k.current rest) f = .ok k') :
    ∃ fs, Follows page (k.setFrames k.current rest) f fs ∧
      Pushes (k.setFrames k.current rest) k' fs :=
  (coherentBut_iff.mpr h).pushes hf hx

/-- `thread_start` leaves the idle thread in its loop, and the others in thread code. -/
theorem frames_afterThreadStart (b : Boot) (t : ThreadRef) :
    ((afterThreadStart b).threads t).frames = [] ∨
      (t = b.idle ∧ ((afterThreadStart b).threads t).frames = [.idleBlock]) := by
  show (ite _ _ (ite _ _ _) : Thread).frames = [] ∨ (_ ∧ (ite _ _ (ite _ _ _) : Thread).frames = _)
  split
  next => exact .inl rfl
  next =>
    split
    next h => exact .inr ⟨h, rfl⟩
    next => exact .inl rfl

/-- And `thread_start` establishes it. -/
theorem coherent_afterThreadStart (b : Boot) : Coherent (afterThreadStart b) := by
  have hne := b.main_ne_idle
  have hmain : (afterThreadStart b).threads b.main = bootThread 1 priDefault 0 .running [] := by
    simp [afterThreadStart]
  have hidle : (afterThreadStart b).threads b.idle =
      bootThread 2 priMin (-1) .ready [.idleBlock] := by
    simp [afterThreadStart, hne.symm]
  have hrest : ∀ t, t ≠ b.main → t ≠ b.idle → (afterThreadStart b).threads t = noThread := by
    intro t h₁ h₂
    simp [afterThreadStart, h₁, h₂]
  have hempty : ∀ q, (afterThreadStart b).queue q = [] := by
    intro q
    cases q with
    | ready => rfl
    | sleep => rfl
    | sema s => cases s <;> rfl
  -- the only two threads there are
  have hlive : ∀ t, ((afterThreadStart b).threads t).magic = true → t = b.main ∨ t = b.idle := by
    intro t hm
    by_contra hno
    rw [not_or] at hno
    rw [hrest t hno.1 hno.2] at hm
    cases hm
  have hframes := frames_afterThreadStart b
  have hmaking : ∀ t, making ((afterThreadStart b).threads t).frames = [] := by
    intro t
    rcases hframes t with h | ⟨_, h⟩
    · rw [h]; rfl
    · rw [h]; rfl
  have hdying : ∀ t, ((afterThreadStart b).threads t).status ≠ .dying := by
    intro t
    by_cases h₁ : t = b.main
    · rw [h₁, hmain]
      simp [bootThread]
    · by_cases h₂ : t = b.idle
      · rw [h₂, hidle]
        simp [bootThread]
      · rw [hrest t h₁ h₂]
        simp [noThread]
  have hnew : ∀ t, ¬ (afterThreadStart b).New t := by
    rintro t ⟨u, g, hg, hs⟩
    rcases hframes u with h | ⟨_, h⟩
    · rw [h] at hg
      cases hg
    · rw [h] at hg
      rw [List.mem_singleton.mp hg] at hs
      cases hs
  constructor
  · constructor
    · intro q
      rw [hempty]
      exact List.nodup_nil
    · intro q q' t hm
      rw [hempty] at hm
      cases hm
    · intro q t hm
      rw [hempty] at hm
      cases hm
    · intro q t hm
      rw [hempty] at hm
      cases hm
    · intro q t hm
      rw [hempty] at hm
      cases hm
    · intro q t hm
      rw [hempty] at hm
      cases hm
    · intro t hm hs hi hc
      rcases hlive t hm with rfl | rfl
      · exact absurd rfl hc
      · exact absurd rfl hi
    · intro t hm hs hi hc
      rcases hlive t hm with rfl | rfl
      · exact absurd rfl hc
      · exact absurd rfl hi
    · intro t hm hs
      rcases hlive t hm with rfl | rfl
      · rfl
      · rw [hidle] at hs
        cases hs
    · intro t ht
      cases ht
      exact ⟨by rw [show (afterThreadStart b).current = b.main from rfl, hmain]; rfl,
        hdying _, hnew _⟩
    · intro t hn
      exact absurd hn (hnew t)
    · exact ⟨by rw [show (afterThreadStart b).idleThread = b.idle from rfl, hidle]; rfl,
        hdying _⟩
  · constructor
    case dead =>
      intro t hm
      rcases hframes t with h | ⟨rfl, _⟩
      · exact h
      · rw [hidle] at hm
        cases hm
    case dying => exact fun t hd => absurd hd (hdying t)
    case fits =>
      intro t g hg
      rcases hframes t with h | ⟨rfl, h⟩
      · rw [h] at hg
        cases hg
      · rw [h] at hg
        rw [List.mem_singleton.mp hg]
        rfl
    case exits =>
      intro t ht
      rcases hframes t with h | ⟨_, h⟩
      · rw [h] at ht
        cases ht
      · rw [h] at ht
        simp at ht
    case idle => exact .inl (by rw [show (afterThreadStart b).idleThread = b.idle from rfl, hidle]; rfl)
    case nodup =>
      intro u
      rw [hmaking]
      exact List.nodup_nil
    case apart =>
      intro t u v hu
      rw [hmaking] at hu
      cases hu
    case unmade =>
      intro t u p hu
      have hm := mem_making hu rfl
      rw [hmaking] at hm
      cases hm
    case made =>
      intro t u hu
      rw [hmaking] at hu
      cases hu
    case used =>
      intro t hm
      rcases hlive t hm with rfl | rfl
      · exact b.main_used
      · exact b.idle_used
    case waiter =>
      intro x t ht
      cases ht
  · intro _
    rw [show (afterThreadStart b).current = b.main from rfl, hmain]
    rfl
  · intro prev hp
    cases hp
  · intro t _ hd
    exact absurd hd (hdying t)

/-- Every state reached after `thread_start` is coherent. -/
theorem reach_coherent {b : Boot} (h : Reach (Steps step) (afterThreadStart b) k) :
    Coherent k :=
  h.invariant (coherent_afterThreadStart b) fun _ _ _ hk hs => hk.of_step hs

/-- An event leaves the frames of every thread alone but those of the running thread, which calls
a primitive or runs a frame. -/
theorem Coherent.step_frames {e : Event} (h : Coherent k) (hx : step e k = .ok k')
    (t : ThreadRef) :
    (k'.threads t).frames = (k.threads t).frames ∨
    (t = k.current ∧ (k.threads t).frames = [] ∧ ∃ c : Call, (k'.threads t).frames = [c.frame]) ∨
    (t = k.current ∧ ∃ page f rest fs, e = .run page ∧ (k.threads t).frames = f :: rest ∧
      exec page (k.setFrames k.current rest) f = .ok k' ∧
      Follows page (k.setFrames k.current rest) f fs ∧ (k'.threads t).frames = fs ++ rest) := by
  obtain ⟨prev, rfl, htail, hx⟩ | ⟨c, rfl, _, hf, rfl⟩ | ⟨page, f, rest, rfl, _, hf, hx⟩ |
    ⟨rfl, _, hx, _⟩ := step_eq_ok hx
  · left
    obtain ⟨rfl, _⟩ | ⟨p, _, _, _, _, _, rfl⟩ := threadScheduleTail_eq_ok hx
    · exact sameFrames_modThread k k.current (fun th => { th with status := .running })
        (fun _ => rfl) t
    · refine (sameFrames_modThread (k.setStatus k.current .running) p
        (fun th => { th with magic := false }) (fun _ => rfl) t).trans ?_
      exact sameFrames_modThread k k.current (fun th => { th with status := .running })
        (fun _ => rfl) t
  · by_cases ht : t = k.current
    · subst ht
      right; left
      refine ⟨rfl, hf, c, ?_⟩
      rw [Kernel.setFrames, Kernel.modThread_self]
    · left
      rw [Kernel.setFrames, Kernel.modThread_ne _ _ ht]
  · obtain ⟨fs, hfollow, hpush⟩ := h.pushes hf hx
    have hframes := frames_of_pushes hpush t
    by_cases ht : t = k.current
    · subst ht
      right; right
      rw [if_pos rfl] at hframes
      exact ⟨rfl, page, f, rest, fs, rfl, hf, hx, hfollow, hframes⟩
    · left
      rw [hframes, if_neg ht]
  · left
    obtain rfl | hy := timerInterrupt_eq_ok hx
    · rfl
    · exact (threadYield_same hy).frames t

end Pintos.Threads
