import Pintos.Threads.Frames

/-!
# The frames of a whole system

`Framed k` is what the stacks of all threads together satisfy between two events. The part
that takes an argument is thread creation: the page `palloc_get_page` hands out is the business
of one `thread_create` until `thread_unblock`, although that `thread_create` may block twice on
the way. `making` lists the pages a stack is busy with; the lists are disjoint.
-/

namespace Pintos.Threads

open Pintos.Lib

/-- The page a frame of `thread_create` is about. -/
def Frame.creates : Frame → Option ThreadRef
  | .initThread t _ | .allocateTid t | .threadUnblock t _ => some t
  | _ => none

/-- The thread a frame of `thread_create` is about, once `init_thread` has made it one. -/
def Frame.starts : Frame → Option ThreadRef
  | .allocateTid t | .threadUnblock t _ => some t
  | _ => none

/-- The pages a stack is making into threads. -/
def making (fs : List Frame) : List ThreadRef := fs.filterMap Frame.creates

/-- The thread is being created: `init_thread` has run and `thread_unblock` has not. -/
def Kernel.New (k : Kernel) (t : ThreadRef) : Prop :=
  ∃ u, ∃ f ∈ (k.threads u).frames, f.starts = some t

/-- What the stacks of all threads satisfy between two events. -/
structure Framed (k : Kernel) : Prop where
  dead : ∀ t, (k.threads t).magic = false → (k.threads t).frames = []
  dying : ∀ t, (k.threads t).status = .dying → (k.threads t).frames = []
  fits : ∀ t, ∀ f ∈ (k.threads t).frames, f.Fits k.idleThread t
  exits : ∀ t, .threadExit ∈ (k.threads t).frames → (k.threads t).frames = [.threadExit]
  idle : (k.threads k.idleThread).frames = [.idleBlock] ∨
    (k.threads k.idleThread).frames = [.idleHalt]
  nodup : ∀ u, (making (k.threads u).frames).Nodup
  apart : ∀ {t u v}, t ∈ making (k.threads u).frames → t ∈ making (k.threads v).frames → u = v
  unmade : ∀ {t u p}, .initThread t p ∈ (k.threads u).frames → (k.threads t).magic = false
  made : ∀ {t u}, t ∈ making (k.threads u).frames → k.usedMap t = true
  used : ∀ t, (k.threads t).magic = true → k.usedMap t = true
  waiter : ∀ x t, t ∈ (k.semas (.waiter x)).waiters → t = x

variable {page : Option ThreadRef} {k k' : Kernel} {f : Frame} {fs rest : List Frame}

theorem making_append (fs gs : List Frame) : making (fs ++ gs) = making fs ++ making gs :=
  List.filterMap_append

theorem mem_making {g : Frame} {t : ThreadRef} {fs : List Frame} (hg : g ∈ fs)
    (hc : g.creates = some t) : t ∈ making fs := List.mem_filterMap.mpr ⟨g, hg, hc⟩

theorem creates_of_starts {g : Frame} {t : ThreadRef} (h : g.starts = some t) :
    g.creates = some t := by
  cases g <;> first | exact h | cases h

/-- Only `bitmap_scan_and_flip` takes on a page. -/
theorem Follows.making (h : Follows page k f fs) :
    (∃ t p, f = .bitmapScanAndFlip p ∧ k.usedMap t = false ∧
      fs = [.lockRelease .poolLock, .initThread t p]) ∨
      (making fs).Sublist (making [f]) := by
  cases h with
  | found hfree => exact .inl ⟨_, _, rfl, hfree, rfl⟩
  | done _ => exact .inr (List.nil_sublist _)
  | _ => exact .inr (by simp [Threads.making, List.filterMap_cons, Frame.creates])

/-- What follows a frame fits where the frame did. -/
theorem Follows.fits {idle : ThreadRef} (h : Follows page k f fs) (hf : f.Fits idle k.current) :
    ∀ g ∈ fs, g.Fits idle k.current := by
  cases h with
  | done _ => simp
  | @down s =>
    intro g hg
    rw [List.mem_singleton.mp hg]
    cases s with
    | waiter x => exact hf
    | _ => trivial
  | again =>
    intro g hg
    rw [List.mem_singleton.mp hg]
    exact hf
  | idleBlock => simpa [Frame.Fits] using hf
  | idleHalt => simpa [Frame.Fits] using hf
  | _ => simp [Frame.Fits]

theorem Follows.not_exit (h : Follows page k f fs) : .threadExit ∉ fs := by
  cases h <;> simp

theorem Follows.of_init {t : ThreadRef} {p : Int} (h : Follows page k f fs)
    (hm : .initThread t p ∈ fs) : f = .bitmapScanAndFlip p ∧ k.usedMap t = false := by
  cases h with
  | found hfree =>
    simp only [List.mem_cons, List.not_mem_nil, or_false, reduceCtorEq, false_or,
      Frame.initThread.injEq] at hm
    obtain ⟨rfl, rfl⟩ := hm
    exact ⟨rfl, hfree⟩
  | _ => simp at hm

/-- The threads started by what follows a frame. -/
theorem Follows.starts {t : ThreadRef} (h : Follows page k f fs) :
    (∃ g ∈ fs, g.starts = some t) ↔ f = .allocateTid t ∨ ∃ p, f = .initThread t p := by
  cases h with
  | done hr =>
    constructor
    · rintro ⟨g, hg, _⟩
      cases hg
    · rintro (rfl | ⟨p, rfl⟩)
      · cases hr
      · cases hr
  | _ => simp [Frame.starts]

/-- The page found is allocated. -/
theorem found_used {t : ThreadRef} {p : Int} (h : exec page k (.bitmapScanAndFlip p) = .ok k')
    (hp : Pushes k k' [.lockRelease .poolLock, .initThread t p]) : k'.usedMap t = true := by
  have hcur := hp k.current
  rw [if_pos rfl] at hcur
  obtain ⟨t', _, rfl⟩ | rfl := bitmapScanAndFlip_eq_ok h
  · simp only [Kernel.pushFrames, Kernel.modThread_self, List.append_cancel_right_eq,
      List.cons.injEq, Frame.initThread.injEq, and_true, true_and] at hcur
    simp [Kernel.pushFrames, Kernel.modThread, hcur]
  · simp only [Kernel.pushFrames, Kernel.modThread_self, List.append_cancel_right_eq] at hcur
    cases hcur

/-- What running a frame can do to lives and pages. -/
structure Vital (f : Frame) (k k' : Kernel) : Prop where
  magic : ∀ t, (k'.threads t).magic = true ↔
    (k.threads t).magic = true ∨ ∃ p, f = .initThread t p
  dying : ∀ t, (k'.threads t).status = .dying →
    (k.threads t).status = .dying ∨ (f = .threadExit ∧ t = k.current)
  used : ∀ t, k.usedMap t = true → k'.usedMap t = true
  idleThread : k'.idleThread = k.idleThread
  initialThread : k'.initialThread = k.initialThread
  waiter : ∀ x t, t ∈ (k'.semas (.waiter x)).waiters →
    t ∈ (k.semas (.waiter x)).waiters ∨ t = x

theorem exec_vital (h : exec page k f = .ok k') (hfit : f.Fits k.idleThread k.current) :
    Vital f k k' := by
  cases hv : f.isVital with
  | false =>
    have hq := exec_quiet h hv hfit
    refine ⟨fun t => ?_, fun t ht => .inl (hq.dying t ht), fun t ht => ?_, hq.idleThread,
      hq.initialThread, hq.waiter⟩
    · rw [hq.magic t]
      refine ⟨.inl, fun hm => hm.elim id ?_⟩
      rintro ⟨p, rfl⟩
      cases hv
    · rw [hq.usedMap]
      exact ht
  | true =>
    cases f with
    | threadExit =>
      have hq := quiet_schedule (threadExit_eq_ok h)
      refine ⟨fun t => ?_, fun t ht => ?_, fun t ht => ?_, hq.idleThread, hq.initialThread,
        hq.waiter⟩
      · rw [hq.magic t]
        simp only [Kernel.setStatus, Kernel.modThread_threads, reduceCtorEq, exists_const,
          or_false]
        split
        next hu => rw [hu]
        next => rfl
      · have hd := hq.dying t ht
        simp only [Kernel.setStatus, Kernel.modThread_threads] at hd
        split at hd
        next hu => exact .inr ⟨rfl, hu⟩
        next => exact .inl hd
      · rw [hq.usedMap]
        exact ht
    | bitmapScanAndFlip p =>
      obtain ⟨t', _, rfl⟩ | rfl := bitmapScanAndFlip_eq_ok h
      · have hq := quiet_pushFrames { k with usedMap := Function.update k.usedMap t' true }
          k.current [.lockRelease .poolLock, .initThread t' p]
        refine ⟨fun t => ?_, fun t ht => .inl (hq.dying t ht), fun t ht => ?_, rfl, rfl,
          hq.waiter⟩
        · rw [hq.magic t]
          simp
        · rw [hq.usedMap]
          by_cases htt : t = t'
          · simp [htt]
          · simpa [htt] using ht
      · have hq := quiet_pushFrames k k.current [.lockRelease .poolLock]
        refine ⟨fun t => ?_, fun t ht => .inl (hq.dying t ht), fun t ht => ht, rfl, rfl,
          hq.waiter⟩
        rw [hq.magic t]
        simp
    | initThread t' p =>
      obtain ⟨k₁, h₁, h⟩ := bind_eq_ok.mp h
      obtain ⟨_, rfl⟩ := initThread_eq_ok h₁
      cases h
      have hq := quiet_pushFrames ({ k with allList := k.allList ++ [t'] }.modThread t' fun _ =>
        bootThread 0 p 0 .blocked []) k.current [.lockAcquire .tidLock, .allocateTid t']
      refine ⟨fun t => ?_, fun t ht => .inl ?_, fun t ht => ht, rfl, rfl, hq.waiter⟩
      · refine Iff.trans (iff_of_eq (congrArg (· = true) (hq.magic t))) ?_
        rw [Kernel.modThread_threads]
        split
        next ht => simp [ht, bootThread]
        next ht =>
          have hne : t' ≠ t := fun h => ht h.symm
          simp [hne]
      · have hd := hq.dying t ht
        rw [Kernel.modThread_threads] at hd
        split at hd
        next => cases hd
        next => exact hd
    | _ => cases hv

/-! ## One event -/

/-- The frames after the running thread has run one. -/
theorem frames_of_pushes (hp : Pushes (k.setFrames k.current rest) k' fs) (u : ThreadRef) :
    (k'.threads u).frames = if u = k.current then fs ++ rest else (k.threads u).frames := by
  have h := hp u
  simp only [Kernel.setFrames, Kernel.modThread_threads] at h
  rw [h]
  by_cases hu : u = k.current
  · simp only [Kernel.modThread, hu, if_true]
  · simp only [Kernel.modThread, hu, if_false]

/-- A page in the hands of the running thread's stack. -/
theorem Framed.head_creates (h : Framed k) (hf : (k.threads k.current).frames = f :: rest)
    {t : ThreadRef} (hc : f.creates = some t) :
    t ∉ making rest ∧ ∀ u, u ≠ k.current → t ∉ making (k.threads u).frames := by
  have hmem : t ∈ making (k.threads k.current).frames := by
    rw [hf]
    exact mem_making List.mem_cons_self hc
  constructor
  · have hnd := h.nodup k.current
    rw [hf, making, List.filterMap_cons_some hc] at hnd
    exact (List.nodup_cons.mp hnd).1
  · intro u hu ht
    exact hu (h.apart ht hmem)

/-- Running a frame keeps `Framed`. -/
theorem Framed.exec (h : Framed k) (hf : (k.threads k.current).frames = f :: rest)
    (hmagic : (k.threads k.current).magic = true)
    (hrun : (k.threads k.current).status = .running)
    (hv : Vital f (k.setFrames k.current rest) k')
    (hfs : Follows page (k.setFrames k.current rest) f fs)
    (hp : Pushes (k.setFrames k.current rest) k' fs)
    (hfound : ∀ t p, .initThread t p ∈ fs → k'.usedMap t = true) : Framed k' := by
  have hframes := frames_of_pushes hp
  have hfcur := hframes k.current
  rw [if_pos rfl] at hfcur
  have hother : ∀ u, u ≠ k.current → (k'.threads u).frames = (k.threads u).frames := by
    intro u hu
    rw [hframes u, if_neg hu]
  have hidle : k'.idleThread = k.idleThread := hv.idleThread
  have hm : ∀ t, (k'.threads t).magic = true ↔
      (k.threads t).magic = true ∨ ∃ p, f = .initThread t p := by
    intro t
    rw [hv.magic t, Kernel.setFrames, Kernel.modThread_threads]
    split
    next ht => rw [ht]
    next => rfl
  have hd : ∀ t, (k'.threads t).status = .dying →
      (k.threads t).status = .dying ∨ (f = .threadExit ∧ t = k.current) := by
    intro t ht
    have := hv.dying t ht
    rw [Kernel.setFrames, Kernel.modThread_threads] at this
    split at this
    next hu =>
      rw [hu]
      exact this.imp id fun h => ⟨h.1, rfl⟩
    next => exact this
  have hmem : ∀ g ∈ rest, g ∈ (k.threads k.current).frames := fun g hg =>
    hf ▸ List.mem_cons_of_mem _ hg
  have hhead : f ∈ (k.threads k.current).frames := hf ▸ List.mem_cons_self
  -- the pages in hand after the frame: those before, or one just found
  have hmaking : ∀ t, t ∈ making (fs ++ rest) → t ∈ making (k.threads k.current).frames ∨
      ∃ p, .initThread t p ∈ fs := by
    intro t ht
    rw [making_append] at ht
    rcases List.mem_append.mp ht with ht | ht
    · rcases hfs.making with ⟨t', p, _, _, rfl⟩ | hsub
      · right
        simp only [making, List.filterMap_cons, Frame.creates, List.filterMap_nil,
          List.mem_singleton] at ht
        exact ⟨p, by simp [ht]⟩
      · left
        have := hsub.subset ht
        rw [hf]
        obtain ⟨g, hg, hc⟩ := List.mem_filterMap.mp this
        rw [List.mem_singleton.mp hg] at hc
        exact mem_making List.mem_cons_self hc
    · left
      rw [hf]
      obtain ⟨g, hg, hc⟩ := List.mem_filterMap.mp ht
      exact mem_making (List.mem_cons_of_mem _ hg) hc
  have hfresh : ∀ t p, .initThread t p ∈ fs → k.usedMap t = false := fun t p ht =>
    (hfs.of_init ht).2
  constructor
  case dead =>
    intro t ht
    have hnot : ¬ ((k'.threads t).magic = true) := by simp [ht]
    rw [hm t, not_or] at hnot
    have hne : t ≠ k.current := fun he => hnot.1 (he ▸ hmagic)
    rw [hother t hne]
    exact h.dead t (by simpa using hnot.1)
  case dying =>
    intro t ht
    rcases hd t ht with ht | ⟨rfl, rfl⟩
    · have hne : t ≠ k.current := by
        rintro rfl
        rw [hrun] at ht
        cases ht
      rw [hother t hne]
      exact h.dying t ht
    · have hrest := h.exits _ hhead
      rw [hf] at hrest
      cases hrest
      have : fs = [] := by
        cases hfs with
        | done _ => rfl
      rw [hfcur, this]
      rfl
  case fits =>
    intro t g hg
    rw [hidle]
    by_cases ht : t = k.current
    · subst ht
      rw [hfcur] at hg
      rcases List.mem_append.mp hg with hg | hg
      · exact hfs.fits (h.fits _ _ hhead) g hg
      · exact h.fits _ _ (hmem g hg)
    · rw [hother t ht] at hg
      exact h.fits t g hg
  case exits =>
    intro t ht
    by_cases hc : t = k.current
    · subst hc
      rw [hfcur] at ht
      rcases List.mem_append.mp ht with ht | ht
      · exact absurd ht hfs.not_exit
      · have hrest := h.exits _ (hmem _ ht)
        rw [hf] at hrest
        cases hrest
        cases ht
    · rw [hother t hc] at ht ⊢
      exact h.exits t ht
  case idle =>
    rw [hidle]
    by_cases hc : k.idleThread = k.current
    · rw [hc, hfcur]
      rcases h.idle with hi | hi
      · rw [hc, hf] at hi
        cases hi
        cases hfs with
        | done hr => cases hr
        | idleBlock => exact .inr rfl
      · rw [hc, hf] at hi
        cases hi
        cases hfs with
        | done hr => cases hr
        | idleHalt => exact .inl rfl
    · rw [hother _ hc]
      exact h.idle
  case nodup =>
    intro u
    by_cases hu : u = k.current
    · subst hu
      rw [hfcur, making_append]
      have hnd := h.nodup k.current
      rw [hf] at hnd
      rcases hfs.making with ⟨t, p, rfl, hfree, rfl⟩ | hsub
      · refine List.nodup_cons.mpr ⟨fun ht => ?_, hnd⟩
        have : t ∈ making (k.threads k.current).frames := by
          rw [hf]
          exact ht
        have := h.made this
        have hfree' : k.usedMap t = false := hfree
        rw [hfree'] at this
        cases this
      · have hcons : making (f :: rest) = making [f] ++ making rest := making_append [f] rest
        rw [hcons] at hnd
        exact hnd.sublist (hsub.append_right _)
    · rw [hother u hu]
      exact h.nodup u
  case apart =>
    -- a page just found is in nobody's hands
    have hnew : ∀ t p u, .initThread t p ∈ fs → t ∉ making (k.threads u).frames := by
      intro t p u ht hu
      have := h.made hu
      rw [hfresh t p ht] at this
      cases this
    have hside : ∀ t v, v ≠ k.current → t ∈ making (fs ++ rest) →
        t ∈ making (k.threads v).frames → v = k.current := by
      intro t v _ ht hv
      rcases hmaking t ht with ht | ⟨p, ht⟩
      · exact h.apart hv ht
      · exact absurd hv (hnew t p v ht)
    intro t u v hu hv
    by_cases huc : u = k.current
    · by_cases hvc : v = k.current
      · rw [huc, hvc]
      · rw [huc, hfcur] at hu
        rw [hother v hvc] at hv
        exact absurd (hside t v hvc hu hv) hvc
    · rw [hother u huc] at hu
      by_cases hvc : v = k.current
      · rw [hvc, hfcur] at hv
        exact absurd (hside t u huc hv hu) huc
      · rw [hother v hvc] at hv
        exact h.apart hu hv
  case unmade =>
    intro t u p hu
    have hold : (k.threads t).magic = false ∧ ∀ q, f ≠ .initThread t q := by
      by_cases huc : u = k.current
      · rw [huc, hfcur] at hu
        rcases List.mem_append.mp hu with hu | hu
        · refine ⟨?_, fun q hq => ?_⟩
          · have hfree := hfresh t p hu
            by_contra hmt
            rw [h.used t (by simpa using hmt)] at hfree
            cases hfree
          · rw [(hfs.of_init hu).1] at hq
            cases hq
        · refine ⟨h.unmade (hmem _ hu), fun q hq => ?_⟩
          exact (h.head_creates hf (by rw [hq]; rfl)).1 (mem_making hu rfl)
      · rw [hother u huc] at hu
        refine ⟨h.unmade hu, fun q hq => ?_⟩
        exact (h.head_creates hf (by rw [hq]; rfl)).2 u huc (mem_making hu rfl)
    by_contra hmt
    rcases (hm t).mp (by simpa using hmt) with hmt | ⟨q, hq⟩
    · rw [hold.1] at hmt
      cases hmt
    · exact hold.2 q hq
  case made =>
    intro t u hu
    by_cases huc : u = k.current
    · rw [huc, hfcur] at hu
      rcases hmaking t hu with hu | ⟨p, hu⟩
      · exact hv.used t (h.made hu)
      · exact hfound t p hu
    · rw [hother u huc] at hu
      exact hv.used t (h.made hu)
  case used =>
    intro t ht
    rcases (hm t).mp ht with ht | ⟨p, rfl⟩
    · exact hv.used t (h.used t ht)
    · refine hv.used t (h.made (u := k.current) ?_)
      exact mem_making hhead rfl
  case waiter =>
    intro x t ht
    rcases hv.waiter x t ht with ht | rfl
    · exact h.waiter x t ht
    · rfl

/-- Who is being created after a frame: `init_thread` begins it, `thread_unblock` ends it. -/
theorem Framed.new_iff (h : Framed k) (hf : (k.threads k.current).frames = f :: rest)
    (hfs : Follows page (k.setFrames k.current rest) f fs)
    (hp : Pushes (k.setFrames k.current rest) k' fs) (t : ThreadRef) :
    k'.New t ↔ (k.New t ∧ ∀ tid, f ≠ .threadUnblock t tid) ∨ ∃ p, f = .initThread t p := by
  have hframes := frames_of_pushes hp
  constructor
  · rintro ⟨u, g, hg, hs⟩
    have hcreates := creates_of_starts hs
    rw [hframes u] at hg
    split at hg
    next hu =>
      rcases List.mem_append.mp hg with hg | hg
      · rcases hfs.starts.mp ⟨g, hg, hs⟩ with rfl | hi
        · exact .inl ⟨⟨k.current, _, hf ▸ List.mem_cons_self, rfl⟩, by simp⟩
        · exact .inr hi
      · refine .inl ⟨⟨k.current, g, hf ▸ List.mem_cons_of_mem _ hg, hs⟩, ?_⟩
        rintro tid rfl
        exact (h.head_creates hf rfl).1 (mem_making hg hcreates)
    next hu =>
      refine .inl ⟨⟨u, g, hg, hs⟩, ?_⟩
      rintro tid rfl
      exact (h.head_creates hf rfl).2 u hu (mem_making hg hcreates)
  · rintro (⟨⟨u, g, hg, hs⟩, hne⟩ | hi)
    · by_cases hu : u = k.current
      · subst hu
        rw [hf] at hg
        have hcur := hframes k.current
        rw [if_pos rfl] at hcur
        rcases List.mem_cons.mp hg with rfl | hg
        · have hstart : g = .allocateTid t := by
            cases g <;> simp_all [Frame.starts]
          obtain ⟨g', hg', hs'⟩ := hfs.starts.mpr (.inl hstart)
          exact ⟨k.current, g', hcur ▸ List.mem_append_left _ hg', hs'⟩
        · exact ⟨k.current, g, hcur ▸ List.mem_append_right _ hg, hs⟩
      · refine ⟨u, g, ?_, hs⟩
        rw [hframes u, if_neg hu]
        exact hg
    · obtain ⟨g, hg, hs⟩ := hfs.starts.mpr (.inr hi)
      refine ⟨k.current, g, ?_, hs⟩
      rw [hframes, if_pos rfl]
      exact List.mem_append_left _ hg

end Pintos.Threads
