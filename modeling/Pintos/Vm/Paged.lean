import Pintos.Vm.Transparency

/-!
# What a process reads

The runs of a single process: a read that returns gives the byte the process sees, and it does
return as long as the device has room. `Supplied` is what a page fault needs for that. The last
section is a run beyond the overflow of `curr_index`, where a page comes back with the bytes of
another one.
-/

namespace Pintos.Vm

open Pintos.Lib

variable {s s₁ s' : Memory} {p : ProcRef} {u : UPage} {f : Frame}
variable {flat : Flat} {written : SupRef → Option Content}

/-! ## Reads return -/

/-- What page faults need: the lock is free, and every frame in use can be evicted, `spare` apart,
which has just been taken from the pool. -/
structure Supplied (p : ProcRef) (s : Memory) (spare : Option Frame) : Prop where
  nonempty : 0 < s.poolSize
  lock : s.swapLock = none
  dir : ∃ pd, s.pagedir p = some pd
  below : ∀ {u f}, s.Maps p u f → u < physBase
  listed : ∀ f, s.used f = true → spare ≠ some f → ∃ e ∈ s.frameTable, e.frame = f
  inPool : ∀ e ∈ s.frameTable, e.frame < s.poolSize
  times : ∀ e ∈ s.frameTable, (s.sup e.aux).accessTime < 2 ^ 64 - 1
  clock : s.ticks < 2 ^ 64 - 1

/-- A frame is in the pool. -/
theorem pallocGetPage_inPool {zero : Bool} (h : pallocGetPage zero s = some (f, s')) :
    f < s.poolSize := by
  unfold pallocGetPage at h
  split at h
  · cases h
  · next f' hf =>
    cases h
    exact List.mem_range.mp (List.mem_of_find?_eq_some hf)

/-- A frame taken from the pool is the one that is open. -/
theorem Supplied.of_palloc {zero : Bool} (h : Supplied p s none)
    (hx : pallocGetPage zero s = some (f, s')) : Supplied p s' (some f) := by
  obtain ⟨_, rfl⟩ := pallocGetPage_eq_some hx
  refine ⟨h.nonempty, h.lock, h.dir, h.below, fun g hg hne => ?_, h.inPool, h.times, h.clock⟩
  have hgf : g ≠ f := fun hgf => hne (by rw [hgf])
  have hg' : Function.update s.used f true g = true := hg
  rw [Function.update_of_ne hgf] at hg'
  exact h.listed g hg' (by simp)

/-- Given back, none is open. -/
theorem Supplied.of_free (h : Supplied p s (some f)) (hx : pallocFreePage f s = .ok s') :
    Supplied p s' none := by
  obtain ⟨_, rfl⟩ := pallocFreePage_eq_ok hx
  refine ⟨h.nonempty, h.lock, h.dir, h.below, fun g hg _ => ?_, h.inPool, h.times, h.clock⟩
  have hg' : Function.update s.used f false g = true := hg
  have hgf : g ≠ f := by
    intro hgf
    rw [hgf, Function.update_self] at hg'
    cases hg'
  rw [Function.update_of_ne hgf] at hg'
  exact h.listed g hg' fun he => hgf (Option.some.inj he).symm

/-- The frame is mapped and listed. -/
theorem Supplied.of_mapped {r : SupRef} (h : Supplied p s (some f)) (hf : f < s.poolSize)
    (hu : u < physBase) (hmaps : ∀ v g, s'.Maps p v g ↔ s.Maps p v g ∨ (v = u ∧ g = f))
    (hdir : ∃ pd, s'.pagedir p = some pd) (hused : s'.used = s.used)
    (hft : s'.frameTable = s.frameTable ++ [⟨f, p, r⟩])
    (hnew : (s'.sup r).accessTime = s.ticks % 2 ^ 64)
    (hold : ∀ e ∈ s.frameTable, e.aux ≠ r → s'.sup e.aux = s.sup e.aux)
    (hrest : s'.swapLock = s.swapLock ∧ s'.poolSize = s.poolSize ∧ s'.ticks = s.ticks) :
    Supplied p s' none := by
  obtain ⟨hlock, hpool, hticks⟩ := hrest
  have haux : (s'.sup r).accessTime < 2 ^ 64 - 1 := by
    rw [hnew, Nat.mod_eq_of_lt (by have := h.clock; omega)]
    exact h.clock
  refine ⟨hpool.symm ▸ h.nonempty, hlock.trans h.lock, hdir, fun {v g} hm => ?_, fun g hg _ => ?_, fun e he => ?_,
    fun e he => ?_, hticks.symm ▸ h.clock⟩
  · rcases (hmaps v g).mp hm with hm | ⟨hv, _⟩
    · exact h.below hm
    · rw [hv]
      exact hu
  · rw [hused] at hg
    rw [hft]
    by_cases hgf : g = f
    · exact ⟨⟨f, p, r⟩, by simp, hgf.symm⟩
    · obtain ⟨e, he, heg⟩ := h.listed g hg fun hs => hgf (Option.some.inj hs).symm
      exact ⟨e, List.mem_append_left _ he, heg⟩
  · rw [hft] at he
    rw [hpool]
    rcases List.mem_append.mp he with he | he
    · exact h.inPool e he
    · rw [List.mem_singleton.mp he]
      exact hf
  · rw [hft] at he
    rcases List.mem_append.mp he with he | he
    · by_cases hea : e.aux = r
      · rw [hea]
        exact haux
      · rw [hold e he hea]
        exact h.times e he
    · rw [List.mem_singleton.mp he]
      exact haux

/-- What can be installed is a user page. -/
theorem installPage_below {writable table : Bool}
    (h : installPage p u f writable table s = .ok (true, s')) : u < physBase := by
  unfold installPage at h
  split at h
  · cases h
  · split at h
    · assumption
    · cases h

/-- A fault closes the open frame: it is the page's. -/
theorem Supplied.of_faultInto {table : Bool} (h : Supplied p s (some f)) (hf : f < s.poolSize)
    (hx : faultInto p u f table s = .ok s') : Supplied p s' none := by
  have hu : u < physBase := by
    unfold faultInto at hx
    obtain ⟨⟨installed, s₁⟩, h₁, hx⟩ := bind_eq_ok.mp hx
    cases installed with
    | false => cases hx
    | true => exact installPage_below h₁
  obtain ⟨pd, hpd, _, hcases⟩ := faultInto_eq_ok hx
  have hpd' : s'.pagedir = Function.update s.pagedir p (some (⟨u, f, true⟩ :: pd)) := by
    rcases hcases with ⟨_, hs'⟩ | ⟨r, _, _, hs'⟩ <;> rw [hs'] <;> rfl
  have hmaps : ∀ v g, s'.Maps p v g ↔ s.Maps p v g ∨ (v = u ∧ g = f) := by
    exact maps_install_own hpd hpd'
  have hdir : ∃ pd, s'.pagedir p = some pd := ⟨_, by rw [hpd', Function.update_self]⟩
  rcases hcases with ⟨_, hs'⟩ | ⟨r, _, _, hs'⟩
  · refine h.of_mapped (r := s.nextSup) hf hu hmaps hdir (by rw [hs']; rfl) (by rw [hs']; rfl) ?_
      (fun e he hne => ?_) (by rw [hs']; exact ⟨rfl, rfl, rfl⟩)
    · rw [hs']
      show (Function.update s.sup s.nextSup _ s.nextSup).accessTime = _
      rw [Function.update_self]
    · rw [hs']
      exact Function.update_of_ne hne _ _
  · refine h.of_mapped (r := r) hf hu hmaps hdir (by rw [hs']; rfl) (by rw [hs']; rfl) ?_
      (fun e _ hne => ?_) (by rw [hs']; exact ⟨rfl, rfl, rfl⟩)
    · rw [hs']
      show (Function.update s.sup r _ r).accessTime = _
      rw [Function.update_self]
    · rw [hs']
      exact Function.update_of_ne hne _ _

/-- A page of a segment closes the open frame, or gives it back. -/
theorem Supplied.of_loadInto {content : Option Content} {writable table ok : Bool}
    (h : Supplied p s (some f)) (hf : f < s.poolSize)
    (hx : loadInto p u f content writable table s = .ok (ok, s')) : Supplied p s' none := by
  unfold loadInto at hx
  split at hx
  next =>
    obtain ⟨s₁, h₁, hx⟩ := bind_eq_ok.mp hx
    cases hx
    exact h.of_free h₁
  next c =>
    obtain ⟨⟨installed, s₁⟩, h₁, hx⟩ := bind_eq_ok.mp hx
    rcases installPage_eq_ok h₁ with ⟨rfl, rfl⟩ | ⟨rfl, _, pd, hpd, rfl⟩
    · obtain ⟨s₂, h₂, hx⟩ := bind_eq_ok.mp hx
      cases hx
      have hfill : Supplied p { s with mem := Function.update s.mem f c } (some f) :=
        ⟨h.nonempty, h.lock, h.dir, h.below, h.listed, h.inPool, h.times, h.clock⟩
      exact hfill.of_free h₂
    · cases hx
      refine h.of_mapped (u := u) (r := s.nextSup) hf (installPage_below h₁) (fun v g => ?_)
        ⟨_, Function.update_self _ _ _⟩ rfl rfl ?_ (fun e _ hne => ?_) ⟨rfl, rfl, rfl⟩
      · exact maps_install_own (w := writable) hpd rfl v g
      · show (Function.update s.sup s.nextSup _ s.nextSup).accessTime = _
        rw [Function.update_self]
      · exact Function.update_of_ne hne _ _

/-- An eviction gives one frame back, and every other is still somebody's. -/
theorem Supplied.of_evicted {v : FrameEntry} (h : Supplied p s none) (hnodup : s.frameTable.Nodup)
    (he : Evicted s s' p v) (hw : Written s s' v) : Supplied p s' none := by
  obtain ⟨hpool, _, hlock, hticks⟩ := hw.rest
  have hmem : ∀ e ∈ s'.frameTable, e ∈ s.frameTable := by
    intro e he'
    rw [he.frameTable] at he'
    exact List.mem_of_mem_erase he'
  refine ⟨hpool.symm ▸ h.nonempty, hlock.trans h.lock, ?_, fun {u f} hm => ?_, fun g hg _ => ?_,
    fun e he' => ?_, fun e he' => ?_, hticks.symm ▸ h.clock⟩
  · obtain ⟨pd, _, hpd⟩ := he.pagedir
    exact ⟨_, by rw [hpd, Function.update_self]⟩
  · exact h.below ((he.maps p u f).mp hm).1
  · rw [he.used] at hg
    have hgv : g ≠ v.frame := by
      intro hgv
      rw [hgv, Function.update_self] at hg
      cases hg
    rw [Function.update_of_ne hgv] at hg
    obtain ⟨e, he', heg⟩ := h.listed g hg (by simp)
    refine ⟨e, ?_, heg⟩
    rw [he.frameTable]
    apply (List.Nodup.mem_erase_iff hnodup).mpr
    refine ⟨fun hev => ?_, he'⟩
    rw [hev] at heg
    exact hgv heg.symm
  · rw [hpool]
    exact h.inPool e (hmem e he')
  · rw [hw.accessTime]
    exact h.times e (hmem e he')

/-- The scan finds a victim if any entry is older than the sentinel. -/
theorem scanFrames_ne_none {sup : SupRef → SupPage} : ∀ {l : List FrameEntry} {maxTime : Nat}
    {maxFrame : Option FrameEntry},
    maxFrame ≠ none ∨ (∃ e ∈ l, (sup e.aux).accessTime < maxTime) →
    scanFrames sup l maxTime maxFrame ≠ none := by
  intro l
  induction l with
  | nil =>
    intro maxTime maxFrame h
    rcases h with h | ⟨e, he, _⟩
    · exact h
    · cases he
  | cons e' rest ih =>
    intro maxTime maxFrame h
    unfold scanFrames
    split
    next => exact ih (.inl (by simp))
    next hge =>
      apply ih
      rcases h with h | ⟨e, he, hlt⟩
      · exact .inl h
      · rcases List.mem_cons.mp he with rfl | he
        · exact absurd hlt hge
        · exact .inr ⟨e, he, hlt⟩

/-- With the pool empty there is a page to evict. -/
theorem Supplied.victim_ne_none (h : Supplied p s none) (hfull : pallocGetPage false s = none) :
    s.victim ≠ none := by
  have hused : s.used 0 = true := by
    unfold pallocGetPage at hfull
    split at hfull
    next hnone =>
      have h₀ := List.find?_eq_none.mp hnone 0 (List.mem_range.mpr h.nonempty)
      simpa using h₀
    next => cases hfull
  obtain ⟨e, he, _⟩ := h.listed 0 hused (by simp)
  exact scanFrames_ne_none (.inr ⟨e, he, h.times e he⟩)

/-- With a victim, `evict_frame` evicts it. -/
theorem Supplied.of_evictFrame {evicted : Bool} (h : Supplied p s none) (ht : Tracked s)
    (hv : s.victim ≠ none) (hx : evictFrame p s = .ok (evicted, s')) :
    evicted = true ∧ Supplied p s' none := by
  cases evicted with
  | false =>
    rcases evictFrame_eq_ok hx with ⟨_, hnone, _⟩ | ⟨htrue, _⟩
    · exact absurd hnone hv
    · cases htrue
  | true =>
    obtain ⟨v, he, hw⟩ := evictFrame_written hx
    exact ⟨rfl, h.of_evicted (List.Nodup.of_map _ ht.once) he hw⟩

/-- Making room opens no frame. -/
theorem Supplied.of_madeRoom (h : Supplied p s none) (ht : Tracked s) (hx : MadeRoom p s s') :
    Supplied p s' none := by
  cases hx with
  | free => exact h
  | evicted hnone he => exact (h.of_evictFrame ht (h.victim_ne_none hnone) he).2

/-- A fault that returns leaves no frame open. -/
theorem Supplied.of_pageFault {table : Bool} (h : Supplied p s none) (ht : Tracked s)
    (hx : pageFault p u table s = .ok s') : Supplied p s' none := by
  obtain ⟨s₁, f, s₂, hroom, h₂, hx⟩ := pageFault_cases hx
  have hs₂ := (h.of_madeRoom ht hroom).of_palloc h₂
  have hpool := pallocGetPage_inPool h₂
  obtain ⟨_, rfl⟩ := pallocGetPage_eq_some h₂
  exact hs₂.of_faultInto hpool hx

/-- A page of a segment leaves no frame open. -/
theorem Supplied.of_loadSegmentPage {content : Option Content} {writable table ok : Bool}
    (h : Supplied p s none) (ht : Tracked s)
    (hx : loadSegmentPage p u content writable table s = .ok (ok, s')) : Supplied p s' none := by
  obtain ⟨s₁, hroom, ⟨f, s₂, h₂, hx⟩ | ⟨_, rfl⟩⟩ := loadSegmentPage_cases hx
  · have hs₂ := (h.of_madeRoom ht hroom).of_palloc h₂
    have hpool := pallocGetPage_inPool h₂
    obtain ⟨_, rfl⟩ := pallocGetPage_eq_some h₂
    exact hs₂.of_loadInto hpool hx
  · exact h.of_madeRoom ht hroom

/-- An access of the program leaves no frame open. -/
theorem Supplied.of_touch {table : Bool} (h : Supplied p s none) (ht : Tracked s)
    (hx : touch p u table s = .ok s') : Supplied p s' none := by
  unfold touch at hx
  split at hx
  · cases hx
    exact h
  · split at hx
    · exact h.of_pageFault ht hx
    · cases hx

/-- No step of the program leaves a frame open, as long as slots can be counted. -/
theorem Supplied.of_userStep {op : UserOp} {out : Option UInt8} (h : Supplied p s none)
    (ht : Tracked s) (hcount : op.counts p s = true) (hx : userStep p op s = .ok (out, s')) :
    Supplied p s' none := by
  cases op with
  | load u content writable table =>
    obtain ⟨⟨ok, s₁⟩, h₁, hx⟩ := bind_eq_ok.mp hx
    cases hx
    exact h.of_loadSegmentPage ht h₁
  | read u i table =>
    obtain ⟨s₁, h₁, hx⟩ := bind_eq_ok.mp hx
    obtain ⟨b, _, hx⟩ := bind_eq_ok.mp hx
    cases hx
    exact h.of_touch ht h₁
  | write u i b table =>
    obtain ⟨s₁, h₁, hx⟩ := bind_eq_ok.mp hx
    obtain ⟨s₂, h₂, hx⟩ := bind_eq_ok.mp hx
    cases hx
    have hs₁ := h.of_touch ht h₁
    obtain ⟨f, _, rfl⟩ := storeByte_eq_ok h₂
    exact ⟨hs₁.nonempty, hs₁.lock, hs₁.dir, hs₁.below, hs₁.listed, hs₁.inPool, hs₁.times, hs₁.clock⟩
  | evict =>
    obtain ⟨⟨evicted, s₁⟩, h₁, hx⟩ := bind_eq_ok.mp hx
    cases hx
    have hv : s.victim ≠ none := by
      unfold UserOp.counts at hcount
      simp only [Bool.and_eq_true] at hcount
      exact Option.isSome_iff_ne_none.mp hcount.2
    exact (h.of_evictFrame ht hv h₁).2
  | tick =>
    cases hx
    unfold UserOp.counts at hcount
    simp only [Bool.and_eq_true, decide_eq_true_eq] at hcount
    refine ⟨h.nonempty, h.lock, h.dir, h.below, h.listed, h.inPool, h.times, ?_⟩
    show s.ticks + 1 < _
    omega

/-- A page that is not present can be brought in, with a frame in hand. -/
theorem Faithful.exists_faultInto {spare : Option Frame} (h : Faithful p s flat written)
    (hs : Supplied p s spare) (hu : u < physBase) (hnot : ∀ g, ¬ s.Maps p u g) :
    ∃ s', faultInto p u f true s = .ok s' := by
  obtain ⟨pd, hpd⟩ := hs.dir
  apply faultInto_ok hpd hu
  · apply List.any_eq_false.mpr
    intro m hm hmu
    exact hnot m.frame ⟨pd, hpd, m, hm, by simpa using hmu, rfl⟩
  · intro r hr
    have hlt := h.slotted.known.listed (findPage_spec hr).1
    have hslot := (h.swapped hnot hr).1
    have hlo := (h.slotted.below r hlt hslot).1
    have hhi := h.slotted.device r hlt hslot
    exact ⟨hs.lock, by simpa [Memory.onDevice] using ⟨hlo, hhi⟩⟩

/-- A free frame of the pool can be had. -/
theorem exists_pallocGetPage (zero : Bool) (hf : f < s.poolSize) (hused : s.used f = false) :
    ∃ g s', pallocGetPage zero s = some (g, s') := by
  unfold pallocGetPage
  cases hfind : (List.range s.poolSize).find? fun f => !s.used f with
  | none =>
    have hnone := List.find?_eq_none.mp hfind f (List.mem_range.mpr hf)
    rw [hused] at hnone
    exact absurd rfl hnone
  | some g => exact ⟨g, _, rfl⟩

/-- The device has room for the page that has to make way. -/
def Memory.hasRoom (s : Memory) : Bool :=
  match pallocGetPage false s, s.victim with
  | none, some v => decide (s.slotFor v.aux + 8 ≤ s.swapSize)
  | _, _ => true

/-- A victim can be evicted where there is room for its page. -/
theorem Faithful.exists_evictFrame {v : FrameEntry} (h : Faithful p s flat written)
    (hs : Supplied p s none) (hv : s.victim = some v) (hroom : s.slotFor v.aux + 8 ≤ s.swapSize) :
    ∃ s', evictFrame p s = .ok (true, s') := by
  have hmem := victim_mem hv
  have hmaps := h.tracked.entry hmem
  rw [h.own v hmem] at hmaps
  obtain ⟨pd, hpd⟩ := hs.dir
  have hlo : 0 ≤ s.slotFor v.aux := by
    unfold Memory.slotFor
    split
    next => exact h.slotted.curr
    next hne => exact (h.slotted.below v.aux (h.slotted.known.bound hmem) hne).1
  exact evictFrame_ok hs.lock hv hpd (hs.below hmaps) ⟨hlo, hroom⟩ (h.tracked.allocated hmaps)

/-- `page_fault` returns when the device has room. -/
theorem Faithful.exists_pageFault (h : Faithful p s flat written) (hs : Supplied p s none)
    (hu : u < physBase) (hnot : ∀ g, ¬ s.Maps p u g) (hroom : s.hasRoom = true)
    (hcount : pallocGetPage false s = none → s.victim ≠ none → s.currIndex + 8 < 2 ^ 31) :
    ∃ s', pageFault p u true s = .ok s' := by
  unfold pageFault
  cases hx : pallocGetPage true s with
  | some x =>
    obtain ⟨f, s₁⟩ := x
    have hs₁ := hs.of_palloc hx
    have h₁ := (h.of_palloc hx).1
    obtain ⟨_, rfl⟩ := pallocGetPage_eq_some hx
    exact h₁.exists_faultInto hs₁ hu hnot
  | none =>
    have hfull := pallocGetPage_none hx
    obtain ⟨v, hv⟩ := Option.ne_none_iff_exists'.mp (hs.victim_ne_none hfull)
    unfold Memory.hasRoom at hroom
    rw [hfull, hv] at hroom
    obtain ⟨s₁, hev⟩ := h.exists_evictFrame hs hv (by simpa using hroom)
    have hs₁ := (hs.of_evictFrame h.tracked (hs.victim_ne_none hfull) hev).2
    obtain ⟨written₁, h₁⟩ := h.of_evictFrame (hcount hfull) hev
    -- the frame of the page evicted is free now
    obtain ⟨v', he, hw⟩ := evictFrame_written hev
    have hpool : v'.frame < s₁.poolSize := by
      rw [hw.rest.1]
      exact hs.inPool v' (victim_mem he.victim)
    have hfree : s₁.used v'.frame = false := by
      rw [he.used]
      exact Function.update_self _ _ _
    obtain ⟨f, s₂, hx₂⟩ := exists_pallocGetPage true hpool hfree
    have hs₂ := hs₁.of_palloc hx₂
    have h₂ := (h₁.of_palloc hx₂).1
    have hnot₂ : ∀ g, ¬ s₂.Maps p u g := by
      obtain ⟨_, rfl⟩ := pallocGetPage_eq_some hx₂
      intro g hg
      exact hnot g ((he.maps p u g).mp hg).1
    obtain ⟨s', hs'⟩ := h₂.exists_faultInto (f := f) hs₂ hu hnot₂
    refine ⟨s', bind_eq_ok.mpr ⟨_, hev, ?_⟩⟩
    dsimp only
    rw [hx₂]
    exact hs'

/-- A page that is mapped can be read. -/
theorem readByte_ok {i : Fin 4096} (h : s.Maps p u f) : ∃ b, readByte p u i s = .ok b := by
  obtain ⟨pd, hpd, m, hm, hmu, _⟩ := h
  unfold readByte
  rw [hpd]
  dsimp only
  cases hfind : pd.find? (·.upage == u) with
  | none =>
    have hnone := List.find?_eq_none.mp hfind m hm
    exact absurd (by simpa using hmu) hnone
  | some m' => exact ⟨_, rfl⟩

/-- After a fault the page is in the frame it was given. -/
theorem maps_of_faultInto {table : Bool} (h : faultInto p u f table s = .ok s') : s'.Maps p u f := by
  obtain ⟨pd, _, _, ⟨_, hs'⟩ | ⟨r, _, _, hs'⟩⟩ := faultInto_eq_ok h
  · rw [hs']
    exact ⟨_, Function.update_self _ _ _, ⟨u, f, true⟩, List.mem_cons_self, rfl, rfl⟩
  · rw [hs']
    exact ⟨_, Function.update_self _ _ _, ⟨u, f, true⟩, List.mem_cons_self, rfl, rfl⟩

/-- After a fault that returns the page is in some frame. -/
theorem maps_of_pageFault {table : Bool} (h : pageFault p u table s = .ok s') :
    ∃ f, s'.Maps p u f := by
  unfold pageFault at h
  split at h
  next f s₁ _ => exact ⟨f, maps_of_faultInto h⟩
  next =>
    obtain ⟨⟨_, s₁⟩, _, h⟩ := bind_eq_ok.mp h
    dsimp only at h
    split at h
    next f s₂ _ => exact ⟨f, maps_of_faultInto h⟩
    next => cases h

theorem present_iff_maps : s.present p u = true ↔ ∃ f, s.Maps p u f := by
  unfold Memory.present Memory.Maps
  cases s.pagedir p with
  | none => simp
  | some pd => simp

/-- A read returns when the device has room and page tables can be had. -/
theorem Faithful.exists_read {i : Fin 4096} (h : Faithful p s flat written)
    (hs : Supplied p s none) (hlo : codeBase ≤ u) (hu : u < physBase) (hroom : s.hasRoom = true)
    (hcount : (UserOp.read u i true).counts p s = true) :
    ∃ b s', userStep p (.read u i true) s = .ok (some b, s') := by
  have htouch : ∃ s₁ f, touch p u true s = .ok s₁ ∧ s₁.Maps p u f := by
    unfold touch
    cases hpres : s.present p u with
    | true =>
      obtain ⟨f, hf⟩ := present_iff_maps.mp hpres
      exact ⟨s, f, rfl, hf⟩
    | false =>
      have hnot : ∀ g, ¬ s.Maps p u g := by
        intro g hg
        rw [present_iff_maps.mpr ⟨g, hg⟩] at hpres
        cases hpres
      obtain ⟨s₁, h₁⟩ := h.exists_pageFault hs hu hnot hroom fun hfull hv =>
        UserOp.room_of_counts hcount (by simpa [UserOp.evicts, hpres, hfull] using hv)
      obtain ⟨f, hf⟩ := maps_of_pageFault h₁
      exact ⟨s₁, f, (if_neg (by simp)).trans ((if_pos hlo).trans h₁), hf⟩
  obtain ⟨s₁, f, h₁, hf⟩ := htouch
  obtain ⟨b, hb⟩ := readByte_ok (i := i) hf
  exact ⟨b, s₁, bind_eq_ok.mpr ⟨s₁, h₁, bind_eq_ok.mpr ⟨b, hb, rfl⟩⟩⟩

/-! ## Runs -/

/-- The memory, and beside it what the process sees. -/
structure Paged where
  memory : Memory
  flat : Flat

def pagedStep (p : ProcRef) (op : UserOp) (m : Paged) : Except Fault Paged := do
  let (_, s) ← userStep p op m.memory
  .ok { memory := s, flat := op.flat p m.memory m.flat }

/-- The process has a page directory and nothing in it. -/
def Paged.start (p : ProcRef) (poolSize swapSize : Nat) : Paged where
  memory := { initial poolSize swapSize with pagedir := Function.update (fun _ => none) p (some []) }
  flat := fun _ _ => 0

/-- At first nothing is mapped. -/
theorem start_maps {poolSize swapSize : Nat} (q : ProcRef) (u : UPage) (f : Frame) :
    ¬ (Paged.start p poolSize swapSize).memory.Maps q u f := by
  rintro ⟨pd, hpd, m, hm, _⟩
  have hpd' : Function.update (fun _ => none) p (some []) q = some pd := hpd
  rw [Function.update_apply] at hpd'
  split at hpd'
  · cases hpd'
    cases hm
  · cases hpd'

/-- Before the process has a page, its flat memory is empty. -/
theorem faithful_start (p : ProcRef) (poolSize swapSize : Nat) :
    Faithful p (Paged.start p poolSize swapSize).memory (Paged.start p poolSize swapSize).flat
      fun _ => none := by
  constructor
  case tracked =>
    refine ⟨⟨fun hm => ?_, fun hm => ?_⟩, fun hm => ?_, fun he => ?_, List.nodup_nil, fun he => ?_,
      fun hr => ?_⟩
    · exact absurd hm (start_maps _ _ _)
    · exact absurd hm (start_maps _ _ _)
    · exact absurd hm (start_maps _ _ _)
    · cases he
    · cases he
    · cases hr
  case slotted =>
    exact (slotted_start poolSize swapSize).of_kept (.of_eq rfl rfl rfl rfl rfl rfl fun _ he => he)
  case own =>
    intro e he
    cases he
  case last =>
    intro e he
    cases he
  case resident => exact fun hm => absurd hm (start_maps _ _ _)
  case swapped =>
    intro u r _ hr
    cases hr
  case blank => exact fun _ _ => rfl

/-- Before the process has a page, the whole pool is free. -/
theorem supplied_start (p : ProcRef) {poolSize : Nat} (swapSize : Nat) (h : 0 < poolSize) :
    Supplied p (Paged.start p poolSize swapSize).memory none := by
  have hdir : (Paged.start p poolSize swapSize).memory.pagedir p = some [] := by simp [Paged.start]
  refine ⟨h, rfl, ⟨[], hdir⟩, fun hm => ?_, fun f hf => ?_, fun e he => ?_,
    fun e he => ?_, ?_⟩
  · exact absurd hm (start_maps _ _ _)
  · cases hf
  · cases he
  · cases he
  · show 0 < 2 ^ 64 - 1
    decide

/-- In every state of a counted run memory is the flat one, and no frame is lost. -/
theorem reach_faithful {poolSize swapSize : Nat} {m : Paged} (hpool : 0 < poolSize)
    (h : ReachWhere (Steps (pagedStep p)) (fun m op => op.counts p m.memory = true)
      (.start p poolSize swapSize) m) :
    (∃ written, Faithful p m.memory m.flat written) ∧ Supplied p m.memory none := by
  refine h.invariant (P := fun m => (∃ written, Faithful p m.memory m.flat written) ∧
    Supplied p m.memory none)
    ⟨⟨_, faithful_start p poolSize swapSize⟩, supplied_start p swapSize hpool⟩ ?_
  rintro m op m' ⟨⟨written, hm⟩, hs⟩ hok hx
  obtain ⟨⟨out, s'⟩, hx', hm'⟩ := bind_eq_ok.mp hx
  cases hm'
  exact ⟨(hm.of_userStep hok hx').1, hs.of_userStep hm.tracked hok hx'⟩

/-- As long as `curr_index` does not overflow, a read that returns gives the byte the process sees
there, and it returns if the device has room. -/
theorem paging_transparent {poolSize swapSize : Nat} {m : Paged} {i : Fin 4096} {table : Bool}
    (hpool : 0 < poolSize)
    (h : ReachWhere (Steps (pagedStep p)) (fun m op => op.counts p m.memory = true)
      (.start p poolSize swapSize) m)
    (hcount : (UserOp.read u i table).counts p m.memory = true) :
    (∀ out s', userStep p (.read u i table) m.memory = .ok (out, s') → out = some (m.flat u i)) ∧
    (table = true → codeBase ≤ u → u < physBase → m.memory.hasRoom = true →
      ∃ s', userStep p (.read u i table) m.memory = .ok (some (m.flat u i), s')) := by
  obtain ⟨⟨written, hm⟩, hs⟩ := reach_faithful hpool h
  have hread : ∀ out s', userStep p (.read u i table) m.memory = .ok (out, s') →
      out = some (m.flat u i) := fun out s' hx => (hm.of_userStep hcount hx).2 u i table rfl
  refine ⟨hread, fun htable hlo hu hroom => ?_⟩
  subst htable
  obtain ⟨b, s', hx⟩ := hm.exists_read hs hlo hu hroom hcount
  rw [hread _ _ hx] at hx
  exact ⟨s', hx⟩

/-- Two pages in turn in one frame: the byte written to the first is read back. -/
theorem written_byte_returns : ∃ m : Paged, ∃ s', m.memory.present 0 0x8048 = false ∧
    m.flat 0x8048 5 = 42 ∧ userStep 0 (.read 0x8048 5 true) m.memory = .ok (some 42, s') := by
  obtain ⟨m, hm, hp⟩ := exists_of_replay (pagedStep 0) (fun m op => op.counts 0 m.memory)
    [.write 0x8048 5 42 true, .read 0x8049 0 true] (.start 0 1 16)
    (fun m => !m.memory.present 0 0x8048 && m.flat 0x8048 5 == 42 && m.memory.hasRoom &&
      (UserOp.read 0x8048 5 true).counts 0 m.memory) (by decide +kernel)
  simp only [Bool.and_eq_true, beq_iff_eq, Bool.not_eq_true'] at hp
  obtain ⟨s', hs'⟩ := (paging_transparent (by decide) hm hp.2).2 rfl (by decide) (by decide) hp.1.2
  rw [hp.1.1.2] at hs'
  exact ⟨m, s', hp.1.1.1, hp.1.1.2, hs'⟩

/-! ## Overflow -/

variable {k j r : Nat} {slots : SupRef → Int} {curr : Int}

/-- A fault of the one process is a read that brings the page in. -/
theorem userStep_of_fault (h : FaultStep s j s') (i : Fin 4096) :
    ∃ b, userStep 0 (.read (codeBase + j) i true) s = .ok (some b, s') ∧
      readByte 0 (codeBase + j) i s' = .ok b := by
  obtain ⟨f, hf⟩ := maps_of_pageFault h.2
  obtain ⟨b, hb⟩ := readByte_ok (i := i) hf
  have htouch : touch 0 (codeBase + j) true s = .ok s' := by
    unfold touch
    rw [h.1]
    exact (if_pos (Nat.le_add_right _ _)).trans h.2
  exact ⟨b, bind_eq_ok.mpr ⟨s', htouch, bind_eq_ok.mpr ⟨b, hb, rfl⟩⟩, hb⟩

/-- As a step of the simulation it reads one byte. -/
theorem Paged.read_of_fault (h : FaultStep s j s') :
    Steps (pagedStep 0) ⟨s, flat⟩ (.read (codeBase + j) 0 true) ⟨s', flat⟩ := by
  obtain ⟨b, hb, _⟩ := userStep_of_fault h 0
  exact bind_eq_ok.mpr ⟨_, hb, rfl⟩

/-- A run of faults is a run of reads. -/
theorem Paged.reads_of_faults {m : Paged} (hs : Reach (Steps (pagedStep 0)) m ⟨s, flat⟩)
    (h : Reach FaultStep s s') : Reach (Steps (pagedStep 0)) m ⟨s', flat⟩ := by
  induction h with
  | start => exact hs
  | next _ _ hx ih => exact ih.next trivial (read_of_fault hx)

/-- The page in the one frame is read there. -/
theorem OneFrame.readByte {i : Fin 4096} (h : OneFrame s k slots curr (some r)) :
    readByte 0 (codeBase + r) i s = .ok (s.mem 0 i) := by
  unfold Vm.readByte
  rw [h.pagedir]
  simp

/-- The page in the one frame is written there. -/
theorem OneFrame.write {i : Fin 4096} {b : UInt8} (h : OneFrame s k slots curr (some r)) :
    ∃ s', userStep 0 (.write (codeBase + r) i b true) s = .ok (none, s') ∧
      OneFrame s' k slots curr (some r) ∧ s'.mem 0 i = b := by
  have hpres : s.present 0 (codeBase + r) = true := by
    unfold Memory.present
    rw [h.pagedir]
    simp
  have htouch : touch 0 (codeBase + r) true s = .ok s := if_pos hpres
  have hstore : storeByte 0 (codeBase + r) i b s = .ok { s with
      mem := Function.update s.mem 0 (Function.update (s.mem 0) i b) } := by
    unfold storeByte
    rw [h.pagedir]
    simp
  refine ⟨_, bind_eq_ok.mpr ⟨s, htouch, bind_eq_ok.mpr ⟨_, hstore, rfl⟩⟩, ?_, ?_⟩
  · exact ⟨h.poolSize, h.swapSize, h.used, h.pagedir, h.pageTable, h.sup, h.nextSup, h.frameTable,
      h.currIndex, h.swapLock, h.ticks⟩
  · simp

/-- With `curr_index` back at 0 a third page is written over the slot of the second, and not to the
sectors that are free. -/
theorem OneFrame.clobber (h : OneFrame s 2 twoSlots 0 (some r)) (hr : r < 2) :
    ∃ s₁ s₂ s₃ s₄, FaultStep s 2 s₁ ∧
      userStep 0 (.write (codeBase + 2) 0 1 true) s₁ = .ok (none, s₂) ∧ FaultStep s₂ 0 s₃ ∧
      FaultStep s₃ 1 s₄ ∧ s₃.nextSup = 3 ∧ Vm.readByte 0 (codeBase + 1) 0 s₄ = .ok 1 := by
  have hslot : nextSlot twoSlots 0 r = twoSlots r := by
    unfold nextSlot twoSlots
    split <;> split <;> simp_all
  have hbounds : 0 ≤ twoSlots r ∧ twoSlots r + 8 ≤ 24 := by
    unfold twoSlots
    split <;> omega
  obtain ⟨_, s₁, hs₁, _, _, _, h₁⟩ := h.fault (j := 2) hr (by omega) (by omega) (by omega)
    (by rw [hslot]; exact hbounds.1) (by rw [hslot]; exact hbounds.2) (by omega) (by omega)
  rw [hslot, Function.update_eq_self] at h₁
  have hcurr : Int.bmod (0 + 8) (2 ^ 32) = 8 := by decide
  have h₁ := h₁ rfl
  rw [hcurr] at h₁
  obtain ⟨s₂, hs₂, h₂, hbyte⟩ := h₁.write (i := 0) (b := 1)
  -- the third page goes to sector 8
  obtain ⟨t₂, s₃, hs₃, hswap₃, hw₂, h₃, _⟩ := h₂.fault (j := 0) (by omega) (by omega) (by omega)
    (by omega) (by decide) (by decide) (by omega) fun _ => by decide
  have h₃ := (h₃ (by omega)).1
  have hin : s₃.swap 8 = (s₂.mem 0).sector 0 := by
    have hin := hw₂.inside 0
    rw [h₂.slotFor (by decide)] at hin
    rw [hswap₃]
    exact hin
  -- and the first page back to sector 0
  obtain ⟨t₃, s₄, hs₄, _, hw₃, h₄, _⟩ := h₃.fault (j := 1) (by omega) (by omega) (by omega)
    (by omega) (by decide) (by decide) (by omega) fun _ => by decide
  obtain ⟨h₄, hmem⟩ := h₄ (by omega)
  refine ⟨s₁, s₂, s₃, s₄, ⟨h.absent (by omega), hs₁⟩, hs₂, ⟨h₂.absent (by omega), hs₃⟩,
    ⟨h₃.absent (by omega), hs₄⟩, h₃.nextSup, ?_⟩
  have hout : t₃.swap 8 = s₃.swap 8 := by
    apply hw₃.outside
    rw [h₃.slotFor (by decide)]
    exact .inr (by decide)
  have hbyte' : s₄.mem 0 0 = 1 := by
    rw [hmem]
    show t₃.swap 8 0 = 1
    rw [hout, hin]
    exact hbyte
  rw [h₄.readByte, hbyte']

/-- After `2 ^ 29` evictions `curr_index` is 0 again, and a page comes back with the bytes of
another one, although the device has a slot for every page. -/
theorem clobbered_after_overflow : ¬ ∀ (p : ProcRef) (poolSize swapSize : Nat) (m : Paged),
    0 < poolSize → Reach (Steps (pagedStep p)) (.start p poolSize swapSize) m →
    8 * m.memory.nextSup ≤ swapSize →
    ∀ (u : UPage) (i : Fin 4096) (out : Option UInt8) (s' : Memory), codeBase ≤ u →
      userStep p (.read u i true) m.memory = .ok (out, s') → out = some (m.flat u i) := by
  intro hall
  obtain ⟨m, hm, htest⟩ := exists_of_replay (pagedStep 0) (fun _ _ => true)
    [.read codeBase 0 true] (.start 0 1 24)
    (fun m => firstFaultTest m.memory && m.flat (codeBase + 1) 0 == 0) (by decide +kernel)
  simp only [Bool.and_eq_true, beq_iff_eq] at htest
  obtain ⟨s, r, hr, hfaults, hs⟩ := (oneFrame_of_test htest.1).turns (2 ^ 29 - 2)
  have hcurr : Int.bmod (8 * (2 ^ 29 - 2 + 2 : Nat)) (2 ^ 32) = 0 := by decide
  rw [hcurr] at hs
  obtain ⟨s₁, s₂, s₃, s₄, h₁, h₂, h₃, h₄, hpages, hread⟩ := hs.clobber hr
  have hreach : Reach (Steps (pagedStep 0)) (.start 0 1 24)
      ⟨s₃, Function.update m.flat (codeBase + 2) (Function.update (m.flat (codeBase + 2)) 0 1)⟩ := by
    have hall' : Reach (Steps (pagedStep 0)) (.start 0 1 24) ⟨s, m.flat⟩ :=
      Paged.reads_of_faults hm.reach hfaults
    have hthird := hall'.next trivial (Paged.read_of_fault h₁)
    have hwrite := hthird.next trivial (i := .write (codeBase + 2) 0 1 true)
      (bind_eq_ok.mpr ⟨_, h₂, rfl⟩)
    exact hwrite.next trivial (Paged.read_of_fault h₃)
  obtain ⟨b, hb, hb'⟩ := userStep_of_fault h₄ 0
  cases hread.symm.trans hb'
  have heq := hall 0 1 24 _ (by decide) hreach (by rw [hpages]) (codeBase + 1) 0 _ _ (by decide) hb
  have hother : codeBase + 1 ≠ codeBase + 2 := by decide
  simp only [Function.update_of_ne hother, htest.2] at heq
  cases heq

end Pintos.Vm
