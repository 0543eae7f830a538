import Pintos.Vm.Tracking

/-!
# Isolation

`evict_frame` picks its victim among the frames of all processes, and clears the victim's page in
the page directory of the process that called it. When that process is not the owner, the owner
keeps a mapping of a frame that is free again. `ownVictim` rules this out, and `memory_isolated`
shows that then no two processes ever share a frame; `evicts_from_another` is the run in which two
do.
-/

namespace Pintos.Vm

open Pintos.Lib

variable {s s' : Memory} {p : ProcRef} {u : UPage} {f : Frame}

/-! ## Eviction -/

/-- The scan answers an entry of the table. -/
theorem scanFrames_mem {sup : SupRef → SupPage} {e : FrameEntry} : ∀ {l : List FrameEntry}
    {maxTime : Nat} {maxFrame : Option FrameEntry},
    scanFrames sup l maxTime maxFrame = some e → e ∈ l ∨ maxFrame = some e := by
  intro l
  induction l with
  | nil =>
    intro maxTime maxFrame h
    exact .inr h
  | cons e' rest ih =>
    intro maxTime maxFrame h
    unfold scanFrames at h
    split at h
    next =>
      rcases ih h with he | he
      · exact .inl (List.mem_cons_of_mem _ he)
      · cases he
        exact .inl List.mem_cons_self
    next =>
      rcases ih h with he | he
      · exact .inl (List.mem_cons_of_mem _ he)
      · exact .inr he

/-- The victim is an entry of the frame table. -/
theorem victim_mem {e : FrameEntry} (h : s.victim = some e) : e ∈ s.frameTable := by
  rcases scanFrames_mem h with he | he
  · exact he
  · cases he

/-- What `evict_frame` leaves when `p` has evicted the page of `e`. -/
structure Evicted (s s' : Memory) (p : ProcRef) (e : FrameEntry) : Prop where
  victim : s.victim = some e
  pagedir : ∃ pd, s.pagedir p = some pd ∧ s'.pagedir = Function.update s.pagedir p
    (some (pd.filter (·.upage != (s.sup e.aux).uservaddr)))
  used : s'.used = Function.update s.used e.frame false
  frameTable : s'.frameTable = s.frameTable.erase e
  pageTable : s'.pageTable = s.pageTable
  nextSup : s'.nextSup = s.nextSup
  uservaddr : ∀ r, (s'.sup r).uservaddr = (s.sup r).uservaddr

/-- `pagedir_clear_page` takes one page out of one directory. -/
theorem pagedirClearPage_eq_ok (h : pagedirClearPage p u s = .ok s') : ∃ pd, s.pagedir p = some pd ∧
    s' = { s with pagedir := Function.update s.pagedir p (some (pd.filter (·.upage != u))) } := by
  unfold pagedirClearPage at h
  split at h
  next => cases h
  next pd hpd =>
    split at h
    next =>
      cases h
      exact ⟨pd, hpd, rfl⟩
    next => cases h

/-- Writing a page to its slot changes no table. -/
theorem writeFrameToBlock_same {index : Int} (h : writeFrameToBlock f index s = .ok s') :
    Same s s' := by
  unfold writeFrameToBlock at h
  split at h
  next =>
    cases h
    exact ⟨rfl, rfl, rfl, rfl, rfl, fun _ => rfl⟩
  next => cases h

/-- `evict_frame` finds no victim, or evicts it. -/
theorem evictFrame_eq_ok {evicted : Bool} (h : evictFrame p s = .ok (evicted, s')) :
    (evicted = false ∧ s.victim = none ∧ Same s s') ∨ (evicted = true ∧ ∃ e, Evicted s s' p e) := by
  unfold evictFrame at h
  obtain ⟨_, _, h⟩ := bind_eq_ok.mp h
  split at h
  next hnone =>
    cases h
    exact .inl ⟨rfl, hnone, rfl, rfl, rfl, rfl, rfl, fun _ => rfl⟩
  next e he =>
    obtain ⟨s₁, h₁, h⟩ := bind_eq_ok.mp h
    obtain ⟨s₂, h₂, h⟩ := bind_eq_ok.mp h
    obtain ⟨s₃, h₃, h⟩ := bind_eq_ok.mp h
    cases h
    obtain ⟨pd, hpd, rfl⟩ := pagedirClearPage_eq_ok h₁
    have hsame := writeFrameToBlock_same h₂
    obtain ⟨_, rfl⟩ := pallocFreePage_eq_ok h₃
    refine .inr ⟨rfl, e, he, ⟨pd, hpd, hsame.pagedir⟩, ?_, ?_, hsame.pageTable, hsame.nextSup, ?_⟩
    · show Function.update s₂.used e.frame false = _
      rw [hsame.used]
    · show s₂.frameTable.erase e = _
      rw [hsame.frameTable]
    · intro r
      refine (hsame.uservaddr r).trans ?_
      by_cases hr : r = e.aux
      · simp [hr]
      · simp [hr]

/-- What is mapped when the page `u` is gone from the directory of `p`. -/
theorem maps_clear (h : ∃ pd, s.pagedir p = some pd ∧
      s'.pagedir = Function.update s.pagedir p (some (pd.filter (·.upage != u))))
    (q : ProcRef) (v : UPage) (g : Frame) :
    s'.Maps q v g ↔ s.Maps q v g ∧ ¬ (q = p ∧ v = u) := by
  obtain ⟨pd, hpd, hs⟩ := h
  unfold Memory.Maps
  rw [hs]
  by_cases hq : q = p
  · subst hq
    simp only [Function.update_self, hpd, Option.some.injEq, exists_eq_left', List.mem_filter,
      bne_iff_ne, ne_eq, true_and]
    constructor
    · rintro ⟨m, ⟨hm, hne⟩, rfl, hg⟩
      exact ⟨⟨m, hm, rfl, hg⟩, hne⟩
    · rintro ⟨⟨m, hm, rfl, hg⟩, hne⟩
      exact ⟨m, ⟨hm, hne⟩, rfl, hg⟩
  · simp [hq]

/-- What is mapped after an eviction by `p`: the page is gone from the directory of `p`. -/
theorem Evicted.maps {e : FrameEntry} (h : Evicted s s' p e) (q : ProcRef) (v : UPage)
    (g : Frame) : s'.Maps q v g ↔
      s.Maps q v g ∧ ¬ (q = p ∧ v = (s.sup e.aux).uservaddr) := maps_clear h.pagedir q v g

/-- Some mappings and entries are gone, and the frames that are still mapped are still allocated. -/
theorem Tracked.of_fewer (h : Tracked s) (hmaps : ∀ {q v g}, s'.Maps q v g → s.Maps q v g)
    (hused : ∀ {q v g}, s'.Maps q v g → s'.used g = true)
    (hft : List.Sublist s'.frameTable s.frameTable)
    (hentry : ∀ {e}, e ∈ s'.frameTable → s'.Maps e.owner (s'.sup e.aux).uservaddr e.frame)
    (hpt : s'.pageTable = s.pageTable) (hnext : s'.nextSup = s.nextSup) : Tracked s' where
  exclusive := fun hm hm' => h.exclusive (hmaps hm) (hmaps hm')
  allocated := hused
  single := fun hm hm' => h.single (hmaps hm) (hmaps hm')
  entry := hentry
  once := h.once.sublist (List.Sublist.map _ hft)
  bound := by
    intro e he
    rw [hnext]
    exact h.bound (hft.subset he)
  listed := by
    intro q r hr
    rw [hpt] at hr
    rw [hnext]
    exact h.listed hr

/-- The page of an entry is gone with the entry, and its frame is free. -/
theorem Tracked.of_cleared {e : FrameEntry} (h : Tracked s) (he : e ∈ s.frameTable)
    (hpd : ∃ pd, s.pagedir e.owner = some pd ∧ s'.pagedir = Function.update s.pagedir e.owner
      (some (pd.filter (·.upage != (s.sup e.aux).uservaddr))))
    (hused : s'.used = Function.update s.used e.frame false)
    (hft : s'.frameTable = s.frameTable.erase e) (hpt : s'.pageTable = s.pageTable)
    (hnext : s'.nextSup = s.nextSup) (haddr : ∀ r, (s'.sup r).uservaddr = (s.sup r).uservaddr) :
    Tracked s' := by
  have hmine := h.entry he
  have hmaps := maps_clear hpd
  have hmem : ∀ {e'}, e' ∈ s'.frameTable → e' ∈ s.frameTable ∧ e' ≠ e := by
    intro e' he'
    rw [hft] at he'
    have hnodup : s.frameTable.Nodup := List.Nodup.of_map _ h.once
    exact ⟨List.mem_of_mem_erase he', ((List.Nodup.mem_erase_iff hnodup).mp he').1⟩
  refine h.of_fewer (fun hm => ((hmaps _ _ _).mp hm).1) ?_ (hft ▸ List.erase_sublist) ?_ hpt hnext
  · intro q v g hm
    obtain ⟨hm, hne⟩ := (hmaps q v g).mp hm
    rw [hused, Function.update_of_ne]
    · exact h.allocated hm
    · rintro rfl
      exact hne (h.exclusive hm hmine)
  · intro e' he'
    obtain ⟨he', hne⟩ := hmem he'
    rw [haddr, hmaps]
    refine ⟨h.entry he', fun hsame => ?_⟩
    -- another entry for the page would have the same frame
    have hm := h.entry he'
    rw [hsame.1, hsame.2] at hm
    exact hne (List.inj_on_of_nodup_map h.once he' he (h.single hm hmine))

/-- A process may evict its own pages. -/
theorem Tracked.of_evicted {e : FrameEntry} (h : Tracked s) (hx : Evicted s s' p e)
    (hown : e.owner = p) : Tracked s' := by
  subst hown
  exact h.of_cleared (victim_mem hx.victim) hx.pagedir hx.used hx.frameTable hx.pageTable hx.nextSup
    hx.uservaddr

/-- The evicted page is gone from its owner's directory exactly when the owner called. -/
theorem Tracked.evicted_iff {e : FrameEntry} (h : Tracked s) (hx : Evicted s s' p e) :
    (∀ g, ¬ s'.Maps e.owner (s.sup e.aux).uservaddr g) ↔ e.owner = p := by
  have he := h.entry (victim_mem hx.victim)
  constructor
  · intro hgone
    by_contra hne
    exact hgone e.frame ((hx.maps _ _ _).mpr ⟨he, fun hsame => hne hsame.1⟩)
  · intro hown g hm
    exact ((hx.maps _ _ _).mp hm).2 ⟨hown, rfl⟩

/-- An eviction of the caller's own page keeps the books. -/
theorem Tracked.of_evictFrame {evicted : Bool} (h : Tracked s)
    (hown : ∀ e, s.victim = some e → e.owner = p) (hx : evictFrame p s = .ok (evicted, s')) :
    Tracked s' := by
  rcases evictFrame_eq_ok hx with ⟨_, _, hs⟩ | ⟨_, e, he⟩
  · exact h.of_same hs
  · exact h.of_evicted he (hown e he.victim)

/-! ## Taking a page -/

/-- Whether a page is to be zeroed does not decide whether there is one. -/
theorem pallocGetPage_none (h : pallocGetPage true s = none) : pallocGetPage false s = none := by
  unfold pallocGetPage at h ⊢
  split at h
  next => rfl
  next => cases h

/-- A page that can be had zeroed can be had as it is. -/
theorem pallocGetPage_some {zero : Bool} (h : pallocGetPage zero s = some (f, s')) :
    ∃ x, pallocGetPage false s = some x := by
  unfold pallocGetPage at h ⊢
  split at h
  · cases h
  · exact ⟨_, rfl⟩

/-- The state in which an operation has its page, or none for good: with the pool empty it has
called `evict_frame` before. -/
inductive MadeRoom (p : ProcRef) (s : Memory) : Memory → Prop where
  | free (h : ∃ x, pallocGetPage false s = some x) : MadeRoom p s s
  | evicted {b : Bool} {s₁ : Memory} (h : pallocGetPage false s = none)
      (he : evictFrame p s = .ok (b, s₁)) : MadeRoom p s s₁

/-- `load_segment` makes room, takes a frame and fills it. -/
theorem loadSegmentPage_cases {content : Option Content} {writable table ok : Bool}
    (h : loadSegmentPage p u content writable table s = .ok (ok, s')) :
    ∃ s₁, MadeRoom p s s₁ ∧ ((∃ f s₂, pallocGetPage false s₁ = some (f, s₂) ∧
      loadInto p u f content writable table s₂ = .ok (ok, s')) ∨ ok = false ∧ s' = s₁) := by
  unfold loadSegmentPage at h
  split at h
  next f s₁ h₁ => exact ⟨s, .free ⟨_, h₁⟩, .inl ⟨f, s₁, h₁, h⟩⟩
  next hnone =>
    obtain ⟨⟨evicted, s₁⟩, h₁, h⟩ := bind_eq_ok.mp h
    refine ⟨s₁, .evicted hnone h₁, ?_⟩
    cases evicted with
    | false =>
      cases h
      exact .inr ⟨rfl, rfl⟩
    | true =>
      simp only [if_true] at h
      split at h
      next f s₂ h₂ => exact .inl ⟨f, s₂, h₂, h⟩
      next =>
        cases h
        exact .inr ⟨rfl, rfl⟩

/-- `setup_stack` makes room, takes a frame and installs it. -/
theorem setupStackPage_cases {table ok : Bool} (h : setupStackPage p table s = .ok (ok, s')) :
    ∃ s₁, MadeRoom p s s₁ ∧ ((∃ f s₂, pallocGetPage true s₁ = some (f, s₂) ∧
      installStack p f table s₂ = .ok (ok, s')) ∨ s' = s₁) := by
  unfold setupStackPage at h
  split at h
  next f s₁ h₁ => exact ⟨s, .free (pallocGetPage_some h₁), .inl ⟨f, s₁, h₁, h⟩⟩
  next hnone =>
    obtain ⟨⟨evicted, s₁⟩, h₁, h⟩ := bind_eq_ok.mp h
    refine ⟨s₁, .evicted (pallocGetPage_none hnone) h₁, ?_⟩
    cases evicted with
    | false =>
      cases h
      exact .inr rfl
    | true =>
      simp only [if_true] at h
      split at h
      next f s₂ h₂ => exact .inl ⟨f, s₂, h₂, h⟩
      next =>
        cases h
        exact .inr rfl

/-- Its copy of the command line takes a frame and nothing else. -/
theorem setupStackCopy_cases (h : setupStackCopy p s = .ok s') :
    ∃ s₁, MadeRoom p s s₁ ∧ ((∃ f, pallocGetPage false s₁ = some (f, s')) ∨ s' = s₁) := by
  unfold setupStackCopy at h
  split at h
  next f s₁ h₁ =>
    cases h
    exact ⟨s, .free ⟨_, h₁⟩, .inl ⟨f, h₁⟩⟩
  next hnone =>
    obtain ⟨⟨evicted, s₁⟩, h₁, h⟩ := bind_eq_ok.mp h
    refine ⟨s₁, .evicted hnone h₁, ?_⟩
    cases evicted with
    | false =>
      cases h
      exact .inr rfl
    | true =>
      simp only [if_true] at h
      split at h
      next f s₂ h₂ =>
        cases h
        exact .inl ⟨f, h₂⟩
      next => cases h

/-- A fault makes room, takes a frame and brings the page in. -/
theorem pageFault_cases {table : Bool} (h : pageFault p u table s = .ok s') :
    ∃ s₁ f s₂, MadeRoom p s s₁ ∧ pallocGetPage true s₁ = some (f, s₂) ∧
      faultInto p u f table s₂ = .ok s' := by
  unfold pageFault at h
  split at h
  next f s₁ h₁ => exact ⟨s, f, s₁, .free (pallocGetPage_some h₁), h₁, h⟩
  next hnone =>
    obtain ⟨⟨evicted, s₁⟩, h₁, h⟩ := bind_eq_ok.mp h
    dsimp only at h
    split at h
    next f s₂ h₂ => exact ⟨s₁, f, s₂, .evicted (pallocGetPage_none hnone) h₁, h₂, h⟩
    next => cases h

/-- Making room keeps the books, if the victim is the caller's own. -/
theorem Tracked.of_madeRoom (h : Tracked s)
    (hown : pallocGetPage false s = none → ∀ e, s.victim = some e → e.owner = p)
    (hx : MadeRoom p s s') : Tracked s' := by
  cases hx with
  | free => exact h
  | evicted hnone he => exact h.of_evictFrame (hown hnone) he

/-! ## Loading and page faults -/

/-- A frame that nobody has may be filled from a file. -/
theorem Tracked.of_loadInto {content : Option Content} {writable table ok : Bool} (h : Tracked s)
    (hf : s.Fresh f) (hx : loadInto p u f content writable table s = .ok (ok, s')) :
    Tracked s' := by
  unfold loadInto at hx
  split at hx
  next =>
    obtain ⟨s₁, h₁, hx⟩ := bind_eq_ok.mp hx
    cases hx
    exact h.of_free hf.2 h₁
  next c =>
    have hs : Same s { s with mem := Function.update s.mem f c } :=
      ⟨rfl, rfl, rfl, rfl, rfl, fun _ => rfl⟩
    obtain ⟨⟨installed, s₁⟩, h₁, hx⟩ := bind_eq_ok.mp hx
    cases installed with
    | true =>
      cases hx
      obtain ⟨htracked, hm, hnew, _⟩ := (h.of_same hs).of_install ((fresh_congr hs).mpr hf) h₁
      exact htracked.of_inserts hm hnew
    | false =>
      obtain ⟨s₂, h₂, hx⟩ := bind_eq_ok.mp hx
      cases hx
      rcases installPage_eq_ok h₁ with ⟨_, rfl⟩ | ⟨hok, _⟩
      · exact (h.of_same hs).of_free ((fresh_congr hs).mpr hf).2 h₂
      · cases hok

/-- A page of a segment keeps the books. -/
theorem Tracked.of_loadSegmentPage {content : Option Content} {writable table ok : Bool}
    (h : Tracked s)
    (hown : pallocGetPage false s = none → ∀ e, s.victim = some e → e.owner = p)
    (hx : loadSegmentPage p u content writable table s = .ok (ok, s')) : Tracked s' := by
  obtain ⟨s₁, hroom, ⟨f, s₂, h₂, hx⟩ | ⟨_, rfl⟩⟩ := loadSegmentPage_cases hx
  · obtain ⟨htracked, hf⟩ := (h.of_madeRoom hown hroom).of_palloc h₂
    exact htracked.of_loadInto hf hx
  · exact h.of_madeRoom hown hroom

/-- A frame that nobody has may be the stack. -/
theorem Tracked.of_installStack {table ok : Bool} (h : Tracked s) (hf : s.Fresh f)
    (hx : installStack p f table s = .ok (ok, s')) : Tracked s' := by
  unfold installStack at hx
  obtain ⟨⟨installed, s₁⟩, h₁, hx⟩ := bind_eq_ok.mp hx
  cases installed with
  | true =>
    cases hx
    exact (h.of_install hf h₁).1
  | false =>
    obtain ⟨s₂, h₂, hx⟩ := bind_eq_ok.mp hx
    cases hx
    rcases installPage_eq_ok h₁ with ⟨_, rfl⟩ | ⟨hok, _⟩
    · exact h.of_free hf.2 h₂
    · cases hok

/-- The page of the stack keeps the books. -/
theorem Tracked.of_setupStackPage {table ok : Bool} (h : Tracked s)
    (hown : pallocGetPage false s = none → ∀ e, s.victim = some e → e.owner = p)
    (hx : setupStackPage p table s = .ok (ok, s')) : Tracked s' := by
  obtain ⟨s₁, hroom, ⟨f, s₂, h₂, hx⟩ | rfl⟩ := setupStackPage_cases hx
  · obtain ⟨htracked, hf⟩ := (h.of_madeRoom hown hroom).of_palloc h₂
    exact htracked.of_installStack hf hx
  · exact h.of_madeRoom hown hroom

/-- The copy's frame is in no table. -/
theorem Tracked.of_setupStackCopy (h : Tracked s)
    (hown : pallocGetPage false s = none → ∀ e, s.victim = some e → e.owner = p)
    (hx : setupStackCopy p s = .ok s') : Tracked s' := by
  obtain ⟨s₁, hroom, ⟨f, h₂⟩ | rfl⟩ := setupStackCopy_cases hx
  · exact ((h.of_madeRoom hown hroom).of_palloc h₂).1
  · exact h.of_madeRoom hown hroom

/-- What the search of the page table finds is an entry of the process for the page. -/
theorem findPage_spec {r : SupRef} (h : s.findPage p u = some r) :
    r ∈ s.pageTable p ∧ (s.sup r).uservaddr = u := by
  have hfold : ∀ (l : List SupRef) (found : Option SupRef),
      l.foldl (fun found r => if (s.sup r).uservaddr = u then some r else found) found = some r →
      (r ∈ l ∧ (s.sup r).uservaddr = u) ∨ found = some r := by
    intro l
    induction l with
    | nil => exact fun found h => .inr h
    | cons r' rest ih =>
      intro found h
      rw [List.foldl_cons] at h
      rcases ih _ h with ⟨hr, hu⟩ | hfound
      · exact .inl ⟨List.mem_cons_of_mem _ hr, hu⟩
      · split at hfound
        next hu =>
          cases hfound
          exact .inl ⟨List.mem_cons_self, hu⟩
        next => exact .inr hfound
  rcases hfold _ _ h with hr | hnone
  · exact hr
  · cases hnone

/-- Reading a page back changes no table. -/
theorem loadFrameFromBlock_same {index : Int} (h : loadFrameFromBlock p f index s = .ok s') :
    Same s s' := by
  unfold loadFrameFromBlock at h
  obtain ⟨_, _, h⟩ := bind_eq_ok.mp h
  split at h
  next =>
    cases h
    exact ⟨rfl, rfl, rfl, rfl, rfl, fun _ => rfl⟩
  next => cases h

/-- A frame that nobody has may be the page of a fault. -/
theorem Tracked.of_faultInto {table : Bool} (h : Tracked s) (hf : s.Fresh f)
    (hx : faultInto p u f table s = .ok s') : Tracked s' := by
  unfold faultInto at hx
  obtain ⟨⟨installed, s₁⟩, h₁, hx⟩ := bind_eq_ok.mp hx
  cases installed with
  | false => cases hx
  | true =>
    obtain ⟨htracked, hm, hnew, hpt, hsup, hnext⟩ := h.of_install hf h₁
    simp only [if_true] at hx
    split at hx
    next =>
      cases hx
      exact htracked.of_inserts hm hnew
    next r hr =>
      obtain ⟨s₂, h₂, hx⟩ := bind_eq_ok.mp hx
      cases hx
      obtain ⟨hmem, huser⟩ := findPage_spec hr
      set sup' := Function.update s₁.sup r { s₁.sup r with accessTime := s₁.ticks % 2 ^ 64 }
        with hsup'
      have hkeep : ∀ r', (sup' r').uservaddr = (s₁.sup r').uservaddr := by
        intro r'
        by_cases hr' : r' = r
        · simp [hsup', hr']
        · simp [hsup', hr']
      have hs : Same s₁ { s₁ with sup := sup' } := ⟨rfl, rfl, rfl, rfl, rfl, hkeep⟩
      have hs₂ := loadFrameFromBlock_same h₂
      have htracked₂ := (htracked.of_same hs).of_same hs₂
      refine htracked₂.of_frameTableInsert ?_ ?_ ?_
      · rw [maps_congr hs₂.pagedir, hs₂.uservaddr, hkeep, hsup, huser]
        exact hm
      · rw [hs₂.frameTable]
        exact hnew
      · rw [hs₂.nextSup]
        show r < s₁.nextSup
        rw [hnext]
        exact h.listed hmem

/-- A fault keeps the books, if the victim is the caller's own. -/
theorem Tracked.of_pageFault {table : Bool} (h : Tracked s)
    (hown : pallocGetPage false s = none → ∀ e, s.victim = some e → e.owner = p)
    (hx : pageFault p u table s = .ok s') : Tracked s' := by
  obtain ⟨s₁, f, s₂, hroom, h₂, hx⟩ := pageFault_cases hx
  obtain ⟨htracked, hf⟩ := (h.of_madeRoom hown hroom).of_palloc h₂
  exact htracked.of_faultInto hf hx

/-! ## Exit -/

/-- `pagedir_destroy` frees the frames of the directory, and no others. -/
theorem pagedirDestroy_eq_ok : ∀ {l : List Mapping} {s : Memory}, pagedirDestroy l s = .ok s' →
    s'.pagedir = s.pagedir ∧ s'.frameTable = s.frameTable ∧ s'.pageTable = s.pageTable ∧
      s'.nextSup = s.nextSup ∧ s'.sup = s.sup ∧
      ∀ f, s'.used f = true ↔ s.used f = true ∧ ∀ m ∈ l, m.frame ≠ f := by
  intro l
  induction l with
  | nil =>
    intro s h
    cases h
    simp
  | cons m rest ih =>
    intro s h
    obtain ⟨s₁, h₁, h⟩ := bind_eq_ok.mp h
    obtain ⟨hpd, hft, hpt, hnext, hsup, hused⟩ := ih h
    obtain ⟨_, rfl⟩ := pallocFreePage_eq_ok h₁
    refine ⟨hpd, hft, hpt, hnext, hsup, fun f => ?_⟩
    rw [hused, List.forall_mem_cons]
    show Function.update s.used m.frame false f = true ∧ _ ↔ _
    by_cases hf : f = m.frame
    · simp [hf]
    · rw [Function.update_of_ne hf]
      simp [Ne.symm hf]

/-- A process takes its pages and its entries with it. -/
theorem Tracked.of_processExit (h : Tracked s) (hx : processExit p s = .ok s') : Tracked s' := by
  unfold processExit at hx
  obtain ⟨s₁, h₁, hx⟩ := bind_eq_ok.mp hx
  cases hx
  -- what is left: the mappings of the others, and their frames
  have hgone : s₁.frameTable = s.frameTable ∧ s₁.pageTable = s.pageTable ∧
      s₁.nextSup = s.nextSup ∧ s₁.sup = s.sup ∧
      (∀ q v g, s₁.Maps q v g ↔ s.Maps q v g ∧ q ≠ p) ∧
      ∀ q v g, s.Maps q v g → q ≠ p → s₁.used g = true := by
    unfold dropPagedir at h₁
    split at h₁
    next hnone =>
      cases h₁
      refine ⟨rfl, rfl, rfl, rfl, fun q v g => ?_, fun q v g hm _ => h.allocated hm⟩
      refine ⟨fun hm => ⟨hm, ?_⟩, fun hm => hm.1⟩
      rintro rfl
      obtain ⟨pd, hpd, _⟩ := hm
      cases hnone.symm.trans hpd
    next pd hpd =>
      obtain ⟨hpd₁, hft, hpt, hnext, hsup, hused⟩ := pagedirDestroy_eq_ok h₁
      refine ⟨hft, hpt, hnext, hsup, fun q v g => ?_, fun q v g hm hq => ?_⟩
      · unfold Memory.Maps
        rw [hpd₁]
        by_cases hq : q = p
        · simp [hq]
        · simp [hq]
      · refine (hused g).mpr ⟨h.allocated hm, fun m hm' hg => hq ?_⟩
        exact (h.exclusive hm ⟨pd, hpd, m, hm', rfl, hg⟩).1
  obtain ⟨hft, hpt, hnext, hsup, hmaps, hused⟩ := hgone
  have hmaps' : ∀ q v g, Memory.Maps { s₁ with
      frameTable := s₁.frameTable.filter (·.owner != p) } q v g ↔ s.Maps q v g ∧ q ≠ p := hmaps
  have hmem : ∀ {e}, e ∈ s₁.frameTable.filter (·.owner != p) →
      e ∈ s.frameTable ∧ e.owner ≠ p := by
    intro e he
    rw [hft] at he
    obtain ⟨he, hne⟩ := List.mem_filter.mp he
    exact ⟨he, by simpa using hne⟩
  constructor
  case toIsolated =>
    constructor
    case exclusive =>
      intro q r v w g hm hm'
      exact h.exclusive ((hmaps' q v g).mp hm).1 ((hmaps' r w g).mp hm').1
    case allocated =>
      intro q v g hm
      obtain ⟨hm, hq⟩ := (hmaps' q v g).mp hm
      exact hused q v g hm hq
  case single =>
    intro q v g g' hm hm'
    exact h.single ((hmaps' q v g).mp hm).1 ((hmaps' q v g').mp hm').1
  case entry =>
    intro e he
    obtain ⟨he, hne⟩ := hmem he
    refine (hmaps' _ _ _).mpr ⟨?_, hne⟩
    show s.Maps e.owner (s₁.sup e.aux).uservaddr e.frame
    rw [hsup]
    exact h.entry he
  case once =>
    show ((s₁.frameTable.filter _).map _).Nodup
    rw [hft]
    exact h.once.sublist (List.Sublist.map _ List.filter_sublist)
  case bound =>
    intro e he
    show e.aux < s₁.nextSup
    rw [hnext]
    exact h.bound (hmem he).1
  case listed =>
    intro q r hr
    have hr' : r ∈ s₁.pageTable q := hr
    show r < s₁.nextSup
    rw [hpt] at hr'
    rw [hnext]
    exact h.listed hr'

/-! ## Runs -/

/-- At first no page is mapped. -/
theorem tracked_initial (poolSize swapSize : Nat) : Tracked (initial poolSize swapSize) := by
  have hno : ∀ {q v g}, ¬ (initial poolSize swapSize).Maps q v g := by
    rintro q v g ⟨pd, hpd, _⟩
    cases hpd
  constructor
  case toIsolated => exact ⟨fun hm => absurd hm hno, fun hm => absurd hm hno⟩
  case single => exact fun hm => absurd hm hno
  case entry => exact fun he => by cases he
  case once => exact List.nodup_nil
  case bound => exact fun he => by cases he
  case listed => exact fun hr => by cases hr

/-- If the operation has to evict a page, it is a page of its own process. -/
def ownVictim (s : Memory) : Event → Bool
  | .loadPage p _ _ _ _ | .stackPage p _ | .stackCopy p | .pageFault p _ _ =>
    match pallocGetPage false s, s.victim with
    | none, some e => e.owner == p
    | _, _ => true
  | _ => true

/-- The condition on the event is about its victim. -/
theorem owner_of_ownVictim {e : Event} (h : ownVictim s e = true)
    (he : ownVictim s e = match pallocGetPage false s, s.victim with
      | none, some e => e.owner == p
      | _, _ => true) :
    pallocGetPage false s = none → ∀ e, s.victim = some e → e.owner = p := by
  intro hnone e' he'
  rw [he, hnone, he'] at h
  simpa using h

/-- A new process has no pages. -/
theorem Tracked.of_start (h : Tracked s) (hp : s.pagedir p = none) : Tracked { s with
    pagedir := Function.update s.pagedir p (some [])
    pageTable := Function.update s.pageTable p [] } := by
  have hmaps : ∀ q v g, Memory.Maps { s with
      pagedir := Function.update s.pagedir p (some [])
      pageTable := Function.update s.pageTable p [] } q v g ↔ s.Maps q v g := by
    intro q v g
    unfold Memory.Maps
    by_cases hq : q = p
    · simp [hq, hp]
    · simp [hq]
  constructor
  case toIsolated =>
    constructor
    case exclusive =>
      exact fun hm hm' => h.exclusive ((hmaps _ _ _).mp hm) ((hmaps _ _ _).mp hm')
    case allocated => exact fun hm => h.allocated ((hmaps _ _ _).mp hm)
  case single => exact fun hm hm' => h.single ((hmaps _ _ _).mp hm) ((hmaps _ _ _).mp hm')
  case entry => exact fun he => (hmaps _ _ _).mpr (h.entry he)
  case once => exact h.once
  case bound => exact h.bound
  case listed =>
    intro q r hr
    have hr' : r ∈ Function.update s.pageTable p [] q := hr
    rw [Function.update_apply] at hr'
    split at hr'
    next => cases hr'
    next => exact h.listed hr'

/-- A store changes no table. -/
theorem storeByte_same {i : Fin 4096} {b : UInt8} (h : storeByte p u i b s = .ok s') :
    Same s s' := by
  unfold storeByte at h
  split at h
  next => cases h
  next =>
    split at h
    next => cases h
    next =>
      split at h
      next =>
        cases h
        exact ⟨rfl, rfl, rfl, rfl, rfl, fun _ => rfl⟩
      next => cases h

/-- Every event keeps the books where its victim is the caller's own. -/
theorem Tracked.of_step {e : Event} (h : Tracked s) (hown : ownVictim s e = true)
    (hx : step e s = .ok s') : Tracked s' := by
  cases e with
  | start p =>
    simp only [step] at hx
    split at hx
    next => cases hx
    next hnone =>
      cases hx
      exact h.of_start (by simpa using hnone)
  | loadPage p u content writable table =>
    obtain ⟨⟨_, s₁⟩, h₁, hx⟩ := bind_eq_ok.mp hx
    cases hx
    exact h.of_loadSegmentPage (owner_of_ownVictim hown rfl) h₁
  | stackPage p table =>
    obtain ⟨⟨_, s₁⟩, h₁, hx⟩ := bind_eq_ok.mp hx
    cases hx
    exact h.of_setupStackPage (owner_of_ownVictim hown rfl) h₁
  | stackCopy p =>
    simp only [step] at hx
    split at hx
    next => exact h.of_setupStackCopy (owner_of_ownVictim hown rfl) hx
    next => cases hx
  | pageFault p u table =>
    simp only [step] at hx
    split at hx
    next => exact h.of_pageFault (owner_of_ownVictim hown rfl) hx
    next => cases hx
  | exit p => exact h.of_processExit hx
  | store p u i b => exact h.of_same (storeByte_same hx)
  | tick =>
    cases hx
    exact h.of_same ⟨rfl, rfl, rfl, rfl, rfl, fun _ => rfl⟩

/-- The books are kept in every state of a run whose victims are the callers' own. -/
theorem reach_tracked {poolSize swapSize : Nat} (h : ReachWhere (Steps step)
    (fun s e => ownVictim s e = true) (initial poolSize swapSize) s) : Tracked s :=
  h.invariant (tracked_initial poolSize swapSize) fun _ _ _ ht hown hx => ht.of_step hown hx

/-- In every run in which each process evicts pages of its own only, no two processes share a
frame, no mapped frame is free, and a page evicted next is gone from its owner's directory exactly
if the owner evicts it. -/
theorem memory_isolated {poolSize swapSize : Nat} (h : ReachWhere (Steps step)
    (fun s e => ownVictim s e = true) (initial poolSize swapSize) s) :
    Isolated s ∧ ∀ p s' e, s.victim = some e → evictFrame p s = .ok (true, s') →
      ((∀ f, ¬ s'.Maps e.owner (s.sup e.aux).uservaddr f) ↔ e.owner = p) := by
  have ht := reach_tracked h
  refine ⟨ht.toIsolated, fun p s' e he hx => ?_⟩
  rcases evictFrame_eq_ok hx with ⟨hfalse, _⟩ | ⟨_, e', he'⟩
  · cases hfalse
  · cases he.symm.trans he'.victim
    exact ht.evicted_iff he'

/-- A page of zeros. -/
def zeros : Content := fun _ => 0

/-- With one frame, a process loads a page and then faults on another. -/
theorem memory_isolated_alone :
    ∃ s, Isolated s ∧ s.pagedir 1 = some [{ upage := 0x8049, frame := 0, writable := true }] := by
  obtain ⟨s, hs, hpd⟩ := exists_of_replay step ownVictim
    [.start 1, .loadPage 1 0x8048 (some zeros) false true, .tick, .pageFault 1 0x8049 true]
    (initial 1 64)
    (fun s => s.pagedir 1 == some [{ upage := 0x8049, frame := 0, writable := true }])
    (by decide +kernel)
  exact ⟨s, (memory_isolated hs).1, by simpa using hpd⟩

/-- With two frames, two processes load a page each, and the second faults on another: it evicts
the page of the first, which keeps its mapping, and gets the same frame. -/
theorem evicts_from_another :
    ¬ ∀ poolSize swapSize s, Reach (Steps step) (initial poolSize swapSize) s → Isolated s := by
  intro hsafe
  obtain ⟨s, hs, hpd⟩ := exists_of_replay step (fun _ _ => true)
    [.start 1, .start 2, .loadPage 1 0x8048 (some zeros) true true,
      .loadPage 2 0x8048 (some zeros) true true, .pageFault 2 0x8049 true] (initial 2 64)
    (fun s => s.pagedir 1 == some [{ upage := 0x8048, frame := 0, writable := true }] &&
      s.pagedir 2 == some [{ upage := 0x8049, frame := 0, writable := true }])
    (by decide +kernel)
  obtain ⟨h₁, h₂⟩ := (Bool.and_eq_true _ _).mp hpd
  have hm₁ : s.Maps 1 0x8048 0 := ⟨_, by simpa using h₁, _, List.mem_singleton_self _, rfl, rfl⟩
  have hm₂ : s.Maps 2 0x8049 0 := ⟨_, by simpa using h₂, _, List.mem_singleton_self _, rfl, rfl⟩
  have hsame := ((hsafe 2 64 s hs.reach).exclusive hm₁ hm₂).1
  cases hsame

end Pintos.Vm
