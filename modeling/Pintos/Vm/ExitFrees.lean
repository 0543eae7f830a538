import Pintos.Vm.Exiting

/-!
# Freeing pages on exit

For a while the frames of an exiting process are back in the pool while their entries are still in
`frame_table`. A process that evicts such an entry gives a page to `palloc_free_page` that is free,
or that belongs to someone else by now: `frees_stale_page`. The loop that removes the entries can
also lose its way, when the entry it is about to read is evicted, and leave entries behind for good.
`frees_proper` shows that this is all that can go wrong: when each process evicts its own pages only,
and not the one whose entry the loop is at, every page given to `palloc_free_page` is allocated and
nobody else has it mapped.
-/

namespace Pintos.Vm

open Pintos.Lib

variable {s s₁ s' : Memory} {p x : ProcRef} {u : UPage} {f : Frame} {ex : Option (ProcRef × Phase)}

/-! ## Statements of the exiting process -/

variable {ph : Phase} {l : Option (List Mapping)}

/-- The memory without the entries of `x`, with `l` for its directory. -/
def Memory.without (x : ProcRef) (l : Option (List Mapping)) (s : Memory) : Memory :=
  { s with
    pagedir := Function.update s.pagedir x l
    frameTable := s.frameTable.filter (·.owner != x) }

/-- With nobody on the way out memory is what it is. -/
theorem view_none : Exits.view ⟨s, none⟩ = s := by
  have hft : (Exits.view ⟨s, none⟩).frameTable = s.frameTable :=
    List.filter_eq_self.mpr fun _ _ => rfl
  show ({ s with frameTable := (Exits.view ⟨s, none⟩).frameTable } : Memory) = s
  rw [hft]

/-- A process that has not given up its directory hides nothing. -/
theorem view_leaving {pd : Option (List Mapping)} : Exits.view ⟨s, some (x, .leaving pd)⟩ = s := by
  have hgone : (Exits.mk s (some (x, .leaving pd))).gone = (Exits.mk s none).gone := by
    funext q
    show (if q = x then (Phase.leaving pd).left else none) = none
    split <;> rfl
  rw [Exits.view, hgone]
  exact view_none

/-- A process on its way out has the directory its phase has left. -/
theorem view_past (hl : ph.left = some l) : Exits.view ⟨s, some (x, ph)⟩ = s.without x l := by
  have hgone : ∀ q, (Exits.mk s (some (x, ph))).gone q = if q = x then some l else none := by
    intro q
    show (if q = x then ph.left else none) = _
    rw [hl]
  have hdir : (Exits.view ⟨s, some (x, ph)⟩).pagedir = Function.update s.pagedir x l := by
    funext q
    show ((Exits.mk s (some (x, ph))).gone q).getD _ = _
    rw [hgone, Function.update_apply]
    split <;> rfl
  have hft : (Exits.view ⟨s, some (x, ph)⟩).frameTable = s.frameTable.filter (·.owner != x) := by
    apply List.filter_congr
    intro e _
    show ((Exits.mk s (some (x, ph))).gone e.owner).isNone = _
    rw [hgone]
    split
    next he => simp [he]
    next he => simp [he]
  show ({ s with
    pagedir := (Exits.view ⟨s, some (x, ph)⟩).pagedir
    frameTable := (Exits.view ⟨s, some (x, ph)⟩).frameTable } : Memory) = _
  rw [hdir, hft]
  rfl

/-- The books of all are the books without what one process still has. -/
theorem Tracked.without (h : Tracked s) (hl : s.pagedir x = l) : Tracked (s.without x l) := by
  have hmaps : ∀ {q v g}, (s.without x l).Maps q v g ↔ s.Maps q v g := by
    apply maps_congr
    show Function.update s.pagedir x l = _
    rw [← hl, Function.update_eq_self]
  refine h.of_fewer (fun hm => hmaps.mp hm) (fun hm => h.allocated (hmaps.mp hm))
    List.filter_sublist (fun he => hmaps.mpr (h.entry (List.mem_of_mem_filter he))) rfl rfl

/-- What is mapped, with the directory of `x` replaced. -/
theorem without_maps {q : ProcRef} : (s.without x l).Maps q u f ↔
    (q ≠ x ∧ s.Maps q u f) ∨ q = x ∧ ∃ pd, l = some pd ∧ ∃ m ∈ pd, m.upage = u ∧ m.frame = f := by
  unfold Memory.Maps
  show (∃ pd, Function.update s.pagedir x l q = some pd ∧ _) ↔ _
  by_cases hq : q = x
  · simp [hq]
  · simp [hq]

/-- An empty directory may be left out altogether. -/
theorem Tracked.without_nil (h : Tracked (s.without x (some []))) : Tracked (s.without x none) := by
  have hmaps : ∀ {q v g}, (s.without x none).Maps q v g ↔ (s.without x (some [])).Maps q v g := by
    intro q v g
    rw [without_maps, without_maps]
    simp
  exact h.of_fewer (fun hm => hmaps.mp hm) (fun hm => h.allocated (hmaps.mp hm))
    (List.Sublist.refl _) (fun he => hmaps.mpr (h.entry he)) rfl rfl

/-- One page of the directory is freed. -/
theorem Tracked.without_cons {m : Mapping} {rest : List Mapping}
    (h : Tracked (s.without x (some (m :: rest)))) (hone : m.upage ∉ rest.map (·.upage))
    (hx : pallocFreePage m.frame s = .ok s') : Tracked (s'.without x (some rest)) := by
  obtain ⟨_, rfl⟩ := pallocFreePage_eq_ok hx
  have hmine : (s.without x (some (m :: rest))).Maps x m.upage m.frame :=
    without_maps.mpr (.inr ⟨rfl, _, rfl, m, List.mem_cons_self, rfl, rfl⟩)
  have hmaps : ∀ {q v g}, (Memory.without x (some rest) { s with
        used := Function.update s.used m.frame false
        mem := Function.update s.mem m.frame (fun _ => 0xcc) }).Maps q v g →
      (s.without x (some (m :: rest))).Maps q v g ∧ g ≠ m.frame := by
    intro q v g hm
    rcases without_maps.mp hm with ⟨hq, hm⟩ | ⟨rfl, pd, hpd, m', hm', hv, hg⟩
    · have hold := without_maps (x := x) (l := some (m :: rest)).mpr (.inl ⟨hq, hm⟩)
      refine ⟨hold, fun heq => hq ?_⟩
      rw [heq] at hold
      exact (h.exclusive hold hmine).1
    · cases hpd
      have hold : (s.without q (some (m :: rest))).Maps q v g :=
        without_maps.mpr (.inr ⟨rfl, _, rfl, m', List.mem_cons_of_mem _ hm', hv, hg⟩)
      refine ⟨hold, fun heq => hone ?_⟩
      rw [heq] at hold
      rw [← (h.exclusive hold hmine).2, ← hv]
      exact List.mem_map_of_mem hm'
  refine h.of_fewer (fun hm => (hmaps hm).1) (fun hm => ?_) (List.Sublist.refl _) (fun {e} he => ?_)
    rfl rfl
  · obtain ⟨hm, hg⟩ := hmaps hm
    show Function.update s.used m.frame false _ = true
    rw [Function.update_of_ne hg]
    exact h.allocated hm
  · have howner : e.owner ≠ x := by simpa using (List.mem_filter.mp he).2
    have hold := h.entry (e := e) he
    rcases without_maps.mp hold with ⟨_, hm⟩ | ⟨heq, _⟩
    · exact without_maps.mpr (.inl ⟨howner, hm⟩)
    · exact absurd heq howner

/-- An entry of the process may be left out of the frame table. -/
theorem without_erase {e : FrameEntry} (he : e.owner = x) :
    Memory.without x l { s with frameTable := s.frameTable.erase e } = s.without x l := by
  have hft : (s.frameTable.erase e).filter (·.owner != x) = s.frameTable.filter (·.owner != x) := by
    rw [← List.erase_filter, List.erase_of_not_mem]
    intro hmem
    have howner := (List.mem_filter.mp hmem).2
    simp [he] at howner
  unfold Memory.without
  rw [hft]

/-- With the directory gone and no entry behind the loop, there is nothing to leave out. -/
theorem without_none (hdir : s.pagedir x = none) (hft : Behind x s.frameTable none) :
    s.without x none = s := by
  have hpd : Function.update s.pagedir x none = s.pagedir := by
    rw [← hdir, Function.update_eq_self]
  have hall : s.frameTable.filter (·.owner != x) = s.frameTable :=
    List.filter_eq_self.mpr fun e he => by simpa using hft e he
  unfold Memory.without
  rw [hpd, hall]

/-- The loop over `frame_table`. -/
theorem Behind.of_head (x : ProcRef) (l : List FrameEntry) : Behind x l l.head? := by
  cases l with
  | nil => exact fun e he => by cases he
  | cons e l => exact ⟨[], l, rfl, fun e he => by cases he⟩

/-- The loop stands at the first of the entries it has not visited. -/
theorem Behind.of_split {l₁ l₂ : List FrameEntry} (h : ∀ e ∈ l₁, e.owner ≠ x) :
    Behind x (l₁ ++ l₂) l₂.head? := by
  cases l₂ with
  | nil =>
    rw [List.append_nil]
    exact h
  | cons e l => exact ⟨l₁, l, rfl, h⟩

/-- The next element is the one behind. -/
theorem nextElem_append {e : FrameEntry} {l₁ l₂ : List FrameEntry} (h : (l₁ ++ e :: l₂).Nodup) :
    nextElem e (l₁ ++ e :: l₂) = l₂.head? := by
  rw [List.nodup_append] at h
  unfold nextElem
  rw [List.dropWhile_append_of_pos]
  · simp
  · intro e' he'
    simpa using h.2.2 e' he' e List.mem_cons_self

/-- What is left of the process fits its phase. -/
theorem Orderly.of_view (h : Orderly ⟨s, ex⟩) (ht : Tracked (Exits.view ⟨s, some (x, ph)⟩))
    (hfits : ph.Fits x s) : Orderly ⟨s, some (x, ph)⟩ := by
  refine ⟨ht, h.onePer, h.nodup, fun x' ph' heq => ?_⟩
  cases heq
  exact hfits

/-- `process_exit` lets go of the directory, and the books hold without it. -/
theorem Orderly.of_leaving {pd : Option (List Mapping)} {ph' : Option Phase}
    (h : Orderly ⟨s, some (x, .leaving pd)⟩) (hx : exitStep x s (.leaving pd) = .ok (s', ph')) :
    Orderly ⟨s', ph'.map (x, ·)⟩ := by
  have hdir : s.pagedir x = pd := h.fits x _ rfl
  have ht := h.tracked
  rw [view_leaving] at ht
  cases pd with
  | none =>
    cases hx
    apply h.of_view
    · rw [view_past rfl]
      exact ht.without hdir
    · exact ⟨hdir, .of_head x _⟩
  | some pd =>
    cases hx
    refine ⟨?_, fun q pd' hq => ?_, h.nodup, fun x' ph' heq => ?_⟩
    · show Tracked (Exits.view ⟨_, some (x, .destroying pd)⟩)
      rw [view_past rfl]
      have hsame := ht.without hdir
      unfold Memory.without at hsame ⊢
      rw [Function.update_idem]
      exact hsame
    · have hq' : Function.update s.pagedir x none q = some pd' := hq
      rw [Function.update_apply] at hq'
      split at hq'
      · cases hq'
      · exact h.onePer q pd' hq'
    · cases heq
      exact ⟨Function.update_self _ _ _, h.onePer x pd hdir⟩

/-- `process_exit` frees one frame of the directory after the other. -/
theorem Orderly.of_destroying {rest : List Mapping} {ph' : Option Phase}
    (h : Orderly ⟨s, some (x, .destroying rest)⟩)
    (hx : exitStep x s (.destroying rest) = .ok (s', ph')) : Orderly ⟨s', ph'.map (x, ·)⟩ := by
  obtain ⟨hdir, hone⟩ := h.fits x _ rfl
  have ht := h.tracked
  rw [view_past rfl] at ht
  cases rest with
  | nil =>
    cases hx
    apply h.of_view
    · rw [view_past rfl]
      exact ht.without_nil
    · exact ⟨hdir, .of_head x _⟩
  | cons m rest =>
    obtain ⟨s₁, h₁, hx⟩ := bind_eq_ok.mp hx
    cases hx
    rw [List.map_cons, List.nodup_cons] at hone
    refine ⟨?_, ?_, ?_, fun x' ph' heq => ?_⟩
    · show Tracked (Exits.view ⟨_, some (x, .destroying rest)⟩)
      rw [view_past rfl]
      exact ht.without_cons hone.1 h₁
    · exact (acts_free h₁ (p := x)).onePer h.onePer
    · obtain ⟨_, rfl⟩ := pallocFreePage_eq_ok h₁
      exact h.nodup
    · cases heq
      obtain ⟨_, rfl⟩ := pallocFreePage_eq_ok h₁
      exact ⟨hdir, hone.2⟩

/-- `process_exit` frees its entries of the frame table, one after the other. -/
theorem Orderly.of_visiting {iter : Option FrameEntry} {ph' : Option Phase}
    (h : Orderly ⟨s, some (x, .visiting iter)⟩)
    (hx : exitStep x s (.visiting iter) = .ok (s', ph')) : Orderly ⟨s', ph'.map (x, ·)⟩ := by
  obtain ⟨hdir, hbehind⟩ := h.fits x _ rfl
  have hnodup : s.frameTable.Nodup := h.nodup
  have ht := h.tracked
  rw [view_past rfl] at ht
  cases iter with
  | none =>
    cases hx
    rw [without_none hdir hbehind] at ht
    refine ⟨?_, h.onePer, h.nodup, fun x' ph' heq => by cases heq⟩
    show Tracked (Exits.view ⟨s, none⟩)
    rw [view_none]
    exact ht
  | some e =>
    obtain ⟨l₁, l₂, hl, hl₁⟩ := hbehind
    have hl' : s.frameTable = l₁ ++ e :: l₂ := hl
    simp only [exitStep] at hx
    split at hx
    next howner =>
      cases hx
      refine ⟨?_, h.onePer, hnodup.sublist List.erase_sublist, fun x' ph' heq => ?_⟩
      · show Tracked (Exits.view ⟨_, some (x, .unlinked _)⟩)
        rw [view_past rfl, without_erase howner]
        exact ht
      · cases heq
        refine ⟨hdir, ?_⟩
        show Behind x (s.frameTable.erase e) _
        rw [hl'] at hnodup ⊢
        rw [nextElem_append hnodup, List.erase_append_right, List.erase_cons_head]
        · exact .of_split hl₁
        · rw [List.nodup_append] at hnodup
          exact fun he => hnodup.2.2 e he e List.mem_cons_self rfl
    next howner =>
      cases hx
      apply h.of_view
      · rw [view_past rfl]
        exact ht
      · exact ⟨hdir, howner, l₁, l₂, hl, hl₁⟩

/-- Every step of an exit keeps the books. -/
theorem Orderly.of_exitStep {ph' : Option Phase} (h : Orderly ⟨s, some (x, ph)⟩)
    (hx : exitStep x s ph = .ok (s', ph')) : Orderly ⟨s', ph'.map (x, ·)⟩ := by
  cases ph with
  | leaving pd => exact h.of_leaving hx
  | destroying rest => exact h.of_destroying hx
  | visiting iter => exact h.of_visiting hx
  | unlinked next =>
    cases hx
    have ht := h.tracked
    rw [view_past rfl] at ht
    apply h.of_view
    · rw [view_past rfl]
      exact ht
    · have hfits := h.fits x _ rfl
      exact hfits
  | passed e =>
    cases hx
    obtain ⟨hdir, howner, l₁, l₂, hl, hl₁⟩ := h.fits x _ rfl
    have hnodup : s.frameTable.Nodup := h.nodup
    have hl' : s.frameTable = l₁ ++ e :: l₂ := hl
    have ht := h.tracked
    rw [view_past rfl] at ht
    apply h.of_view
    · rw [view_past rfl]
      exact ht
    · refine ⟨hdir, ?_⟩
      rw [hl'] at hnodup ⊢
      rw [nextElem_append hnodup]
      have hsplit : l₁ ++ e :: l₂ = (l₁ ++ [e]) ++ l₂ := by simp
      rw [hsplit]
      apply Behind.of_split
      intro e' he'
      rcases List.mem_append.mp he' with he' | he'
      · exact hl₁ e' he'
      · rw [List.mem_singleton.mp he']
        exact howner
  | dangling => cases hx

/-! ## Runs -/

/-- If the step evicts a page, it is a page of the process that runs, and its entry is not the one
that the loop of a process in `process_exit` reads next. -/
def ownVictims (w : Exits) : ExitsEvent → Bool
  | .op e => ownVictim w.memory e &&
    (e.evicts w.memory).all fun v => w.exiting.all fun (_, ph) => ph.reads != some v
  | .exit _ | .reused _ _ => true

/-- The condition on the event is about the caller and about the loops. -/
theorem spares_of_ownVictims {w : Exits} {e : Event} (h : ownVictims w (.op e) = true) :
    ownVictim w.memory e = true ∧ Spares (e.evicts w.memory) w.exiting := by
  obtain ⟨hown, hall⟩ := (Bool.and_eq_true _ _).mp h
  refine ⟨hown, fun x ph v hex hv => ?_⟩
  rw [hv, hex] at hall
  simpa using hall

/-- The books are kept by steps of exits and by the others. -/
theorem Orderly.of_exitsStep {w w' : Exits} {ev : ExitsEvent} (h : Orderly w)
    (hown : ownVictims w ev = true) (hx : exitsStep ev w = .ok w') : Orderly w' := by
  obtain ⟨s, ex⟩ := w
  cases ev with
  | op e =>
    simp only [exitsStep] at hx
    split at hx
    next hfree =>
      obtain ⟨s', h₁, hx⟩ := bind_eq_ok.mp hx
      cases hx
      obtain ⟨hown, hspare⟩ := spares_of_ownVictims hown
      exact h.of_step hfree hown hspare h₁
    next => cases hx
  | reused p iter =>
    simp only [exitsStep] at hx
    split at hx
    next hd => exact absurd (h.fits p .dangling hd.1) id
    next => cases hx
  | exit p =>
    cases ex with
    | none =>
      cases hx
      apply h.of_view
      · rw [view_leaving]
        have ht := h.tracked
        rw [view_none] at ht
        exact ht
      · exact rfl
    | some g =>
      obtain ⟨x, ph⟩ := g
      simp only [exitsStep] at hx
      split at hx
      next =>
        obtain ⟨⟨s', ph'⟩, h₁, hx⟩ := bind_eq_ok.mp hx
        cases hx
        exact h.of_exitStep h₁
      next => cases hx

/-- The books are kept in every state of a run whose victims are the callers' own. -/
theorem reach_orderly {poolSize swapSize : Nat} {w : Exits}
    (h : ReachWhere (Steps exitsStep) (fun w ev => ownVictims w ev = true)
      (.start poolSize swapSize) w) : Orderly w := by
  refine h.invariant (P := Orderly) ?_ fun _ _ _ hw hown hx => hw.of_exitsStep hown hx
  constructor
  case tracked =>
    show Tracked (Exits.view ⟨initial poolSize swapSize, none⟩)
    rw [view_none]
    exact tracked_initial poolSize swapSize
  case onePer =>
    intro p pd hpd
    cases hpd
  case nodup => exact List.nodup_nil
  case fits =>
    intro x ph hex
    cases hex

/-! ## What is freed -/

/-- A frame that is mapped is mapped in the view. -/
theorem Orderly.maps_view {q : ProcRef} (h : Orderly ⟨s, ex⟩) (hm : s.Maps q u f) :
    (Exits.view ⟨s, ex⟩).Maps q u f := by
  cases ex with
  | none =>
    rw [view_none]
    exact hm
  | some g =>
    obtain ⟨x, ph⟩ := g
    have hfits := h.fits x ph rfl
    -- a process that has given up its directory has nothing mapped
    have hother : s.pagedir x = none → q ≠ x := by
      rintro hnone rfl
      obtain ⟨pd, hpd, _⟩ := hm
      cases hnone.symm.trans hpd
    cases ph with
    | leaving pd =>
      rw [view_leaving]
      exact hm
    | destroying rest =>
      rw [view_past rfl]
      exact without_maps.mpr (.inl ⟨hother hfits.1, hm⟩)
    | visiting iter =>
      rw [view_past rfl]
      exact without_maps.mpr (.inl ⟨hother hfits.1, hm⟩)
    | unlinked next =>
      rw [view_past rfl]
      exact without_maps.mpr (.inl ⟨hother hfits.1, hm⟩)
    | passed e =>
      rw [view_past rfl]
      exact without_maps.mpr (.inl ⟨hother hfits.1, hm⟩)
    | dangling => exact absurd hfits id

/-- A page that its holder has just allocated may be freed. -/
theorem Orderly.proper_of_fresh (h : Orderly ⟨s, ex⟩) (hf : (Exits.view ⟨s, ex⟩).Fresh f) :
    FreeCall.Proper ⟨p, f, s⟩ :=
  ⟨hf.1, fun q _ u hm => hf.2 q u (h.maps_view hm)⟩

/-- Up to the call that frees, an eviction has changed the caller's directory alone. -/
theorem evictUpToFree_eq_ok {e : FrameEntry} (h : evictUpToFree p s = .ok (some e, s')) :
    s.victim = some e ∧ s'.used = s.used ∧ ∀ q ≠ p, s'.pagedir q = s.pagedir q := by
  unfold evictUpToFree at h
  obtain ⟨_, _, h⟩ := bind_eq_ok.mp h
  split at h
  next => cases h
  next e' he =>
    obtain ⟨s₁, h₁, h⟩ := bind_eq_ok.mp h
    obtain ⟨s₂, h₂, h⟩ := bind_eq_ok.mp h
    cases h
    obtain ⟨pd, _, rfl⟩ := pagedirClearPage_eq_ok h₁
    have hsame := writeFrameToBlock_same h₂
    refine ⟨he, hsame.used, fun q hq => ?_⟩
    rw [hsame.pagedir]
    exact Function.update_of_ne hq _ _

/-- The frame that an eviction frees is the victim's, and nobody has it any more. -/
theorem Orderly.proper_of_evict (h : Orderly ⟨s, ex⟩) (hp : Idle p ex)
    (hown : ∀ e, s.victim = some e → e.owner = p) : ∀ c ∈ evictFrees p s, c.Proper := by
  intro c hc
  unfold evictFrees at hc
  split at hc
  next e t heq =>
    rw [List.mem_singleton.mp hc]
    obtain ⟨hv, hused, hdir⟩ := evictUpToFree_eq_ok heq
    have howner := hown e hv
    have hmine := h.tracked.entry (mem_view.mpr ⟨victim_mem hv, howner ▸ hp.here⟩)
    refine ⟨?_, fun q hq u hm => hq ?_⟩
    · show t.used e.frame = true
      rw [hused]
      exact h.tracked.allocated hmine
    · have hm' : s.Maps q u e.frame := by
        unfold Memory.Maps
        rw [← hdir q hq]
        exact hm
      rw [(h.tracked.exclusive (h.maps_view hm') hmine).1, howner]
  next => cases hc

/-- What is freed after room was made is freed properly, if what is freed with a new frame is. -/
theorem Orderly.proper_of_take {zero : Bool} {frees : Frame → Memory → List FreeCall}
    (h : Orderly ⟨s, ex⟩) (hp : Idle p ex)
    (hown : pallocGetPage false s = none → ∀ e, s.victim = some e → e.owner = p)
    (hspare : Spares s.evictedFor ex)
    (hfrees : ∀ {t f ex'}, Orderly ⟨t, ex'⟩ → (Exits.view ⟨t, ex'⟩).Fresh f →
      ∀ c ∈ frees f t, c.Proper) : ∀ c ∈ takeFrees p zero s frees, c.Proper := by
  intro c hc
  unfold takeFrees at hc
  split at hc
  next f s₁ h₁ =>
    obtain ⟨hs₁, hf⟩ := h.of_palloc hp h₁
    exact hfrees hs₁ hf c hc
  next hnone =>
    have hfull : pallocGetPage false s = none := by
      cases zero with
      | false => exact hnone
      | true => exact pallocGetPage_none hnone
    rcases List.mem_append.mp hc with hc | hc
    · exact h.proper_of_evict hp (hown hfull) c hc
    · split at hc
      next s₁ he =>
        split at hc
        next f s₂ h₂ =>
          obtain ⟨hs₂, hf⟩ := (h.of_madeRoom hp hown hspare (.evicted hfull he)).of_palloc hp.cutBy h₂
          exact hfrees hs₂ hf c hc
        next => cases hc
      next => cases hc

/-- `load_segment` gives back the frame nobody has. -/
theorem Orderly.proper_of_load {content : Option Content} {writable table : Bool}
    (h : Orderly ⟨s, ex⟩) (hf : (Exits.view ⟨s, ex⟩).Fresh f) :
    ∀ c ∈ loadFrees p u content writable table f s, c.Proper := by
  intro c hc
  unfold loadFrees at hc
  split at hc
  next =>
    rw [List.mem_singleton.mp hc]
    exact h.proper_of_fresh hf
  next c' =>
    split at hc
    next t heq =>
      rcases installPage_eq_ok heq with ⟨_, rfl⟩ | ⟨htrue, _⟩
      · rw [List.mem_singleton.mp hc]
        exact ⟨hf.1, (h.proper_of_fresh hf).unshared⟩
      · cases htrue
    next => cases hc

/-- `setup_stack` gives back the frame nobody has. -/
theorem Orderly.proper_of_stack {table : Bool} (h : Orderly ⟨s, ex⟩)
    (hf : (Exits.view ⟨s, ex⟩).Fresh f) : ∀ c ∈ stackFrees p table f s, c.Proper := by
  intro c hc
  unfold stackFrees at hc
  split at hc
  next t heq =>
    rcases installPage_eq_ok heq with ⟨_, rfl⟩ | ⟨htrue, _⟩
    · rw [List.mem_singleton.mp hc]
      exact h.proper_of_fresh hf
    · cases htrue
  next => cases hc

/-- What an event frees is freed properly. -/
theorem Orderly.proper_of_op {e : Event} (h : Orderly ⟨s, ex⟩) (hfree : e.free ex = true)
    (hown : ownVictim s e = true) (hspare : Spares (e.evicts s) ex) :
    ∀ c ∈ e.frees s, c.Proper := by
  cases e with
  | loadPage p u content writable table =>
    exact h.proper_of_take (free_idle hfree rfl) (owner_of_ownVictim hown rfl) hspare
      fun ht hf => ht.proper_of_load hf
  | stackPage p table =>
    exact h.proper_of_take (free_idle hfree rfl) (owner_of_ownVictim hown rfl) hspare
      fun ht hf => ht.proper_of_stack hf
  | stackCopy p =>
    simp only [Event.frees]
    split
    · exact h.proper_of_take (free_idle hfree rfl) (owner_of_ownVictim hown rfl) hspare
        fun _ _ c hc => by cases hc
    · exact fun c hc => by cases hc
  | pageFault p u table =>
    simp only [Event.frees]
    split
    · exact h.proper_of_take (free_idle hfree rfl) (owner_of_ownVictim hown rfl) hspare
        fun _ _ c hc => by cases hc
    · exact fun c hc => by cases hc
  | start p => exact fun c hc => by cases hc
  | exit p => exact fun c hc => by cases hc
  | store p u i b => exact fun c hc => by cases hc
  | tick => exact fun c hc => by cases hc

/-- An exit frees the frames of its own directory. -/
theorem Orderly.proper_of_destroy {m : Mapping} {rest : List Mapping}
    (h : Orderly ⟨s, some (x, .destroying (m :: rest))⟩) :
    ∀ c ∈ [FreeCall.mk x m.frame s], c.Proper := by
  intro c hc
  rw [List.mem_singleton.mp hc]
  have ht := h.tracked
  rw [view_past rfl] at ht
  have hmine : (s.without x (some (m :: rest))).Maps x m.upage m.frame :=
    without_maps.mpr (.inr ⟨rfl, _, rfl, m, List.mem_cons_self, rfl, rfl⟩)
  refine ⟨ht.allocated hmine, fun q hq u hm => hq ?_⟩
  exact (ht.exclusive (without_maps.mpr (.inl ⟨hq, hm⟩)) hmine).1

/-- As long as each process evicts its own pages only, and not the one whose entry the loop of
`process_exit` is at, `palloc_free_page` is called on pages that are allocated and that no other
process has mapped, wherever the process that exits is. -/
theorem frees_proper {poolSize swapSize : Nat} {w : Exits} {ev : ExitsEvent}
    (h : ReachWhere (Steps exitsStep) (fun w ev => ownVictims w ev = true)
      (.start poolSize swapSize) w) (hown : ownVictims w ev = true) :
    ∀ c ∈ ev.frees w, c.Proper := by
  have hw := reach_orderly h
  obtain ⟨s, ex⟩ := w
  cases ev with
  | op e =>
    simp only [ExitsEvent.frees]
    split
    next hfree =>
      obtain ⟨hown, hspare⟩ := spares_of_ownVictims hown
      exact hw.proper_of_op hfree hown hspare
    next => exact fun c hc => by cases hc
  | reused p iter => exact fun c hc => by cases hc
  | exit p =>
    intro c hc
    cases ex with
    | none => cases hc
    | some g =>
      obtain ⟨x, ph⟩ := g
      cases ph with
      | destroying rest =>
        cases rest with
        | nil => cases hc
        | cons m rest =>
          simp only [ExitsEvent.frees] at hc
          split at hc
          next => exact hw.proper_of_destroy c hc
          next => cases hc
      | leaving pd => cases hc
      | visiting iter => cases hc
      | unlinked next => cases hc
      | passed e => cases hc
      | dangling => cases hc

/-- A process frees its page on exit while another one has a page. -/
theorem frees_proper_exit : ∃ (w : Exits) (c : FreeCall),
    c ∈ (ExitsEvent.exit 1).frees w ∧ c.frame = 0 ∧ c.Proper := by
  obtain ⟨w, hw, hp⟩ := exists_of_replay exitsStep ownVictims
    [.op (.start 1), .op (.loadPage 1 0x8048 (some zeros) true true), .exit 1, .op (.start 2),
      .exit 1, .op (.pageFault 2 0x8048 true)] (.start 2 64)
    (fun w => ((ExitsEvent.exit 1).frees w).map (·.frame) == [0]) (by decide +kernel)
  have hframes : ((ExitsEvent.exit 1).frees w).map (·.frame) = [0] := by simpa using hp
  obtain ⟨c, hc, hf⟩ := List.mem_map.mp (hframes ▸ List.mem_singleton_self 0)
  exact ⟨w, c, hc, hf, frees_proper hw rfl c hc⟩

/-- The page of the process that exits is free and taken by the third, when the second evicts the
entry that the first still has. -/
theorem frees_stale_page : ¬ ∀ (poolSize swapSize : Nat) (w : Exits) (ev : ExitsEvent),
    Reach (Steps exitsStep) (.start poolSize swapSize) w → ∀ c ∈ ev.frees w, c.Proper := by
  intro hall
  obtain ⟨w, hw, hp⟩ := exists_of_replay exitsStep (fun _ _ => true)
    [.op (.start 1), .op (.loadPage 1 0x8048 (some zeros) true true), .op (.start 2),
      .op (.start 3), .exit 1, .exit 1, .exit 1, .op .tick, .op (.pageFault 3 0x8048 true),
      .op (.pageFault 2 0x8048 true)] (.start 2 64)
    (fun w => ((ExitsEvent.op (.pageFault 2 0x8049 true)).frees w).any fun c =>
      c.frame == 0 && c.caller == 2 &&
        c.memory.pagedir 3 == some [{ upage := 0x8048, frame := 0, writable := true }])
    (by decide +kernel)
  obtain ⟨c, hc, hp⟩ := List.any_eq_true.mp hp
  simp only [Bool.and_eq_true, beq_iff_eq] at hp
  obtain ⟨⟨hframe, hcaller⟩, hdir⟩ := hp
  have hmaps : c.memory.Maps 3 0x8048 c.frame :=
    ⟨_, hdir, _, List.mem_singleton_self _, rfl, hframe.symm⟩
  exact (hall 2 64 w _ hw.reach c hc).unshared 3 (by rw [hcaller]; decide) _ hmaps

/-- Each process evicts its own pages only, but the second one evicts the entry that the loop of the
first is at. The loop ends early, and a new process on the page of the first `struct thread` evicts
the entry that is left. -/
example : ∃ w, ReachWhere (Steps exitsStep)
    (fun w ev => ∀ e, ev = .op e → ownVictim w.memory e = true) (.start 2 64) w ∧
    ownVictim w.memory (.pageFault 1 0x8048 true) = true ∧
    ∃ c ∈ (ExitsEvent.op (.pageFault 1 0x8048 true)).frees w, ¬ c.Proper := by
  obtain ⟨w, hw, hp⟩ := exists_of_replay exitsStep
    (fun w ev => match ev with
      | .op e => ownVictim w.memory e
      | _ => true)
    [.op (.start 2), .op (.loadPage 2 0x8048 (some zeros) true true), .op .tick, .op (.start 1),
      .op (.loadPage 1 0x8048 (some zeros) true true), .exit 1, .exit 1, .exit 1, .exit 1, .exit 1,
      .op .tick, .op (.pageFault 2 0x8049 true), .op (.pageFault 2 0x804a true), .reused 1 none,
      .exit 1, .op (.start 1)] (.start 2 64)
    (fun w => ownVictim w.memory (.pageFault 1 0x8048 true) &&
      ((ExitsEvent.op (.pageFault 1 0x8048 true)).frees w).any fun c =>
        c.frame == 1 && c.caller == 1 &&
          c.memory.pagedir 2 == some [{ upage := 0x804a, frame := 0, writable := true },
            { upage := 0x8049, frame := 1, writable := true }])
    (by decide +kernel)
  obtain ⟨hown, hany⟩ := (Bool.and_eq_true _ _).mp hp
  obtain ⟨c, hc, hp⟩ := List.any_eq_true.mp hany
  simp only [Bool.and_eq_true, beq_iff_eq] at hp
  obtain ⟨⟨hframe, hcaller⟩, hdir⟩ := hp
  have hmaps : c.memory.Maps 2 0x8049 c.frame :=
    ⟨_, hdir, _, List.mem_cons_of_mem _ List.mem_cons_self, rfl, hframe.symm⟩
  refine ⟨w, hw.weaken fun w' ev h e he => ?_, hown, c, hc, fun hproper => ?_⟩
  · rw [he] at h
    exact h
  · exact hproper.unshared 2 (by rw [hcaller]; decide) _ hmaps

end Pintos.Vm
