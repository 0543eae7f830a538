import Mathlib
import Pintos.Vm.Faulting

/-!
# Swap slots

A page that is evicted for the first time gets the eight sectors at `curr_index`, and keeps them.
`Written` is what `evict_frame` does to the device and to the entry; every other operation leaves
both alone (`SlotsKept`). So the slots of different entries are disjoint and below `curr_index`,
and each holds what was last written for its entry: `Slotted`, kept along with a record of what
was written.

`write_frame_to_block` advances `curr_index` also when a page is written to the slot it has. The
counter is an `int`, so this holds until it overflows: `slots_lost` is a run in which two pages
take turns in one frame until it has.
-/

namespace Pintos.Vm

open Pintos.Lib

variable {s s₁ s' : Memory} {p : ProcRef} {u : UPage} {f : Frame}

/-! ## What leaves the slots alone -/

/-- The tables speak of entries that have been made. -/
structure Known (s : Memory) : Prop where
  listed : ∀ {p r}, r ∈ s.pageTable p → r < s.nextSup
  bound : ∀ {e}, e ∈ s.frameTable → e.aux < s.nextSup

/-- The device and the slots are as they were, and new entries have none. -/
structure SlotsKept (s s' : Memory) : Prop where
  swapSize : s'.swapSize = s.swapSize
  swap : s'.swap = s.swap
  currIndex : s'.currIndex = s.currIndex
  nextSup : s.nextSup ≤ s'.nextSup
  old : ∀ r < s.nextSup, s'.slot r = s.slot r
  new : ∀ r, s.nextSup ≤ r → r < s'.nextSup → s'.slot r = -1
  known : Known s → Known s'

theorem SlotsKept.refl (s : Memory) : SlotsKept s s :=
  ⟨rfl, rfl, rfl, Nat.le_refl _, fun _ _ => rfl, fun _ h h' => absurd h' (Nat.not_lt.mpr h), id⟩

/-- Slots that two steps keep, they keep together. -/
theorem SlotsKept.trans (h : SlotsKept s s₁) (h' : SlotsKept s₁ s') : SlotsKept s s' where
  swapSize := h'.swapSize.trans h.swapSize
  swap := h'.swap.trans h.swap
  currIndex := h'.currIndex.trans h.currIndex
  nextSup := Nat.le_trans h.nextSup h'.nextSup
  old := by
    intro r hr
    rw [h'.old r (Nat.lt_of_lt_of_le hr h.nextSup), h.old r hr]
  new := by
    intro r hr hr'
    by_cases hlt : r < s₁.nextSup
    · rw [h'.old r hlt]
      exact h.new r hr hlt
    · exact h'.new r (Nat.not_lt.mp hlt) hr'
  known := fun hk => h'.known (h.known hk)

/-- Frames and page directories do not matter here. -/
theorem SlotsKept.of_eq (hsize : s'.swapSize = s.swapSize) (hswap : s'.swap = s.swap)
    (hcurr : s'.currIndex = s.currIndex)
    (hsup : s'.sup = s.sup) (hnext : s'.nextSup = s.nextSup) (hpt : s'.pageTable = s.pageTable)
    (hft : ∀ e ∈ s'.frameTable, e ∈ s.frameTable) : SlotsKept s s' where
  swapSize := hsize
  swap := hswap
  currIndex := hcurr
  nextSup := Nat.le_of_eq hnext.symm
  old := by
    intro r _
    unfold Memory.slot
    rw [hsup]
  new := by
    intro r hr hr'
    rw [hnext] at hr'
    exact absurd hr' (Nat.not_lt.mpr hr)
  known := by
    intro hk
    constructor
    · intro q r hr
      rw [hpt] at hr
      rw [hnext]
      exact hk.listed hr
    · intro e he
      rw [hnext]
      exact hk.bound (hft e he)

/-- An allocation is in main memory. -/
theorem slotsKept_palloc {zero : Bool} (h : pallocGetPage zero s = some (f, s')) :
    SlotsKept s s' := by
  obtain ⟨_, rfl⟩ := pallocGetPage_eq_some h
  exact .of_eq rfl rfl rfl rfl rfl rfl fun _ he => he

theorem slotsKept_free (h : pallocFreePage f s = .ok s') : SlotsKept s s' := by
  obtain ⟨_, rfl⟩ := pallocFreePage_eq_ok h
  exact .of_eq rfl rfl rfl rfl rfl rfl fun _ he => he

/-- A page directory has no slots. -/
theorem slotsKept_install {writable table ok : Bool}
    (h : installPage p u f writable table s = .ok (ok, s')) : SlotsKept s s' := by
  rcases installPage_eq_ok h with ⟨_, rfl⟩ | ⟨_, _, pd, _, rfl⟩
  · exact .refl _
  · exact .of_eq rfl rfl rfl rfl rfl rfl fun _ he => he

/-- A new entry of the supplemental table has none either. -/
theorem slotsKept_supInsert (p : ProcRef) (u : UPage) (s : Memory) :
    SlotsKept s (supPageTableInsert p u (-1) s).2 where
  swapSize := rfl
  swap := rfl
  currIndex := rfl
  nextSup := Nat.le_succ _
  old := by
    intro r hr
    show (Function.update s.sup s.nextSup _ r).blockIndex = _
    rw [Function.update_of_ne (Nat.ne_of_lt hr)]
    rfl
  new := by
    intro r hr hr'
    have hself : r = s.nextSup := Nat.le_antisymm (Nat.le_of_lt_succ hr') hr
    simp [Memory.slot, supPageTableInsert, hself]
  known := by
    intro hk
    constructor
    · intro q r hr
      have hr' : r ∈ Function.update s.pageTable p (s.pageTable p ++ [s.nextSup]) q := hr
      show r < s.nextSup + 1
      rw [Function.update_apply] at hr'
      split at hr'
      · rcases List.mem_append.mp hr' with hr' | hr'
        · exact Nat.lt_succ_of_lt (hk.listed hr')
        · rw [List.mem_singleton.mp hr']
          exact Nat.lt_succ_self _
      · exact Nat.lt_succ_of_lt (hk.listed hr')
    · intro e he
      exact Nat.lt_succ_of_lt (hk.bound he)

/-- An entry of the frame table keeps the slots, if it names an entry that is there. -/
theorem SlotsKept.frameInsert {aux : SupRef} (h : SlotsKept s s₁)
    (haux : Known s → aux < s₁.nextSup) : SlotsKept s (frameTableInsert f p aux s₁) where
  swapSize := h.swapSize
  swap := h.swap
  currIndex := h.currIndex
  nextSup := h.nextSup
  old := h.old
  new := h.new
  known := by
    intro hk
    refine ⟨(h.known hk).listed, fun {e} he => ?_⟩
    rcases List.mem_append.mp he with he | he
    · exact (h.known hk).bound he
    · rw [List.mem_singleton.mp he]
      exact haux hk

/-- The two entries of a new page keep the slots. -/
theorem slotsKept_inserts (p : ProcRef) (u : UPage) (f : Frame) (s : Memory) :
    SlotsKept s (frameTableInsert f p (supPageTableInsert p u (-1) s).1
      (supPageTableInsert p u (-1) s).2) :=
  (slotsKept_supInsert p u s).frameInsert fun _ => Nat.lt_succ_self _

/-- Reading a page back leaves its slot as it is. -/
theorem slotsKept_loadFrame {index : Int} (h : loadFrameFromBlock p f index s = .ok s') :
    SlotsKept s s' := by
  unfold loadFrameFromBlock at h
  obtain ⟨_, _, h⟩ := bind_eq_ok.mp h
  split at h
  · cases h
    exact .of_eq rfl rfl rfl rfl rfl rfl fun _ he => he
  · cases h

/-- A page of a segment has no slot yet. -/
theorem slotsKept_loadInto {content : Option Content} {writable table ok : Bool}
    (h : loadInto p u f content writable table s = .ok (ok, s')) : SlotsKept s s' := by
  unfold loadInto at h
  split at h
  · obtain ⟨s₁, h₁, h⟩ := bind_eq_ok.mp h
    cases h
    exact slotsKept_free h₁
  · obtain ⟨⟨installed, s₁⟩, h₁, h⟩ := bind_eq_ok.mp h
    have hmem : SlotsKept s { s with mem := Function.update s.mem f ‹Content› } :=
      .of_eq rfl rfl rfl rfl rfl rfl fun _ he => he
    have hin := hmem.trans (slotsKept_install h₁)
    cases installed with
    | true =>
      cases h
      exact hin.trans (slotsKept_inserts p u f s₁)
    | false =>
      obtain ⟨s₂, h₂, h⟩ := bind_eq_ok.mp h
      cases h
      exact hin.trans (slotsKept_free h₂)

/-- The stack has no slot yet. -/
theorem slotsKept_installStack {table ok : Bool} (h : installStack p f table s = .ok (ok, s')) :
    SlotsKept s s' := by
  obtain ⟨⟨installed, s₁⟩, h₁, h⟩ := bind_eq_ok.mp h
  have hin := slotsKept_install h₁
  cases installed with
  | true =>
    cases h
    exact hin
  | false =>
    obtain ⟨s₂, h₂, h⟩ := bind_eq_ok.mp h
    cases h
    exact hin.trans (slotsKept_free h₂)

/-- A fault reads a slot at most. -/
theorem slotsKept_faultInto {table : Bool} (h : faultInto p u f table s = .ok s') :
    SlotsKept s s' := by
  unfold faultInto at h
  obtain ⟨⟨installed, s₁⟩, h₁, h⟩ := bind_eq_ok.mp h
  have hin := slotsKept_install h₁
  cases installed with
  | false => cases h
  | true =>
    simp only [if_true] at h
    split at h
    next =>
      cases h
      exact hin.trans (slotsKept_inserts p u f s₁)
    next r hr =>
      obtain ⟨s₂, h₂, h⟩ := bind_eq_ok.mp h
      cases h
      have hmem := (findPage_spec hr).1
      -- a new access time
      have htouch : SlotsKept s₁ { s₁ with
          sup := Function.update s₁.sup r { s₁.sup r with accessTime := s₁.ticks % 2 ^ 64 } } := by
        refine ⟨rfl, rfl, rfl, Nat.le_refl _, fun r' _ => ?_, fun r' hr' hlt => ?_,
          fun hk => ⟨hk.listed, hk.bound⟩⟩
        · by_cases he : r' = r
          · simp [Memory.slot, he]
          · simp [Memory.slot, he]
        · exact absurd hlt (Nat.not_lt.mpr hr')
      have hall := (hin.trans htouch).trans (slotsKept_loadFrame h₂)
      apply hall.frameInsert
      intro hk
      exact Nat.lt_of_lt_of_le (hk.listed hmem) hall.nextSup

/-! ## One event -/

/-- The entry whose page an event evicts. -/
def Event.evicts (s : Memory) : Event → Option FrameEntry
  | .loadPage _ _ _ _ _ | .stackPage _ _ | .stackCopy _ | .pageFault _ _ _ =>
    match pallocGetPage false s with
    | none => s.victim
    | some _ => none
  | _ => none

/-- The slots after an event: at most one page is evicted, and its slot written. -/
def SlotStep (s s' : Memory) : Option FrameEntry → Prop
  | none => SlotsKept s s'
  | some v => ∃ p s₁, Evicted s s₁ p v ∧ Written s s₁ v ∧ SlotsKept s₁ s'

/-- An eviction and what keeps the slots are an eviction. -/
theorem SlotStep.then {v : Option FrameEntry} (h : SlotStep s s₁ v) (hs : SlotsKept s₁ s') :
    SlotStep s s' v := by
  cases v with
  | none => exact SlotsKept.trans h hs
  | some v =>
    obtain ⟨p, s₂, he, hw, hk⟩ := h
    exact ⟨p, s₂, he, hw, hk.trans hs⟩

/-- `evict_frame` writes the victim's page to the victim's slot. -/
theorem slotStep_evictFrame {evicted : Bool} (h : evictFrame p s = .ok (evicted, s')) :
    SlotStep s s' s.victim := by
  cases evicted with
  | true =>
    obtain ⟨v, he, hw⟩ := evictFrame_written h
    rw [he.victim]
    exact ⟨p, s', he, hw, .refl _⟩
  | false =>
    rcases evictFrame_eq_ok h with ⟨_, hnone, _⟩ | ⟨htrue, _⟩
    · unfold evictFrame at h
      obtain ⟨_, _, h⟩ := bind_eq_ok.mp h
      rw [hnone] at h ⊢
      cases h
      exact .of_eq rfl rfl rfl rfl rfl rfl fun _ he => he
    · cases htrue

/-- What the operations that take a page have in common: the page comes from the pool, or one is
evicted first. -/
theorem MadeRoom.slotStep (h : MadeRoom p s s') :
    SlotStep s s' (match pallocGetPage false s with
      | none => s.victim
      | some _ => none) := by
  cases h with
  | free hx =>
    obtain ⟨x, hx⟩ := hx
    rw [hx]
    exact SlotsKept.refl _
  | evicted hnone he =>
    rw [hnone]
    exact slotStep_evictFrame he

/-- Destroying a page directory frees no slot. -/
theorem pagedirDestroy_slots : ∀ {l : List Mapping} {s : Memory}, pagedirDestroy l s = .ok s' →
    SlotsKept s s' := by
  intro l
  induction l with
  | nil =>
    intro s h
    cases h
    exact .refl _
  | cons m rest ih =>
    intro s h
    obtain ⟨s₁, h₁, h⟩ := bind_eq_ok.mp h
    exact (slotsKept_free h₁).trans (ih h)

/-- The exit of a process frees no slot. -/
theorem slotsKept_processExit (h : processExit p s = .ok s') : SlotsKept s s' := by
  unfold processExit at h
  obtain ⟨s₁, h₁, h⟩ := bind_eq_ok.mp h
  cases h
  have hdrop : SlotsKept s s₁ := by
    unfold dropPagedir at h₁
    split at h₁
    · cases h₁
      exact .refl _
    · have hclear : SlotsKept s { s with pagedir := Function.update s.pagedir p none } :=
        .of_eq rfl rfl rfl rfl rfl rfl fun _ he => he
      exact hclear.trans (pagedirDestroy_slots h₁)
  exact hdrop.trans (.of_eq rfl rfl rfl rfl rfl rfl fun _ he => List.mem_of_mem_filter he)

/-- A store of the program is in main memory. -/
theorem slotsKept_storeByte {i : Fin 4096} {b : UInt8} (h : storeByte p u i b s = .ok s') :
    SlotsKept s s' := by
  unfold storeByte at h
  split at h
  · cases h
  · split at h
    · cases h
    · split at h
      · cases h
        exact .of_eq rfl rfl rfl rfl rfl rfl fun _ he => he
      · cases h

/-- What an event does to the slots is what its eviction does. -/
theorem step_slots {e : Event} (h : step e s = .ok s') : SlotStep s s' (e.evicts s) := by
  cases e with
  | start p =>
    simp only [step] at h
    split at h
    · cases h
    · cases h
      refine ⟨rfl, rfl, rfl, Nat.le_refl _, fun _ _ => rfl, fun r hr hlt => ?_,
        fun hk => ⟨?_, hk.bound⟩⟩
      · exact absurd hlt (Nat.not_lt.mpr hr)
      · intro q r hr
        have hr' : r ∈ Function.update s.pageTable p [] q := hr
        rw [Function.update_apply] at hr'
        split at hr'
        · cases hr'
        · exact hk.listed hr'
  | loadPage p u content writable table =>
    obtain ⟨⟨_, s₁⟩, h₁, h⟩ := bind_eq_ok.mp h
    cases h
    obtain ⟨s₂, hroom, ⟨f, s₃, h₃, hx⟩ | ⟨_, rfl⟩⟩ := loadSegmentPage_cases h₁
    · exact hroom.slotStep.then ((slotsKept_palloc h₃).trans (slotsKept_loadInto hx))
    · exact hroom.slotStep
  | stackPage p table =>
    obtain ⟨⟨_, s₁⟩, h₁, h⟩ := bind_eq_ok.mp h
    cases h
    obtain ⟨s₂, hroom, ⟨f, s₃, h₃, hx⟩ | rfl⟩ := setupStackPage_cases h₁
    · exact hroom.slotStep.then ((slotsKept_palloc h₃).trans (slotsKept_installStack hx))
    · exact hroom.slotStep
  | stackCopy p =>
    simp only [step] at h
    split at h
    · obtain ⟨s₁, hroom, ⟨f, h₂⟩ | rfl⟩ := setupStackCopy_cases h
      · exact hroom.slotStep.then (slotsKept_palloc h₂)
      · exact hroom.slotStep
    · cases h
  | pageFault p u table =>
    simp only [step] at h
    split at h
    · obtain ⟨s₁, f, s₂, hroom, h₂, hx⟩ := pageFault_cases h
      exact hroom.slotStep.then ((slotsKept_palloc h₂).trans (slotsKept_faultInto hx))
    · cases h
  | exit p => exact slotsKept_processExit h
  | store p u i b => exact slotsKept_storeByte h
  | tick =>
    cases h
    exact .of_eq rfl rfl rfl rfl rfl rfl fun _ he => he

/-! ## The invariant -/

/-- Slots are apart, on the device and below `curr_index`, and hold what was last written for
their entries. -/
structure Slotted (s : Memory) (written : SupRef → Option Content) : Prop where
  known : Known s
  curr : 0 ≤ s.currIndex
  below : ∀ r < s.nextSup, s.slot r ≠ -1 → 0 ≤ s.slot r ∧ s.slot r + 8 ≤ s.currIndex
  device : ∀ r < s.nextSup, s.slot r ≠ -1 → s.slot r + 8 ≤ s.swapSize
  apart : ∀ r < s.nextSup, ∀ r' < s.nextSup, r ≠ r' → s.slot r ≠ -1 → s.slot r' ≠ -1 →
    s.slot r + 8 ≤ s.slot r' ∨ s.slot r' + 8 ≤ s.slot r
  holds : ∀ r < s.nextSup, s.slot r ≠ -1 →
    ∃ c, written r = some c ∧ ∀ i : Fin 8, s.swap ((s.slot r).toNat + i) = c.sector i

/-- The books of the slots hold where the slots are kept. -/
theorem Slotted.of_kept {written : SupRef → Option Content} (h : Slotted s written)
    (hs : SlotsKept s s') : Slotted s' written := by
  have hold : ∀ r < s'.nextSup, s'.slot r ≠ -1 → r < s.nextSup ∧ s'.slot r = s.slot r := by
    intro r hr hne
    by_cases hlt : r < s.nextSup
    · exact ⟨hlt, hs.old r hlt⟩
    · exact absurd (hs.new r (Nat.not_lt.mp hlt) hr) hne
  constructor
  case known => exact hs.known h.known
  case curr =>
    rw [hs.currIndex]
    exact h.curr
  case below =>
    intro r hr hne
    obtain ⟨hr', heq⟩ := hold r hr hne
    rw [heq] at hne ⊢
    rw [hs.currIndex]
    exact h.below r hr' hne
  case device =>
    intro r hr hne
    obtain ⟨hr', heq⟩ := hold r hr hne
    rw [heq] at hne ⊢
    rw [hs.swapSize]
    exact h.device r hr' hne
  case apart =>
    intro r hr r' hr' hdiff hne hne'
    obtain ⟨hr₁, heq⟩ := hold r hr hne
    obtain ⟨hr₂, heq'⟩ := hold r' hr' hne'
    rw [heq] at hne ⊢
    rw [heq'] at hne' ⊢
    exact h.apart r hr₁ r' hr₂ hdiff hne hne'
  case holds =>
    intro r hr hne
    obtain ⟨hr', heq⟩ := hold r hr hne
    rw [heq] at hne ⊢
    rw [hs.swap]
    exact h.holds r hr' hne

/-- An eviction, with room in `curr_index` for eight more. -/
theorem Slotted.of_written {written : SupRef → Option Content} {v : FrameEntry}
    (h : Slotted s written) (he : Evicted s s' p v) (hw : Written s s' v)
    (hroom : s.currIndex + 8 < 2 ^ 31) :
    Slotted s' (Function.update written v.aux (some (s.mem v.frame))) := by
  have haux : v.aux < s.nextSup := h.known.bound (victim_mem he.victim)
  have hcurr : s'.currIndex = s.currIndex + 8 := by
    rw [hw.currIndex]
    have := h.curr
    apply Int.bmod_eq_of_le <;> omega
  have hself : s'.slot v.aux = s.slotFor v.aux := by rw [hw.slot, if_pos rfl]
  have hother : ∀ {r}, r ≠ v.aux → s'.slot r = s.slot r := fun hr => by rw [hw.slot, if_neg hr]
  -- the slot written is below the new `curr_index` and apart from the slots of the others
  have hin : 0 ≤ s.slotFor v.aux ∧ s.slotFor v.aux + 8 ≤ s.currIndex + 8 := by
    unfold Memory.slotFor
    split
    next =>
      have := h.curr
      omega
    next hne =>
      have := h.below v.aux haux hne
      omega
  have hapart : ∀ r < s.nextSup, r ≠ v.aux → s.slot r ≠ -1 →
      s.slot r + 8 ≤ s.slotFor v.aux ∨ s.slotFor v.aux + 8 ≤ s.slot r := by
    intro r hr hdiff hne
    unfold Memory.slotFor
    split
    next => exact .inl (h.below r hr hne).2
    next hne' => exact h.apart r hr v.aux haux hdiff hne hne'
  constructor
  case known =>
    constructor
    · intro q r hr
      rw [he.pageTable] at hr
      rw [he.nextSup]
      exact h.known.listed hr
    · intro e hmem
      rw [he.frameTable] at hmem
      rw [he.nextSup]
      exact h.known.bound (List.mem_of_mem_erase hmem)
  case curr =>
    rw [hcurr]
    have := h.curr
    omega
  case below =>
    intro r hr hne
    rw [he.nextSup] at hr
    rw [hcurr]
    by_cases hdiff : r = v.aux
    · rw [hdiff, hself]
      exact hin
    · rw [hother hdiff] at hne ⊢
      have := h.below r hr hne
      omega
  case device =>
    intro r hr hne
    rw [he.nextSup] at hr
    rw [hw.rest.2.1]
    by_cases hdiff : r = v.aux
    · rw [hdiff, hself]
      exact hw.device.2
    · rw [hother hdiff] at hne ⊢
      exact h.device r hr hne
  case apart =>
    intro r hr r' hr' hdiff hne hne'
    rw [he.nextSup] at hr hr'
    by_cases hrv : r = v.aux
    · subst hrv
      rw [hself]
      rw [hother (Ne.symm hdiff)] at hne' ⊢
      exact (hapart r' hr' (Ne.symm hdiff) hne').symm
    · rw [hother hrv] at hne ⊢
      by_cases hrv' : r' = v.aux
      · subst hrv'
        rw [hself]
        exact hapart r hr hrv hne
      · rw [hother hrv'] at hne' ⊢
        exact h.apart r hr r' hr' hdiff hne hne'
  case holds =>
    intro r hr hne
    rw [he.nextSup] at hr
    by_cases hrv : r = v.aux
    · subst hrv
      rw [hself, Function.update_self]
      exact ⟨_, rfl, hw.inside⟩
    · rw [hother hrv] at hne ⊢
      rw [Function.update_of_ne hrv]
      obtain ⟨c, hc, hsect⟩ := h.holds r hr hne
      refine ⟨c, hc, fun i => ?_⟩
      rw [← hsect i]
      apply hw.outside
      have hpos := (h.below r hr hne).1
      have := hapart r hr hrv hne
      have hi := i.isLt
      omega

/-! ## Runs -/

/-- The memory, and beside it what `evict_frame` last wrote for each entry. -/
structure Swapping where
  memory : Memory
  written : SupRef → Option Content

def swappingStep (e : Event) (w : Swapping) : Except Fault Swapping := do
  let m ← step e w.memory
  .ok { memory := m, written := match e.evicts w.memory with
    | some v => Function.update w.written v.aux (some (w.memory.mem v.frame))
    | none => w.written }

def Swapping.start (poolSize swapSize : Nat) : Swapping where
  memory := initial poolSize swapSize
  written := fun _ => none

/-- A step of the run with the record of what was written is a step, and its record. -/
theorem swappingStep_eq_ok {e : Event} {w w' : Swapping} (h : swappingStep e w = .ok w') :
    step e w.memory = .ok w'.memory ∧ w'.written = match e.evicts w.memory with
      | some v => Function.update w.written v.aux (some (w.memory.mem v.frame))
      | none => w.written := by
  obtain ⟨m, hm, h⟩ := bind_eq_ok.mp h
  cases h
  exact ⟨hm, rfl⟩

/-- An eviction does not overflow `curr_index`. -/
def countsOn (s : Memory) (e : Event) : Bool :=
  (e.evicts s).isNone || decide (s.currIndex + 8 < 2 ^ 31)

/-- What is asked of the slots. -/
structure Swapping.Apart (w : Swapping) : Prop where
  below : ∀ r < w.memory.nextSup, w.memory.slot r ≠ -1 →
    0 ≤ w.memory.slot r ∧ w.memory.slot r + 8 ≤ w.memory.currIndex
  disjoint : ∀ r < w.memory.nextSup, ∀ r' < w.memory.nextSup, r ≠ r' →
    w.memory.slot r ≠ -1 → w.memory.slot r' ≠ -1 →
    Disjoint (Set.Ico (w.memory.slot r) (w.memory.slot r + 8))
      (Set.Ico (w.memory.slot r') (w.memory.slot r' + 8))
  holds : ∀ r < w.memory.nextSup, w.memory.slot r ≠ -1 →
    ∃ c, w.written r = some c ∧
      ∀ i : Fin 8, w.memory.swap ((w.memory.slot r).toNat + i) = c.sector i

/-- At first no slot is given out. -/
theorem slotted_start (poolSize swapSize : Nat) :
    Slotted (initial poolSize swapSize) fun _ => none := by
  have hnone : ∀ r : SupRef, ¬ r < (initial poolSize swapSize).nextSup := fun r => Nat.not_lt_zero r
  refine ⟨⟨fun hr => ?_, fun he => ?_⟩, le_refl _, fun r hr => ?_, fun r hr => ?_, fun r hr => ?_,
    fun r hr => ?_⟩
  · cases hr
  · cases he
  · exact absurd hr (hnone r)
  · exact absurd hr (hnone r)
  · exact absurd hr (hnone r)
  · exact absurd hr (hnone r)

/-- Every event keeps the books, as long as the slots can be counted. -/
theorem Slotted.of_step {e : Event} {w w' : Swapping} (h : Slotted w.memory w.written)
    (hcount : countsOn w.memory e = true) (hx : swappingStep e w = .ok w') :
    Slotted w'.memory w'.written := by
  obtain ⟨hx, hwritten⟩ := swappingStep_eq_ok hx
  have hstep := step_slots hx
  rw [hwritten]
  unfold countsOn at hcount
  cases hv : e.evicts w.memory with
  | none =>
    rw [hv] at hstep
    exact h.of_kept hstep
  | some v =>
    rw [hv] at hstep hcount
    obtain ⟨p, s₁, he, hw, hk⟩ := hstep
    exact (h.of_written he hw (by simpa using hcount)).of_kept hk

/-- The books hold in every state of a run whose slots can be counted. -/
theorem reach_slotted {poolSize swapSize : Nat} {w : Swapping}
    (h : ReachWhere (Steps swappingStep) (fun w e => countsOn w.memory e = true)
      (.start poolSize swapSize) w) : Slotted w.memory w.written := by
  refine h.invariant (P := fun w => Slotted w.memory w.written) (slotted_start poolSize swapSize) ?_
  intro w e w' hw hok hx
  exact hw.of_step hok hx

/-- As long as `curr_index` does not overflow, the slots of different entries are disjoint and
below it, and each holds what `evict_frame` last wrote for its entry. -/
theorem swap_slots_apart {poolSize swapSize : Nat} {w : Swapping}
    (h : ReachWhere (Steps swappingStep) (fun w e => countsOn w.memory e = true)
      (.start poolSize swapSize) w) : w.Apart := by
  have hs := reach_slotted h
  refine ⟨hs.below, fun r hr r' hr' hdiff hne hne' => ?_, hs.holds⟩
  apply Set.disjoint_left.mpr
  intro n hn hn'
  have h₁ := Set.mem_Ico.mp hn
  have h₂ := Set.mem_Ico.mp hn'
  have := hs.apart r hr r' hr' hdiff hne hne'
  omega

/-- Two pages in turn in one frame: both have been written, to different slots. -/
theorem two_slots_apart : ∃ w : Swapping, w.memory.slot 0 = 0 ∧ w.memory.slot 1 = 8 ∧
    w.memory.nextSup = 2 ∧ w.Apart := by
  obtain ⟨w, hw, hp⟩ := exists_of_replay swappingStep (fun w e => countsOn w.memory e)
    [.start 0, .pageFault 0 0x8048 true, .pageFault 0 0x8049 true, .pageFault 0 0x8048 true]
    (.start 1 16)
    (fun w => w.memory.slot 0 == 0 && w.memory.slot 1 == 8 && w.memory.nextSup == 2)
    (by decide +kernel)
  simp only [Bool.and_eq_true, beq_iff_eq] at hp
  exact ⟨w, hp.1.1, hp.1.2, hp.2, swap_slots_apart hw⟩

/-! ## Overflow -/

/-- Process 0 alone with one frame and room for three pages on the device. It has touched the first
`k` pages from `codeBase` on, whose slots are `slots`, and the page `resident` is in, if one is. -/
structure OneFrame (s : Memory) (k : Nat) (slots : SupRef → Int) (curr : Int)
    (resident : Option SupRef) : Prop where
  poolSize : s.poolSize = 1
  swapSize : s.swapSize = 24
  used : s.used 0 = resident.isSome
  pagedir : s.pagedir 0 = some (resident.toList.map fun r => ⟨codeBase + r, 0, true⟩)
  pageTable : s.pageTable 0 = List.range k
  sup : ∀ r < k, s.sup r = ⟨codeBase + r, 0, slots r⟩
  nextSup : s.nextSup = k
  frameTable : s.frameTable = resident.toList.map fun r => ⟨0, 0, r⟩
  currIndex : s.currIndex = curr
  swapLock : s.swapLock = none
  ticks : s.ticks = 0

variable {k j r : Nat} {slots : SupRef → Int} {curr : Int} {resident : Option SupRef}

/-- Where the page goes that is evicted next. -/
def nextSlot (slots : SupRef → Int) (curr : Int) (r : SupRef) : Int :=
  if slots r = -1 then curr else slots r

/-- The slots of the pages are the ones that are listed. -/
theorem OneFrame.slot (h : OneFrame s k slots curr resident) (hr : r < k) :
    s.slot r = slots r := by
  rw [Memory.slot, h.sup r hr]

/-- The victim gets its old slot, or the next. -/
theorem OneFrame.slotFor (h : OneFrame s k slots curr resident) (hr : r < k) :
    s.slotFor r = nextSlot slots curr r := by
  rw [Memory.slotFor, h.slot hr, h.currIndex]
  rfl

/-- The victim is the page in the one frame. -/
theorem OneFrame.victim (h : OneFrame s k slots curr (some r)) (hr : r < k) :
    s.victim = some ⟨0, 0, r⟩ := by
  simp [Memory.victim, h.frameTable, scanFrames, h.sup r hr]

/-- The entries of the table are the pages of the code, in order. -/
theorem OneFrame.findPage (h : OneFrame s k slots curr resident) (j : Nat) :
    s.findPage 0 (codeBase + j) = if j < k then some j else none := by
  have hfold : ∀ m ≤ k, (List.range m).foldl (fun found r =>
      if (s.sup r).uservaddr = codeBase + j then some r else found) none =
      if j < m then some j else none := by
    intro m
    induction m with
    | zero => exact fun _ => rfl
    | succ m ih =>
      intro hm
      rw [List.range_succ, List.foldl_append, ih (by omega), List.foldl_cons, List.foldl_nil,
        h.sup m (by omega)]
      by_cases hj : j = m
      · rw [hj, if_pos rfl, if_pos (by omega)]
      · have hne : ¬ codeBase + m = codeBase + j := by
          intro he
          exact hj (Nat.add_left_cancel he).symm
        rw [if_neg hne]
        by_cases hlt : j < m
        · rw [if_pos hlt, if_pos (by omega)]
        · rw [if_neg hlt, if_neg (by omega)]
  unfold Memory.findPage
  rw [h.pageTable]
  exact hfold k (le_refl k)

/-- The page that is in is written to its slot. -/
theorem OneFrame.evict (h : OneFrame s k slots curr (some r)) (hr : r < k) (hk : k ≤ 3)
    (hlo : 0 ≤ nextSlot slots curr r) (hhi : nextSlot slots curr r + 8 ≤ 24) :
    ∃ s', evictFrame 0 s = .ok (true, s') ∧ Written s s' ⟨0, 0, r⟩ ∧
      OneFrame s' k (Function.update slots r (nextSlot slots curr r))
        (Int.bmod (curr + 8) (2 ^ 32)) none := by
  have hphys : codeBase + r < physBase := by
    show (0x8048 : Nat) + r < 0xC0000
    omega
  obtain ⟨s', hev⟩ := evictFrame_ok (p := 0) h.swapLock (h.victim hr) h.pagedir
    (by rw [h.sup r hr]; exact hphys)
    (by rw [h.slotFor hr, h.swapSize]; exact ⟨hlo, hhi⟩) h.used
  obtain ⟨v, he, hw⟩ := evictFrame_written hev
  cases (h.victim hr).symm.trans he.victim
  refine ⟨s', hev, hw, ?_⟩
  obtain ⟨hpool, hsize, hlock, hticks⟩ := hw.rest
  constructor
  case poolSize => exact hpool.trans h.poolSize
  case swapSize => exact hsize.trans h.swapSize
  case used =>
    rw [he.used]
    exact Function.update_self _ _ _
  case pagedir =>
    obtain ⟨pd, hpd, hnew⟩ := he.pagedir
    cases h.pagedir.symm.trans hpd
    rw [hnew, Function.update_self, h.sup r hr]
    simp
  case pageTable => exact (congrFun he.pageTable 0).trans h.pageTable
  case sup =>
    intro r' hr'
    have haddr := he.uservaddr r'
    have htime := hw.accessTime r'
    have hslot : (s'.sup r').blockIndex = Function.update slots r (nextSlot slots curr r) r' := by
      have hslot := hw.slot r'
      rw [h.slotFor hr, h.slot hr'] at hslot
      rw [Function.update_apply]
      exact hslot
    rw [h.sup r' hr'] at haddr htime
    cases hs : s'.sup r'
    rw [hs] at haddr htime hslot
    simp_all
  case nextSup => exact he.nextSup.trans h.nextSup
  case frameTable =>
    rw [he.frameTable, h.frameTable]
    simp
  case currIndex => rw [hw.currIndex, h.currIndex]
  case swapLock => exact hlock.trans h.swapLock
  case ticks => exact hticks.trans h.ticks

/-- The page of the pool, zeroed. -/
theorem OneFrame.palloc (h : OneFrame s k slots curr none) : pallocGetPage true s = some (0, { s with
    used := Function.update s.used 0 true
    mem := Function.update s.mem 0 (fun _ => 0) }) := by
  simp [pallocGetPage, h.poolSize, h.used, List.range_succ]

/-- A page is read back, or touched for the first time. -/
theorem OneFrame.load (h : OneFrame s k slots curr none) (hj : j ≤ k) (hk : k ≤ 2 ∨ j < k)
    (hk₃ : k ≤ 3) (hdev : j < k → 0 ≤ slots j ∧ slots j + 8 ≤ 24) :
    ∃ s₁ s', pallocGetPage true s = some (0, s₁) ∧
      faultInto 0 (codeBase + j) 0 true s₁ = .ok s' ∧ s'.swap = s.swap ∧
      (j < k → OneFrame s' k slots curr (some j) ∧
        s'.mem 0 = Content.ofSectors fun i => s.swap ((slots j).toNat + i)) ∧
      (j = k → OneFrame s' (k + 1) (Function.update slots k (-1)) curr (some k)) := by
  have hphys : codeBase + j < physBase := by
    show (0x8048 : Nat) + j < 0xC0000
    omega
  have hfind : ({ s with
      used := Function.update s.used 0 true
      mem := Function.update s.mem 0 (fun _ => 0) } : Memory).findPage 0 (codeBase + j) =
      if j < k then some j else none := (findPage_congr rfl fun _ => rfl).trans (h.findPage j)
  obtain ⟨s', hs'⟩ := faultInto_ok (f := 0) (s := { s with
    used := Function.update s.used 0 true
    mem := Function.update s.mem 0 (fun _ => 0) }) h.pagedir hphys rfl (by
      intro r hr
      rw [hfind] at hr
      split at hr
      next hlt =>
        cases hr
        refine ⟨h.swapLock, ?_⟩
        show s.onDevice (s.slot j) = true
        rw [h.slot hlt]
        simpa [Memory.onDevice, h.swapSize] using hdev hlt
      next => cases hr)
  refine ⟨_, s', h.palloc, hs', ?_⟩
  obtain ⟨pd, hpd, _, ⟨hnone, rfl⟩ | ⟨r, hr, _, rfl⟩⟩ := faultInto_eq_ok hs'
  · cases h.pagedir.symm.trans hpd
    have hnot : ¬ j < k := by
      intro hlt
      rw [hfind, if_pos hlt] at hnone
      cases hnone
    refine ⟨rfl, fun hlt => absurd hlt hnot, fun he => ?_⟩
    subst he
    have hnext : s.nextSup = j := h.nextSup
    constructor
    case poolSize => exact h.poolSize
    case swapSize => exact h.swapSize
    case used => simp [frameTableInsert, supPageTableInsert]
    case pagedir => simp [frameTableInsert, supPageTableInsert]
    case pageTable =>
      show Function.update s.pageTable 0 (s.pageTable 0 ++ [s.nextSup]) 0 = _
      rw [Function.update_self, h.pageTable, hnext, List.range_succ]
    case sup =>
      intro r hr
      show Function.update s.sup s.nextSup ⟨codeBase + j, s.ticks % 2 ^ 64, -1⟩ r = _
      rw [hnext, h.ticks]
      by_cases hrj : r = j
      · simp [hrj]
      · rw [Function.update_of_ne hrj, Function.update_of_ne hrj, h.sup r (by omega)]
    case nextSup =>
      show s.nextSup + 1 = _
      rw [hnext]
    case frameTable =>
      show s.frameTable ++ [⟨0, 0, s.nextSup⟩] = _
      rw [h.frameTable, hnext]
      rfl
    case currIndex => exact h.currIndex
    case swapLock => exact h.swapLock
    case ticks => exact h.ticks
  · cases h.pagedir.symm.trans hpd
    rw [hfind] at hr
    split at hr
    next hlt =>
      cases hr
      refine ⟨rfl, fun _ => ⟨?_, ?_⟩, fun he => absurd he (Nat.ne_of_lt hlt)⟩
      · constructor
        case poolSize => exact h.poolSize
        case swapSize => exact h.swapSize
        case used => simp [frameTableInsert]
        case pagedir => simp [frameTableInsert]
        case pageTable => exact h.pageTable
        case sup =>
          intro r hr
          show Function.update s.sup j { s.sup j with accessTime := s.ticks % 2 ^ 64 } r = _
          by_cases hrj : r = j
          · simp [hrj, h.sup j hlt, h.ticks]
          · rw [Function.update_of_ne hrj, h.sup r hr]
        case nextSup => exact h.nextSup
        case frameTable =>
          show s.frameTable ++ _ = _
          rw [h.frameTable]
          rfl
        case currIndex => exact h.currIndex
        case swapLock => exact h.swapLock
        case ticks => exact h.ticks
      · rw [← h.slot hlt]
        exact Function.update_self (f := Function.update s.mem 0 fun _ => 0) 0 _
    next => cases hr

/-- A fault on another page: the page that is in is written, and the other one brought in. -/
theorem OneFrame.fault (h : OneFrame s k slots curr (some r)) (hr : r < k) (hj : j ≤ k)
    (hk : k ≤ 2 ∨ j < k) (hk₃ : k ≤ 3) (hlo : 0 ≤ nextSlot slots curr r)
    (hhi : nextSlot slots curr r + 8 ≤ 24) (hjr : j ≠ r)
    (hdev : j < k → 0 ≤ slots j ∧ slots j + 8 ≤ 24) :
    ∃ s₁ s', pageFault 0 (codeBase + j) true s = .ok s' ∧ s'.swap = s₁.swap ∧
      Written s s₁ ⟨0, 0, r⟩ ∧
      (j < k → OneFrame s' k (Function.update slots r (nextSlot slots curr r))
        (Int.bmod (curr + 8) (2 ^ 32)) (some j) ∧
        s'.mem 0 = Content.ofSectors fun i => s₁.swap ((slots j).toNat + i)) ∧
      (j = k → OneFrame s' (k + 1) (Function.update (Function.update slots r (nextSlot slots curr r))
        k (-1)) (Int.bmod (curr + 8) (2 ^ 32)) (some k)) := by
  obtain ⟨s₁, hev, hw, h₁⟩ := h.evict hr hk₃ hlo hhi
  have hsame : Function.update slots r (nextSlot slots curr r) j = slots j :=
    Function.update_of_ne hjr _ _
  obtain ⟨s₂, s', hpool, hs', hswap, hknown, hnew⟩ := h₁.load hj hk hk₃ (by rw [hsame]; exact hdev)
  rw [hsame] at hknown
  refine ⟨s₁, s', ?_, hswap, hw, hknown, hnew⟩
  have hfull : pallocGetPage true s = none := by
    simp [pallocGetPage, h.poolSize, h.used, List.range_succ]
  unfold pageFault
  rw [hfull]
  refine bind_eq_ok.mpr ⟨_, hev, ?_⟩
  dsimp only
  rw [hpool]
  exact hs'

/-- The other one of two pages, and the slots of both. -/
def otherPage (r : Nat) : Nat := if r = 0 then 1 else 0

def twoSlots (r : Nat) : Int := if r = 0 then 0 else 8

/-- Two pages that have been written take turns in the frame. -/
theorem OneFrame.turn (h : OneFrame s 2 twoSlots curr (some r)) (hr : r < 2) :
    ∃ s', pageFault 0 (codeBase + otherPage r) true s = .ok s' ∧
      OneFrame s' 2 twoSlots (Int.bmod (curr + 8) (2 ^ 32)) (some (otherPage r)) := by
  have hslot : nextSlot twoSlots curr r = twoSlots r := by
    unfold nextSlot twoSlots
    split <;> split <;> simp_all
  have hbounds : ∀ j, 0 ≤ twoSlots j ∧ twoSlots j + 8 ≤ 24 := by
    intro j
    unfold twoSlots
    split <;> omega
  have hturn : otherPage r < 2 ∧ otherPage r ≠ r := by
    unfold otherPage
    split <;> omega
  obtain ⟨_, s', hs', _, _, hknown, _⟩ := h.fault hr (Nat.le_of_lt hturn.1) (.inr hturn.1) (by omega)
    (by rw [hslot]; exact (hbounds r).1) (by rw [hslot]; exact (hbounds r).2) hturn.2
    fun _ => hbounds _
  refine ⟨s', hs', ?_⟩
  have hsame := (hknown hturn.1).1
  rw [hslot, Function.update_eq_self] at hsame
  exact hsame

/-- The slots of pages that are not there do not matter. -/
theorem OneFrame.congr {slots' : SupRef → Int} (h : OneFrame s k slots curr resident)
    (hs : ∀ r < k, slots r = slots' r) : OneFrame s k slots' curr resident := by
  refine ⟨h.poolSize, h.swapSize, h.used, h.pagedir, h.pageTable, fun r hr => ?_, h.nextSup,
    h.frameTable, h.currIndex, h.swapLock, h.ticks⟩
  rw [h.sup r hr, hs r hr]

/-- A page fault of process 0 on the page `j` from `codeBase` on. -/
def FaultStep (s : Memory) (j : Nat) (s' : Memory) : Prop :=
  s.present 0 (codeBase + j) = false ∧ pageFault 0 (codeBase + j) true s = .ok s'

theorem OneFrame.absent (h : OneFrame s k slots curr (some r)) (hj : j ≠ r) :
    s.present 0 (codeBase + j) = false := by
  unfold Memory.present
  rw [h.pagedir]
  simp only [Option.toList_some, List.map_cons, List.map_nil, List.any_cons, List.any_nil,
    Bool.or_false, beq_eq_false_iff_ne, ne_eq]
  intro he
  exact hj (Nat.add_left_cancel he).symm

/-- From the first fault on, the two pages take turns for as long as one likes. -/
theorem OneFrame.turns (h : OneFrame s 1 (fun _ => -1) 0 (some 0)) (n : Nat) :
    ∃ s' r, r < 2 ∧ Reach FaultStep s s' ∧
      OneFrame s' 2 twoSlots (Int.bmod (8 * (n + 2 : Nat)) (2 ^ 32)) (some r) := by
  induction n with
  | zero =>
    obtain ⟨_, s₁, hs₁, _, _, _, hnew⟩ := h.fault (j := 1) (by omega) (by omega) (by omega) (by omega)
      (by decide) (by decide) (by omega) (by omega)
    obtain ⟨_, s₂, hs₂, _, _, hknown, _⟩ := (hnew rfl).fault (j := 0) (by omega) (by omega) (by omega)
      (by omega) (by decide) (by decide) (by omega) fun _ => by decide
    refine ⟨s₂, 0, by decide, .next (.next .start trivial (i := 1) ⟨h.absent (by omega), hs₁⟩) trivial
      (i := 0) ⟨(hnew rfl).absent (by omega), hs₂⟩, (hknown (by omega)).1.congr ?_⟩
    decide
  | succ n ih =>
    obtain ⟨s₁, r, hr, hreach, h₁⟩ := ih
    obtain ⟨s₂, hs₂, h₂⟩ := h₁.turn hr
    have hother : otherPage r < 2 ∧ otherPage r ≠ r := by
      unfold otherPage
      split <;> omega
    refine ⟨s₂, otherPage r, hother.1, hreach.next trivial ⟨h₁.absent hother.2, hs₂⟩, ?_⟩
    rw [Int.bmod_add_bmod] at h₂
    exact h₂

/-- A test that implies `OneFrame`, for a page that is in and has not been written. -/
def firstFaultTest (s : Memory) : Bool :=
  s.poolSize == 1 && s.swapSize == 24 && s.used 0 && s.pagedir 0 == some [⟨codeBase, 0, true⟩] &&
    s.pageTable 0 == [0] && s.sup 0 == ⟨codeBase, 0, -1⟩ && s.nextSup == 1 &&
    s.frameTable == [⟨0, 0, 0⟩] && s.currIndex == 0 && s.swapLock == none && s.ticks == 0

/-- The first fault leaves one page in the one frame. -/
theorem oneFrame_of_test (h : firstFaultTest s = true) :
    OneFrame s 1 (fun _ => -1) 0 (some 0) := by
  simp only [firstFaultTest, Bool.and_eq_true, beq_iff_eq] at h
  obtain ⟨⟨⟨⟨⟨⟨⟨⟨⟨⟨hpool, hsize⟩, hused⟩, hpd⟩, hpt⟩, hsup⟩, hnext⟩, hft⟩, hcurr⟩, hlock⟩, hticks⟩ := h
  refine ⟨hpool, hsize, hused, hpd, hpt, fun r hr => ?_, hnext, hft, hcurr, hlock, hticks⟩
  have hr₀ : r = 0 := Nat.lt_one_iff.mp hr
  rw [hr₀, hsup]
  rfl

/-- Every run can be recorded. -/
theorem Swapping.exists_reach {poolSize swapSize : Nat}
    (h : Reach (Steps step) (initial poolSize swapSize) s) :
    ∃ w, Reach (Steps swappingStep) (.start poolSize swapSize) w ∧ w.memory = s := by
  induction h with
  | start => exact ⟨_, .start, rfl⟩
  | @next s s' e _ _ hx ih =>
    obtain ⟨w, hw, rfl⟩ := ih
    exact ⟨_, hw.next trivial (i := e) (bind_eq_ok.mpr ⟨s', hx, rfl⟩), rfl⟩

/-- Faults of the one process are steps of a run. -/
theorem reach_of_faults {s₀ : Memory} (hs : Reach (Steps step) s₀ s) (h : Reach FaultStep s s') :
    Reach (Steps step) s₀ s' := by
  induction h with
  | start => exact hs
  | @next s₁ s₂ j _ _ hx ih =>
    refine ih.next trivial (i := .pageFault 0 (codeBase + j) true) ?_
    show step _ s₁ = _
    rw [step, if_pos ⟨Nat.le_add_right _ _, hx.1⟩]
    exact hx.2

/-- After `2 ^ 28` evictions `curr_index` is negative, and no slot is below it. -/
theorem slots_lost : ¬ ∀ (poolSize swapSize : Nat) (w : Swapping),
    Reach (Steps swappingStep) (.start poolSize swapSize) w → w.Apart := by
  intro hall
  obtain ⟨s, hs, htest⟩ := exists_of_replay step (fun _ _ => true)
    [.start 0, .pageFault 0 codeBase true] (initial 1 24) firstFaultTest (by decide +kernel)
  obtain ⟨s', r, _, hfaults, ht⟩ := (oneFrame_of_test htest).turns (2 ^ 28 - 2)
  obtain ⟨w, hw, rfl⟩ := Swapping.exists_reach (reach_of_faults hs.reach hfaults)
  have hslot : w.memory.slot 0 = 0 := by
    rw [ht.slot (by omega)]
    rfl
  have hbelow := ((hall 1 24 w hw).below 0 (by rw [ht.nextSup]; decide)
    (by rw [hslot]; decide)).2
  have hcurr : w.memory.currIndex = -2 ^ 31 := by
    rw [ht.currIndex]
    decide
  rw [hslot, hcurr] at hbelow
  omega

end Pintos.Vm
