import Pintos.Vm.FaultDecision
import Pintos.Vm.Exiting

/-!
# Pages that come back

The writable bit of a page and its place in memory are decided by `load_segment`, which takes any
page from `PGSIZE` up to `PHYS_BASE`. `evict_frame` forgets both, and `page_fault` decides them
again: it maps every page writable, and refuses those below `0x08048000`. So a page survives
eviction as it was only if it is one that `page_fault` would have made.
-/

namespace Pintos.Vm

open Pintos.Lib

variable {s s₁ s₂ s' : Memory} {p : ProcRef} {u : UPage} {f : Frame} {table w : Bool}

/-! ## Rights -/

/-- The writable bit of a page that is present. -/
def Memory.writableBit (s : Memory) (p : ProcRef) (u : UPage) : Option Bool :=
  (s.pagedir p).bind fun pd => (pd.find? (·.upage == u)).map (·.writable)

/-- The access finds the page, with the right to it. -/
def PageFaultFrame.Allowed (x : PageFaultFrame) (bit : Option Bool) : Prop :=
  ∃ w, bit = some w ∧ (x.write = true → w = true)

/-- An access to a page that is not there, by the process or by the kernel for it. -/
structure PageFaultFrame.Touches (x : PageFaultFrame) (u : UPage) : Prop where
  upage : x.upage = u
  notPresent : x.notPresent = true

/-- A page its owner had with the writable bit `w`, and has lost to its own `evict_frame`. -/
structure WasEvicted (poolSize swapSize : Nat) (p : ProcRef) (u : UPage) (w : Bool) (s : Memory) :
    Prop where
  /-- `load_segment` can install the page. -/
  loadable : 1 ≤ u ∧ u < physBase
  evicted : ∃ s₀ s₁ e v, Reach (Steps step) (initial poolSize swapSize) s₀ ∧
    s₀.writableBit p u = some w ∧ e.caller = some p ∧ e.evicts s₀ = some v ∧ v.owner = p ∧
    (s₀.sup v.aux).uservaddr = u ∧ step e s₀ = .ok s₁ ∧ Reach (Steps step) s₁ s
  out : s.present p u = false
  alive : ∃ pd, s.pagedir p = some pd

/-- An access that had the right to the page gets it back as it was, and one that had not does not
get the right. The page table it goes into is there from before. -/
def Preserved (p : ProcRef) (u : UPage) (w : Bool) (m : Machine) : Prop :=
  ∀ x : PageFaultFrame, x.Touches u →
    (x.Allowed (some w) → ∃ m', pageFaultHandler p x true m = .resumed m' ∧
      m'.memory.writableBit p u = some w) ∧
    (¬ x.Allowed (some w) → ∀ m', pageFaultHandler p x true m = .resumed m' →
      ¬ x.Allowed (m'.memory.writableBit p u))

/-! ## What the handler does -/

/-- A page that `page_fault` has brought in is writable. -/
theorem writableBit_of_pageFault (h : pageFault p u table s = .ok s') :
    s'.writableBit p u = some true := by
  obtain ⟨s₁, f, s₂, _, _, hinto⟩ := pageFault_cases h
  obtain ⟨pd, _, _, hs'⟩ := faultInto_eq_ok hinto
  have hpd : s'.pagedir p = some (⟨u, f, true⟩ :: pd) := by
    rcases hs' with ⟨_, rfl⟩ | ⟨r, _, _, rfl⟩
    · exact Function.update_self _ _ _
    · exact Function.update_self _ _ _
  unfold Memory.writableBit
  simp [hpd]

/-- What has gone right when the handler returns. -/
theorem pageFaultHandler_eq_resumed {x : PageFaultFrame} {m m' : Machine}
    (h : pageFaultHandler p x table m = .resumed m') :
    0 < m.exceptionLock ∧ codeBase ≤ x.upage ∧
      pageFault p x.upage table m.memory = .ok m'.memory := by
  have hkill : ∀ n, kill x n ≠ .resumed m' := by
    intro n hn
    unfold kill at hn
    split at hn <;> cases hn
  unfold pageFaultHandler at h
  split at h
  next => cases h
  next hlock =>
    dsimp only at h
    split at h
    next => exact absurd h (hkill _)
    next =>
      split at h
      next => exact absurd h (hkill _)
      next =>
        split at h
        next => exact absurd h (hkill _)
        next hlow =>
          split at h
          next => cases h
          next =>
            split at h
            next => exact absurd h (hkill _)
            next =>
              split at h
              next s' hs' =>
                cases h
                exact ⟨Nat.pos_of_ne_zero hlock, (lowestAddr_le_iff x.faultAddr).mp (Nat.not_lt.mp hlow), hs'⟩
              next => cases h
              next => cases h

/-! ## Every eviction -/

/-- What a page needs to come back as it was: a read of its first byte, which anyone with the page
may do, shows it. -/
theorem Preserved.needs {lock : Nat} (hkept : Preserved p u w { memory := s, exceptionLock := lock }) :
    w = true ∧ codeBase ≤ u ∧ 0 < lock ∧ ∃ s', pageFault p u true s = .ok s' := by
  have hu : u * 4096 / 4096 = u := Nat.mul_div_cancel u (by decide)
  obtain ⟨m', hres, hbit⟩ := (hkept { faultAddr := u * 4096, esp := 0, notPresent := true,
                                      write := false, user := true }
    ⟨hu, rfl⟩).1 ⟨w, rfl, fun hw => by cases hw⟩
  obtain ⟨hlock, hlow, hok⟩ := pageFaultHandler_eq_resumed hres
  change codeBase ≤ u * 4096 / 4096 at hlow
  change pageFault p (u * 4096 / 4096) true s = _ at hok
  rw [hu] at hlow hok
  rw [writableBit_of_pageFault hok] at hbit
  exact ⟨(Option.some.inj hbit).symm, hlow, hlock, _, hok⟩

/-- A page that was evicted by its owner keeps its mapping exactly when it is writable and not below
`0x08048000`, the lock of `page_fault` is free, and the page can be brought in. -/
theorem reloaded_as_it_was {poolSize swapSize : Nat} (h : WasEvicted poolSize swapSize p u w s)
    (lock : Nat) : Preserved p u w { memory := s, exceptionLock := lock } ↔
      w = true ∧ codeBase ≤ u ∧ 0 < lock ∧ s.Affords p u true := by
  obtain ⟨_, hphys⟩ := h.loadable
  have hafford : _ ↔ s.Affords p u true := pageFault_ok_iff h.alive hphys h.out
  constructor
  · intro hkept
    obtain ⟨hw, hlow, hlock, hok⟩ := hkept.needs
    exact ⟨hw, hlow, hlock, hafford.mp hok⟩
  · rintro ⟨rfl, hlow, hlock, hroom⟩ x hx
    refine ⟨fun _ => ?_, fun hnot => absurd ⟨true, rfl, fun _ => rfl⟩ hnot⟩
    obtain ⟨s', hs'⟩ := hafford.mpr hroom
    have hserved : ¬ x.Refused := by
      have hu : x.faultAddr / 4096 = u := hx.upage
      rintro (hr | hr | hr)
      · rw [← Nat.not_le, lowestAddr_le_iff, hu] at hr
        exact hr hlow
      · rw [physBaseAddr_le_iff, hu] at hr
        exact absurd hphys (Nat.not_lt.mpr hr)
      · rw [hx.notPresent] at hr
        cases hr
    rw [pageFaultHandler_served hlock hserved, hx.upage, hs']
    exact ⟨_, rfl, writableBit_of_pageFault hs'⟩

/-! ## One frame -/

/-- A process loads its first page. -/
def loadEvents (w : Bool) : List Event := [.start 0, .loadPage 0 codeBase (some zeros) w true]

/-- The state that events lead to from the start, with one frame. -/
def oneFrameState (es : List Event) : Memory :=
  match replay step (fun _ _ => true) es (initial 1 64) with
  | some s => s
  | none => initial 1 64

/-- The page that the process touches next takes the only frame. -/
theorem oneFrame_wasEvicted (w : Bool) :
    WasEvicted 1 64 0 codeBase w (oneFrameState (loadEvents w ++ [.pageFault 0 0x8049 true])) := by
  have hload : replay step (fun _ _ => true) (loadEvents w) (initial 1 64) =
      some (oneFrameState (loadEvents w)) := rfl
  have hreach : Reach (Steps step) (initial 1 64) (oneFrameState (loadEvents w)) :=
    (reachWhere_of_replay (loadEvents w) .start hload).reach
  refine ⟨⟨by decide, by decide⟩, ?_, rfl, _, rfl⟩
  refine ⟨_, _, .pageFault 0 0x8049 true, ⟨0, 0, 0⟩, hreach, rfl, rfl, ?_, rfl, rfl, rfl, .start⟩
  rfl

theorem reloaded_as_it_was_writable : Preserved 0 codeBase true
    { memory := oneFrameState (loadEvents true ++ [.pageFault 0 0x8049 true]), exceptionLock := 1 } :=
  (reloaded_as_it_was (oneFrame_wasEvicted true) 1).mpr
    ⟨rfl, by decide, by decide, rfl, .inr ⟨by decide, rfl, ⟨0, 0, 1⟩, by decide +kernel, by decide,
      by decide, by decide, fun r hr => ⟨rfl, by cases hr; rfl⟩⟩⟩

/-- A read-only page that a process reads again after it was evicted comes back writable. -/
theorem read_only_lost : ∃ s, WasEvicted 1 64 0 codeBase false s ∧
    ¬ Preserved 0 codeBase false { memory := s, exceptionLock := 1 } := by
  refine ⟨_, oneFrame_wasEvicted false, fun h => ?_⟩
  cases h.needs.1

end Pintos.Vm
