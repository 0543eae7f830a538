import Pintos.Vm.Paged

/-!
# Which page faults are served

`page_fault` from its first statement on: it takes `exception_lock`, asks its questions about the
fault in order, and then kills the process or brings the page in (`pageFault`). The question how
far the address is below the stack pointer is commented out in the source, so the stack pointer is
read and decides nothing. `kill` does not come back, and `exception_lock` is not given up on the
way: after one process has been killed every page fault waits for ever.

`Decided` is what the handler is for. `fault_decided` says when it does that.
-/

namespace Pintos.Vm

open Pintos.Lib

variable {s s₁ s₂ s' : Memory} {p : ProcRef} {u : UPage} {f : Frame} {table : Bool}

/-! ## The handler -/

/-- `PHYS_BASE`. -/
def physBaseAddr : Nat := 0xC0000000

/-- The lowest address `page_fault` will bring in. -/
def lowestAddr : Nat := 0x08048000

/-- The lowest address is that of a page. -/
theorem lowestAddr_le_iff (a : Nat) : lowestAddr ≤ a ↔ codeBase ≤ a / 4096 := by
  show 0x08048000 ≤ a ↔ (0x8048 : Nat) ≤ a / 4096
  omega

/-- And so is `PHYS_BASE`. -/
theorem physBaseAddr_le_iff (a : Nat) : physBaseAddr ≤ a ↔ physBase ≤ a / 4096 := by
  show 0xC0000000 ≤ a ↔ (0xC0000 : Nat) ≤ a / 4096
  omega

/-- What `page_fault` is told: `cr2`, the stack pointer of the process and the bits of the error
code. -/
structure PageFaultFrame where
  faultAddr : Nat
  esp : Nat
  notPresent : Bool
  write : Bool
  user : Bool
  deriving DecidableEq, Repr

/-- The user page of the fault, `pg_round_down (fault_addr)`. -/
def PageFaultFrame.upage (x : PageFaultFrame) : UPage := x.faultAddr / 4096

/-- The memory, and the value of `exception_lock`. -/
structure Machine where
  memory : Memory
  exceptionLock : Nat

/-- How a page fault ends. -/
inductive FaultEnd where
  /-- The handler returns, and the instruction is tried again. -/
  | resumed (m : Machine)
  /-- The process is in `thread_exit`, with this `exitStatus`. -/
  | exited (status : Int) (m : Machine)
  /-- The handler waits for a semaphore or a lock that will not be given up. -/
  | blocked
  | panic

/-- `exitStatus` as `init_thread` sets it; `exit` is the only other place where it is set. -/
def initialStatus : Int := -1

/-- `kill`. The code segment is the user's when the fault is. -/
def kill (x : PageFaultFrame) (m : Machine) : FaultEnd :=
  if x.user then .exited initialStatus m else .panic

/-- `page_fault`. -/
def pageFaultHandler (p : ProcRef) (x : PageFaultFrame) (table : Bool) (m : Machine) : FaultEnd :=
  if m.exceptionLock = 0 then .blocked
  else
    let m := { m with exceptionLock := m.exceptionLock - 1 }
    if x.faultAddr = 0 then kill x m
    else if physBaseAddr ≤ x.faultAddr ∧ x.user = true then kill x m
    else if x.faultAddr < lowestAddr then kill x m
    else if x.notPresent = false ∧ x.user = false then .exited initialStatus m
    else if x.notPresent = false then kill x m
    else match pageFault p x.upage table m.memory with
      | .ok s => .resumed { memory := s, exceptionLock := m.exceptionLock + 1 }
      | .error .panic => .panic
      | .error .notEnabled => .blocked

/-! ## Bringing a page in -/

/-- The page can be read from the device, if it has an entry. -/
def Memory.Readable (s : Memory) (p : ProcRef) (u : UPage) (onDevice : SupRef → Bool) : Prop :=
  ∀ r, s.findPage p u = some r → s.swapLock = none ∧ onDevice r = true

/-- A page can be brought in: there is a page table for it, and there is a free frame or a page
that can be evicted. -/
def Memory.Affords (s : Memory) (p : ProcRef) (u : UPage) (table : Bool) : Prop :=
  table = true ∧
    (((∃ f < s.poolSize, s.used f = false) ∧
        s.Readable p u fun r => s.onDevice (s.slot r)) ∨
      ((∀ f < s.poolSize, s.used f = true) ∧ s.swapLock = none ∧
        ∃ v, s.victim = some v ∧ v.frame < s.poolSize ∧ (s.sup v.aux).uservaddr < physBase ∧
          s.onDevice (s.slotFor v.aux) = true ∧
          s.Readable p u fun r => r = v.aux || s.onDevice (s.slot r)))

/-- The page is mapped, and holds what the device has for it, or zeros when it has no entry. -/
def Memory.BroughtIn (s s' : Memory) (p : ProcRef) (u : UPage) : Prop :=
  ∃ f, s'.Maps p u f ∧ (s.findPage p u = none → s'.mem f = fun _ => 0) ∧
    ∀ r, s.findPage p u = some r →
      s'.mem f = Content.ofSectors fun i => s'.swap ((s'.slot r).toNat + i)

theorem pallocGetPage_isSome_iff {zero : Bool} :
    (∃ x, pallocGetPage zero s = some x) ↔ ∃ f < s.poolSize, s.used f = false := by
  constructor
  · rintro ⟨⟨f, s₁⟩, h⟩
    exact ⟨f, pallocGetPage_inPool h, (pallocGetPage_eq_some h).1⟩
  · rintro ⟨f, hf, hused⟩
    obtain ⟨g, s₁, h⟩ := exists_pallocGetPage zero hf hused
    exact ⟨_, h⟩

theorem pallocGetPage_eq_none_iff {zero : Bool} :
    pallocGetPage zero s = none ↔ ∀ f < s.poolSize, s.used f = true := by
  have h : (¬ ∃ x, pallocGetPage zero s = some x) ↔ _ := not_congr pallocGetPage_isSome_iff
  rw [← Option.isSome_iff_exists, Bool.not_eq_true, Option.isSome_eq_false_iff,
    Option.isNone_iff_eq_none] at h
  simpa using h

/-- A frame in hand becomes the page, whatever was done to get it. -/
theorem faultInto_affords (hdir : ∃ pd, s₁.pagedir p = some pd) (hu : u < physBase)
    (hnot : s₁.present p u = false) (hfind : s₁.findPage p u = s.findPage p u) :
    (∃ s', faultInto p u f table s₁ = .ok s') ↔ table = true ∧
      ∀ r, s.findPage p u = some r → s₁.swapLock = none ∧ s₁.onDevice (s₁.slot r) = true := by
  obtain ⟨pd, hdir⟩ := hdir
  have hany : pd.any (·.upage == u) = false := by
    unfold Memory.present at hnot
    rw [hdir] at hnot
    exact hnot
  rw [faultInto_ok_iff hdir hu hany, hfind]

/-- With a free frame, `page_fault` fails only for want of a page table or of the device. -/
theorem pageFault_ok_iff_of_free (hdir : ∃ pd, s.pagedir p = some pd) (hu : u < physBase)
    (hnot : s.present p u = false) (hfree : ∃ f < s.poolSize, s.used f = false) :
    (∃ s', pageFault p u table s = .ok s') ↔
      table = true ∧ s.Readable p u fun r => s.onDevice (s.slot r) := by
  obtain ⟨⟨f, s₁⟩, h₁⟩ : ∃ x, pallocGetPage true s = some x := pallocGetPage_isSome_iff.mpr hfree
  have hinto : (∃ s', faultInto p u f table s₁ = .ok s') ↔
      table = true ∧ s.Readable p u fun r => s.onDevice (s.slot r) := by
    obtain ⟨_, rfl⟩ := pallocGetPage_eq_some h₁
    exact faultInto_affords hdir hu hnot (findPage_congr rfl fun _ => rfl)
  unfold pageFault
  rw [h₁]
  exact hinto

/-- Once the page of `v` is gone, its frame becomes the page if the device can be read; the entry
whose page is gone can be. -/
theorem faultInto_ok_iff_of_evicted {v : FrameEntry} (he : Evicted s s₁ p v) (hw : Written s s₁ v)
    (hlock : s.swapLock = none) (hu : u < physBase) (hnot : s.present p u = false)
    (h₂ : pallocGetPage true s₁ = some (f, s₂)) :
    (∃ s', faultInto p u f table s₂ = .ok s') ↔
      table = true ∧ s.Readable p u fun r => r = v.aux || s.onDevice (s.slot r) := by
  have hs₂ := (pallocGetPage_eq_some h₂).2
  obtain ⟨pd, hpd, hpd₁⟩ := he.pagedir
  have hdir₂ : s₂.pagedir p = some (pd.filter (·.upage != (s.sup v.aux).uservaddr)) := by
    rw [hs₂]
    show s₁.pagedir p = _
    rw [hpd₁, Function.update_self]
  have hnot₂ : s₂.present p u = false := by
    unfold Memory.present at hnot ⊢
    rw [hpd] at hnot
    rw [hdir₂]
    rw [List.any_eq_false] at hnot ⊢
    exact fun m hm => hnot m (List.mem_filter.mp hm).1
  have hfind₂ : s₂.findPage p u = s.findPage p u := by
    rw [hs₂]
    exact findPage_congr (congrFun he.pageTable p) he.uservaddr
  have hdev : ∀ r, s₂.onDevice (s₂.slot r) = (r = v.aux || s.onDevice (s.slot r)) := by
    intro r
    have hsize : s₂.onDevice (s₂.slot r) = s.onDevice (s₁.slot r) := by
      rw [hs₂]
      show s₁.onDevice (s₁.slot r) = _
      unfold Memory.onDevice
      rw [hw.rest.2.1]
    rw [hsize, hw.slot r]
    by_cases hr : r = v.aux
    · simpa [hr, Memory.onDevice] using hw.device
    · simp [hr]
  have hlock₂ : s₂.swapLock = none := by
    rw [hs₂]
    exact hw.rest.2.2.1.trans hlock
  rw [faultInto_affords ⟨_, hdir₂⟩ hu hnot₂ hfind₂]
  unfold Memory.Readable
  simp only [hdev, hlock, hlock₂]

/-- With nothing to evict, `evict_frame` leaves the pool as it was. -/
theorem evictFrame_false (h : evictFrame p s = .ok (false, s')) :
    s' = { s with swapLock := some p } := by
  unfold evictFrame at h
  obtain ⟨_, _, h⟩ := bind_eq_ok.mp h
  split at h
  next =>
    cases h
    rfl
  next =>
    obtain ⟨_, _, h⟩ := bind_eq_ok.mp h
    obtain ⟨_, _, h⟩ := bind_eq_ok.mp h
    obtain ⟨_, _, h⟩ := bind_eq_ok.mp h
    cases h

theorem pageFault_eq_ok_of_full (hfull : ∀ f < s.poolSize, s.used f = true)
    (h : pageFault p u table s = .ok s') : ∃ v s₁ f s₂, Evicted s s₁ p v ∧ Written s s₁ v ∧
      s.swapLock = none ∧ (s.sup v.aux).uservaddr < physBase ∧
      pallocGetPage true s₁ = some (f, s₂) ∧ faultInto p u f table s₂ = .ok s' := by
  have hnone : pallocGetPage true s = none := pallocGetPage_eq_none_iff.mpr hfull
  unfold pageFault at h
  rw [hnone] at h
  obtain ⟨⟨evicted, s₁⟩, he, h⟩ := bind_eq_ok.mp h
  obtain ⟨hlock, hphys⟩ := evictFrame_unlocked he
  dsimp only at h
  split at h
  next f s₂ h₂ =>
    cases evicted with
    | false =>
      have hnone' : pallocGetPage true s₁ = none := by
        rw [evictFrame_false he]
        exact pallocGetPage_eq_none_iff.mpr hfull
      rw [hnone'] at h₂
      cases h₂
    | true =>
      obtain ⟨v, hv, hw⟩ := evictFrame_written he
      exact ⟨v, s₁, f, s₂, hv, hw, hlock, hphys v hv.victim, h₂, h⟩
  next => cases h

/-- With no free frame, it takes a page that can be evicted as well. -/
theorem pageFault_ok_iff_of_full (hdir : ∃ pd, s.pagedir p = some pd) (hu : u < physBase)
    (hnot : s.present p u = false) (hfull : ∀ f < s.poolSize, s.used f = true) :
    (∃ s', pageFault p u table s = .ok s') ↔ table = true ∧ s.swapLock = none ∧
      ∃ v, s.victim = some v ∧ v.frame < s.poolSize ∧ (s.sup v.aux).uservaddr < physBase ∧
        s.onDevice (s.slotFor v.aux) = true ∧
        s.Readable p u fun r => r = v.aux || s.onDevice (s.slot r) := by
  constructor
  · rintro ⟨s', h⟩
    obtain ⟨v, s₁, f, s₂, he, hw, hlock, hphys, h₂, hinto⟩ := pageFault_eq_ok_of_full hfull h
    obtain ⟨htable, hread⟩ :=
      (faultInto_ok_iff_of_evicted he hw hlock hu hnot h₂).mp ⟨s', hinto⟩
    -- the only frame there is to have is the one of `v`
    have hframe : f = v.frame := by
      by_contra hne
      have hused := (pallocGetPage_eq_some h₂).1
      rw [he.used, Function.update_of_ne hne] at hused
      rw [hfull f (hw.rest.1 ▸ pallocGetPage_inPool h₂)] at hused
      cases hused
    refine ⟨htable, hlock, v, he.victim, ?_, hphys, by simpa [Memory.onDevice] using hw.device, hread⟩
    rw [← hframe, ← hw.rest.1]
    exact pallocGetPage_inPool h₂
  · rintro ⟨htable, hlock, v, hv, hframe, hphys, hdev, hread⟩
    obtain ⟨pd, hdir⟩ := hdir
    obtain ⟨s₁, he⟩ := evictFrame_ok hlock hv hdir hphys
      (by simpa [Memory.onDevice] using hdev) (hfull v.frame hframe)
    obtain ⟨v', hv', hw⟩ := evictFrame_written he
    cases hv.symm.trans hv'.victim
    obtain ⟨⟨f, s₂⟩, h₂⟩ : ∃ x, pallocGetPage true s₁ = some x := by
      rw [pallocGetPage_isSome_iff, hw.rest.1, hv'.used]
      exact ⟨v.frame, hframe, Function.update_self _ _ _⟩
    obtain ⟨s', h⟩ := (faultInto_ok_iff_of_evicted hv' hw hlock hu hnot h₂).mpr ⟨htable, hread⟩
    refine ⟨s', ?_⟩
    unfold pageFault
    rw [pallocGetPage_eq_none_iff.mpr hfull]
    refine bind_eq_ok.mpr ⟨_, he, ?_⟩
    simp only [h₂]
    exact h

/-- `page_fault` brings a page in when there is what it takes, and only then. -/
theorem pageFault_ok_iff (hdir : ∃ pd, s.pagedir p = some pd) (hu : u < physBase)
    (hnot : s.present p u = false) :
    (∃ s', pageFault p u table s = .ok s') ↔ s.Affords p u table := by
  unfold Memory.Affords
  by_cases hfree : ∃ f < s.poolSize, s.used f = false
  · have hnfull : ¬ ∀ f < s.poolSize, s.used f = true := by
      obtain ⟨f, hf, hused⟩ := hfree
      intro hfull
      rw [hfull f hf] at hused
      cases hused
    rw [pageFault_ok_iff_of_free hdir hu hnot hfree]
    simp only [hfree, hnfull, true_and, false_and, or_false]
  · have hfull : ∀ f < s.poolSize, s.used f = true := by simpa using hfree
    rw [pageFault_ok_iff_of_full hdir hu hnot hfull]
    simp only [hfree, false_and, false_or]
    constructor
    · rintro ⟨htable, hlock, hv⟩
      exact ⟨htable, hfull, hlock, hv⟩
    · rintro ⟨htable, _, hlock, hv⟩
      exact ⟨htable, hlock, hv⟩

theorem MadeRoom.findPage (h : MadeRoom p s s₁) (u : UPage) : s₁.findPage p u = s.findPage p u := by
  cases h with
  | free => rfl
  | evicted _ he =>
    rcases evictFrame_eq_ok he with ⟨_, _, hsame⟩ | ⟨_, e, hev⟩
    · exact findPage_congr (congrFun hsame.pageTable p) hsame.uservaddr
    · exact findPage_congr (congrFun hev.pageTable p) hev.uservaddr

/-- The page that `page_fault` brings in holds what it should. -/
theorem pageFault_broughtIn (h : pageFault p u table s = .ok s') : s.BroughtIn s' p u := by
  obtain ⟨s₁, f, s₂, hroom, h₂, hinto⟩ := pageFault_cases h
  have hs₂ := (pallocGetPage_eq_some h₂).2
  have hfind : s₂.findPage p u = s.findPage p u := by
    rw [hs₂]
    exact hroom.findPage u
  have hzero : s₂.mem f = fun _ => 0 := by
    rw [hs₂]
    exact Function.update_self _ _ _
  refine ⟨f, maps_of_faultInto hinto, ?_⟩
  obtain ⟨pd, _, _, ⟨hnone, rfl⟩ | ⟨r, hr, _, rfl⟩⟩ := faultInto_eq_ok hinto
  · rw [← hfind, hnone]
    exact ⟨fun _ => hzero, fun r hr => by cases hr⟩
  · rw [← hfind, hr]
    refine ⟨fun hnone => (by cases hnone), fun r' hr' => ?_⟩
    cases hr'
    refine (Function.update_self _ _ _).trans ?_
    simp [Memory.slot, frameTableInsert]

/-! ## The decision -/

/-- A user address on a page that has an entry, or at most 32 bytes below the stack pointer. -/
def PageFaultFrame.InReach (x : PageFaultFrame) (p : ProcRef) (s : Memory) : Prop :=
  (∃ r ∈ s.pageTable p, (s.sup r).uservaddr = x.upage) ∨ x.esp ≤ x.faultAddr + 32

/-- A fault on a page that the process may have. -/
def PageFaultFrame.Plausible (x : PageFaultFrame) (p : ProcRef) (s : Memory) : Prop :=
  x.faultAddr ≠ 0 ∧ x.faultAddr < physBaseAddr ∧ x.notPresent = true ∧ x.InReach p s

/-- The page is brought in if the fault is plausible, and otherwise the process is terminated, its
memory as it was. -/
def Decided (p : ProcRef) (x : PageFaultFrame) (table : Bool) (m : Machine) : Prop :=
  (x.Plausible p m.memory → ∃ m', pageFaultHandler p x table m = .resumed m' ∧
    m.memory.BroughtIn m'.memory p x.upage) ∧
  (¬ x.Plausible p m.memory → ∃ m', pageFaultHandler p x table m = .exited (-1) m' ∧
    m'.memory = m.memory)

/-- The questions `page_fault` asks about a fault in user code. -/
def PageFaultFrame.Refused (x : PageFaultFrame) : Prop :=
  x.faultAddr < lowestAddr ∨ physBaseAddr ≤ x.faultAddr ∨ x.notPresent = false

instance (x : PageFaultFrame) : Decidable x.Refused :=
  inferInstanceAs (Decidable (_ ∨ _ ∨ _))

theorem pageFaultHandler_refused {x : PageFaultFrame} {m : Machine} (huser : x.user = true)
    (hlock : 0 < m.exceptionLock) (hx : x.Refused) :
    pageFaultHandler p x table m = .exited (-1) { m with exceptionLock := m.exceptionLock - 1 } := by
  unfold pageFaultHandler kill
  rw [if_neg (by omega), huser]
  split
  next => rfl
  next =>
    split
    next => rfl
    next hkernel =>
      split
      next => rfl
      next hlow =>
        have hpresent : x.notPresent = false := by
          rcases hx with h | h | h
          · exact absurd h hlow
          · exact absurd ⟨h, rfl⟩ hkernel
          · exact h
        simp [hpresent, initialStatus]

theorem pageFaultHandler_served {x : PageFaultFrame} {m : Machine} (hlock : 0 < m.exceptionLock)
    (hx : ¬ x.Refused) : pageFaultHandler p x table m =
      match pageFault p x.upage table m.memory with
      | .ok s => .resumed { memory := s, exceptionLock := m.exceptionLock - 1 + 1 }
      | .error .panic => .panic
      | .error .notEnabled => .blocked := by
  unfold PageFaultFrame.Refused at hx
  have hzero : x.faultAddr ≠ 0 := by
    unfold lowestAddr at hx
    omega
  have hpresent : x.notPresent = true := by
    simpa using fun h => hx (.inr (.inr h))
  unfold pageFaultHandler
  rw [if_neg (by omega), if_neg hzero, if_neg (by omega), if_neg (by omega)]
  simp [hpresent]

theorem pageFaultHandler_resumed_iff {x : PageFaultFrame} {m : Machine}
    (hlock : 0 < m.exceptionLock) (hx : ¬ x.Refused) :
    (∃ m', pageFaultHandler p x table m = .resumed m' ∧
      m.memory.BroughtIn m'.memory p x.upage) ↔
      ∃ s', pageFault p x.upage table m.memory = .ok s' := by
  rw [pageFaultHandler_served hlock hx]
  constructor
  · rintro ⟨m', h, _⟩
    split at h
    next s' hs' => exact ⟨s', hs'⟩
    next => cases h
    next => cases h
  · rintro ⟨s', hs'⟩
    rw [hs']
    exact ⟨_, rfl, pageFault_broughtIn hs'⟩

/-- `page_fault` decides as it should exactly when its lock is free, the address is above the lowest
that it accepts just when the process may have the page, and a page that the process may have can be
brought in. -/
theorem fault_decided (p : ProcRef) (x : PageFaultFrame) (table : Bool) (m : Machine)
    (huser : x.user = true) (hdir : ∃ pd, m.memory.pagedir p = some pd)
    (hcpu : x.notPresent = true → x.faultAddr < physBaseAddr →
      m.memory.present p x.upage = false) :
    Decided p x table m ↔ 0 < m.exceptionLock ∧
      (x.notPresent = true → x.faultAddr ≠ 0 → x.faultAddr < physBaseAddr →
        (lowestAddr ≤ x.faultAddr ↔ x.InReach p m.memory)) ∧
      (x.Plausible p m.memory → m.memory.Affords p x.upage table) := by
  have hserved : 0 < m.exceptionLock → ¬ x.Refused → ((∃ m', pageFaultHandler p x table m =
      .resumed m' ∧ m.memory.BroughtIn m'.memory p x.upage) ↔
        m.memory.Affords p x.upage table) := by
    intro hlock hx
    rw [pageFaultHandler_resumed_iff hlock hx]
    unfold PageFaultFrame.Refused at hx
    have hphys : x.faultAddr < physBaseAddr := by omega
    have hpresent : x.notPresent = true := by simpa using fun h => hx (.inr (.inr h))
    have hu : x.upage < physBase := by
      rw [← Nat.not_le, physBaseAddr_le_iff, Nat.not_le] at hphys
      exact hphys
    exact pageFault_ok_iff hdir hu (hcpu hpresent hphys)
  constructor
  · rintro ⟨hyes, hno⟩
    have hlock : 0 < m.exceptionLock := by
      by_contra hzero
      have hblocked : pageFaultHandler p x table m = .blocked := if_pos (by omega)
      rw [hblocked] at hyes hno
      by_cases hpl : x.Plausible p m.memory
      · obtain ⟨_, h, _⟩ := hyes hpl
        cases h
      · obtain ⟨_, h, _⟩ := hno hpl
        cases h
    -- a plausible fault is not refused
    have hyes' : x.Plausible p m.memory → ¬ x.Refused := by
      intro hpl hx
      obtain ⟨_, h, _⟩ := hyes hpl
      rw [pageFaultHandler_refused huser hlock hx] at h
      cases h
    -- and one that is not plausible is
    have hno' : ¬ x.Plausible p m.memory → x.Refused := by
      intro hpl
      by_contra hx
      obtain ⟨_, h, _⟩ := hno hpl
      rw [pageFaultHandler_served hlock hx] at h
      split at h <;> cases h
    refine ⟨hlock, fun hpresent hzero hphys => ⟨fun hlow => ?_, fun hreach => ?_⟩, fun hpl => ?_⟩
    · by_contra hreach
      rcases hno' fun hpl => hreach hpl.2.2.2 with h | h | h
      · omega
      · omega
      · rw [hpresent] at h
        cases h
    · by_contra hlow
      exact hyes' ⟨hzero, hphys, hpresent, hreach⟩ (.inl (by omega))
    · exact (hserved hlock (hyes' hpl)).mp (hyes hpl)
  · rintro ⟨hlock, hagree, hafford⟩
    refine ⟨fun hpl => ?_, fun hpl => ?_⟩
    · obtain ⟨hzero, hphys, hpresent, hreach⟩ := id hpl
      have hlow := (hagree hpresent hzero hphys).mpr hreach
      apply (hserved hlock ?_).mpr (hafford hpl)
      rintro (h | h | h)
      · omega
      · omega
      · rw [hpresent] at h
        cases h
    · refine ⟨_, pageFaultHandler_refused huser hlock ?_, rfl⟩
      by_contra hx
      unfold PageFaultFrame.Refused at hx
      have hpresent : x.notPresent = true := by simpa using fun h => hx (.inr (.inr h))
      have hzero : x.faultAddr ≠ 0 := by
        unfold lowestAddr at hx
        omega
      have hphys : x.faultAddr < physBaseAddr := by omega
      exact hpl ⟨hzero, hphys, hpresent, (hagree hpresent hzero hphys).mp (by omega)⟩

/-- An instruction that pushes 32 bytes at once. -/
theorem fault_decided_pusha : Decided 0
    { faultAddr := 0xBFFFEFF0, esp := 0xBFFFF010, notPresent := true, write := true, user := true }
    true { memory := { initial 1 0 with pagedir := fun _ => some [] }, exceptionLock := 1 } :=
  (fault_decided 0 _ true _ rfl ⟨[], rfl⟩ (fun _ _ => rfl)).mpr
    ⟨by decide, fun _ _ _ => iff_of_true (by decide) (.inr (by decide)),
      fun _ => ⟨rfl, .inl ⟨⟨0, by decide, rfl⟩, fun r hr => by cases hr⟩⟩⟩

/-- A word is read 4096 bytes below the stack pointer, as in the test `pt-grow-bad`. -/
def growBad : PageFaultFrame where
  faultAddr := 0xBFFFEFE0
  esp := 0xBFFFFFE0
  notPresent := true
  write := false
  user := true

/-- A process with one page of stack is given a page of zeros for it. -/
theorem wild_pointer_served : ∃ s, Reach (Steps step) (initial 2 0) s ∧
    ¬ Decided 0 growBad true { memory := s, exceptionLock := 1 } := by
  obtain ⟨s, hs, htest⟩ := exists_of_replay step (fun _ _ => true) [.start 0, .stackPage 0 true]
    (initial 2 0) (fun s => s.pageTable 0 == [] && s.pagedir 0 == some [⟨0xBFFFF, 0, true⟩] &&
      s.poolSize == 2 && s.used 1 == false) rfl
  simp only [Bool.and_eq_true, beq_iff_eq] at htest
  obtain ⟨⟨⟨hpt, hpd⟩, hpool⟩, hused⟩ := htest
  refine ⟨s, hs.reach, fun h => ?_⟩
  have hwild : ¬ growBad.Plausible 0 s := by
    rintro ⟨_, _, _, ⟨r, hr, _⟩ | hesp⟩
    · rw [hpt] at hr
      cases hr
    · exact absurd hesp (by decide)
  obtain ⟨s', hs'⟩ : ∃ s', pageFault 0 growBad.upage true s = .ok s' := by
    refine (pageFault_ok_iff ⟨_, hpd⟩ (by decide) ?_).mpr ⟨rfl, .inl ⟨⟨1, by omega, hused⟩, ?_⟩⟩
    · unfold Memory.present
      rw [hpd]
      rfl
    · intro r hr
      unfold Memory.findPage at hr
      rw [hpt] at hr
      cases hr
  obtain ⟨_, hend, _⟩ := h.2 hwild
  rw [pageFaultHandler_served Nat.one_pos (by decide)] at hend
  simp only [hs'] at hend
  cases hend

end Pintos.Vm
