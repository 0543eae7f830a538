import Pintos.Vm.Isolation

/-!
# Eviction and page faults in full

What `evict_frame` and `page_fault` do to the device, to the entries and to the bytes in memory,
and when they get to their end.
-/

namespace Pintos.Vm

open Pintos.Lib

variable {s s₁ s' : Memory} {p : ProcRef} {u : UPage} {f : Frame}

/-! ## Eviction -/

/-- `block_index` of an entry. -/
def Memory.slot (s : Memory) (r : SupRef) : Int := (s.sup r).blockIndex

/-- Where `evict_frame` writes the page of an entry. -/
def Memory.slotFor (s : Memory) (r : SupRef) : Int :=
  if s.slot r = -1 then s.currIndex else s.slot r

/-- The device, the entries and the frames after the page of `e` is evicted. -/
structure Written (s s' : Memory) (e : FrameEntry) : Prop where
  device : 0 ≤ s.slotFor e.aux ∧ s.slotFor e.aux + 8 ≤ s.swapSize
  slot : ∀ r, s'.slot r = if r = e.aux then s.slotFor e.aux else s.slot r
  inside : ∀ i : Fin 8, s'.swap ((s.slotFor e.aux).toNat + i) = (s.mem e.frame).sector i
  outside : ∀ n : Nat, (n : Int) < s.slotFor e.aux ∨ s.slotFor e.aux + 8 ≤ n →
    s'.swap n = s.swap n
  currIndex : s'.currIndex = Int.bmod (s.currIndex + 8) (2 ^ 32)
  mem : s'.mem = Function.update s.mem e.frame fun _ => 0xcc
  accessTime : ∀ r, (s'.sup r).accessTime = (s.sup r).accessTime
  rest : s'.poolSize = s.poolSize ∧ s'.swapSize = s.swapSize ∧ s'.swapLock = s.swapLock ∧
    s'.ticks = s.ticks

theorem writeFrameToBlock_eq_ok {index : Int} (h : writeFrameToBlock f index s = .ok s') :
    (0 ≤ index ∧ index + 8 ≤ s.swapSize) ∧ s' = { s with
      swap := fun n => if h : index.toNat ≤ n ∧ n < index.toNat + 8
        then (s.mem f).sector ⟨n - index.toNat, Nat.sub_lt_left_of_lt_add h.1 h.2⟩ else s.swap n
      currIndex := Int.bmod (s.currIndex + 8) (2 ^ 32) } := by
  unfold writeFrameToBlock at h
  split at h
  next hdev =>
    cases h
    exact ⟨by simpa [Memory.onDevice] using hdev, rfl⟩
  next => cases h

theorem evictFrame_written (h : evictFrame p s = .ok (true, s')) :
    ∃ e, Evicted s s' p e ∧ Written s s' e := by
  rcases evictFrame_eq_ok h with ⟨hfalse, _⟩ | ⟨_, e, he⟩
  · cases hfalse
  refine ⟨e, he, ?_⟩
  unfold evictFrame at h
  obtain ⟨_, _, h⟩ := bind_eq_ok.mp h
  rw [he.victim] at h
  obtain ⟨s₁, h₁, h⟩ := bind_eq_ok.mp h
  obtain ⟨s₂, h₂, h⟩ := bind_eq_ok.mp h
  obtain ⟨s₃, h₃, h⟩ := bind_eq_ok.mp h
  cases h
  obtain ⟨pd, _, rfl⟩ := pagedirClearPage_eq_ok h₁
  obtain ⟨_, rfl⟩ := pallocFreePage_eq_ok h₃
  have hidx : (if (s.sup e.aux).blockIndex = -1 then s.currIndex
      else (s.sup e.aux).blockIndex) = s.slotFor e.aux := rfl
  simp only [hidx] at h₂
  obtain ⟨hdev, rfl⟩ := writeFrameToBlock_eq_ok h₂
  constructor
  case device => exact hdev
  case slot =>
    intro r
    by_cases hr : r = e.aux
    · rw [if_pos hr]
      simp [Memory.slot, hr]
    · rw [if_neg hr]
      simp [Memory.slot, hr]
  case inside =>
    intro i
    have hi : (s.slotFor e.aux).toNat ≤ (s.slotFor e.aux).toNat + i.val ∧
        (s.slotFor e.aux).toNat + i.val < (s.slotFor e.aux).toNat + 8 := by omega
    refine (dif_pos hi).trans ?_
    congr 1
    ext
    show (s.slotFor e.aux).toNat + i.val - (s.slotFor e.aux).toNat = i.val
    omega
  case outside =>
    intro n hn
    apply dif_neg
    omega
  case currIndex => rfl
  case mem => rfl
  case accessTime =>
    intro r
    by_cases hr : r = e.aux
    · simp [hr]
    · simp [hr]
  case rest => exact ⟨rfl, rfl, rfl, rfl⟩

theorem takeSwapLock_eq_ok {x : Unit} (h : takeSwapLock p s = .ok x) : s.swapLock = none := by
  unfold takeSwapLock at h
  split at h
  next hnone => exact hnone
  next => split at h <;> cases h

/-- What `evict_frame` has found when it answers: the lock free, and a user page to clear. -/
theorem evictFrame_unlocked {evicted : Bool} (h : evictFrame p s = .ok (evicted, s')) :
    s.swapLock = none ∧ ∀ v, s.victim = some v → (s.sup v.aux).uservaddr < physBase := by
  unfold evictFrame at h
  obtain ⟨_, hlock, h⟩ := bind_eq_ok.mp h
  refine ⟨takeSwapLock_eq_ok hlock, fun v hv => ?_⟩
  rw [hv] at h
  obtain ⟨s₁, h₁, _⟩ := bind_eq_ok.mp h
  unfold pagedirClearPage at h₁
  split at h₁
  next => cases h₁
  next =>
    split at h₁
    next hu => exact hu
    next => cases h₁

/-- `evict_frame` succeeds when there is a page to evict and room for it on the device. -/
theorem evictFrame_ok {v : FrameEntry} {pd : List Mapping} (hlock : s.swapLock = none)
    (hv : s.victim = some v) (hpd : s.pagedir p = some pd)
    (hu : (s.sup v.aux).uservaddr < physBase)
    (hdev : 0 ≤ s.slotFor v.aux ∧ s.slotFor v.aux + 8 ≤ s.swapSize)
    (hused : s.used v.frame = true) : ∃ s', evictFrame p s = .ok (true, s') := by
  have hlocked : takeSwapLock p s = .ok () := by
    unfold takeSwapLock
    rw [hlock]
  have hclear : pagedirClearPage p (s.sup v.aux).uservaddr s = .ok { s with
      pagedir := Function.update s.pagedir p
        (some (pd.filter (·.upage != (s.sup v.aux).uservaddr))) } := by
    unfold pagedirClearPage
    rw [hpd]
    exact if_pos hu
  have hwrite : ∀ t : Memory, t.swapSize = s.swapSize → ∃ t',
      writeFrameToBlock v.frame (s.slotFor v.aux) t = .ok t' ∧ t'.used = t.used := by
    intro t ht
    unfold writeFrameToBlock
    rw [if_pos (by simpa [Memory.onDevice, ht] using hdev)]
    exact ⟨_, rfl, rfl⟩
  unfold evictFrame
  rw [hv]
  obtain ⟨t, ht, htu⟩ := hwrite { s with
    pagedir := Function.update s.pagedir p
      (some (pd.filter (·.upage != (s.sup v.aux).uservaddr)))
    sup := Function.update s.sup v.aux { s.sup v.aux with blockIndex := s.slotFor v.aux } } rfl
  have hfree : pallocFreePage v.frame t = .ok { t with
      used := Function.update t.used v.frame false
      mem := Function.update t.mem v.frame (fun _ => 0xcc) } := by
    unfold pallocFreePage
    rw [htu]
    exact if_pos hused
  refine ⟨_, bind_eq_ok.mpr ⟨(), hlocked, bind_eq_ok.mpr ⟨_, hclear, bind_eq_ok.mpr ⟨t, ht,
    bind_eq_ok.mpr ⟨_, hfree, rfl⟩⟩⟩⟩⟩

/-! ## Page faults -/

/-- The search of the page table reads the entries' pages only. -/
theorem findPage_congr (hpt : s'.pageTable p = s.pageTable p)
    (hu : ∀ r, (s'.sup r).uservaddr = (s.sup r).uservaddr) : s'.findPage p u = s.findPage p u := by
  unfold Memory.findPage
  rw [hpt]
  simp only [hu]

/-- `page_fault` with a page in hand: a page first touched gets its entries, one that was evicted
is read back. -/
theorem faultInto_eq_ok {table : Bool} (h : faultInto p u f table s = .ok s') :
    ∃ pd, s.pagedir p = some pd ∧ (∀ g, ¬ s.Maps p u g) ∧
      ((s.findPage p u = none ∧ s' = frameTableInsert f p s.nextSup (supPageTableInsert p u (-1)
          { s with pagedir := Function.update s.pagedir p (some (⟨u, f, true⟩ :: pd)) }).2) ∨
        ∃ r, s.findPage p u = some r ∧ s.onDevice (s.slot r) = true ∧
          s' = frameTableInsert f p r { s with
            pagedir := Function.update s.pagedir p (some (⟨u, f, true⟩ :: pd))
            sup := Function.update s.sup r { s.sup r with accessTime := s.ticks % 2 ^ 64 }
            mem := Function.update s.mem f
              (Content.ofSectors fun i => s.swap ((s.slot r).toNat + i)) }) := by
  unfold faultInto at h
  obtain ⟨⟨installed, s₁⟩, h₁, h⟩ := bind_eq_ok.mp h
  rcases installPage_eq_ok h₁ with ⟨rfl, rfl⟩ | ⟨rfl, hnot, pd, hpd, rfl⟩
  · cases h
  refine ⟨pd, hpd, hnot, ?_⟩
  simp only [if_true] at h
  split at h
  next hnone =>
    cases h
    exact .inl ⟨hnone, rfl⟩
  next r hr =>
    obtain ⟨s₂, h₂, h⟩ := bind_eq_ok.mp h
    cases h
    unfold loadFrameFromBlock at h₂
    obtain ⟨_, _, h₂⟩ := bind_eq_ok.mp h₂
    have hslot : (Function.update s.sup r { s.sup r with
        accessTime := s.ticks % 2 ^ 64 } r).blockIndex = s.slot r := by simp [Memory.slot]
    dsimp only at h₂
    rw [hslot] at h₂
    split at h₂
    next hdev =>
      cases h₂
      exact .inr ⟨r, hr, hdev, rfl⟩
    next => cases h₂

theorem installPage_ok {pd : List Mapping} (f : Frame) (writable : Bool) (hpd : s.pagedir p = some pd)
    (hu : u < physBase) (hnot : pd.any (·.upage == u) = false) :
    installPage p u f writable true s = .ok (true, { s with
      pagedir := Function.update s.pagedir p (some (⟨u, f, writable⟩ :: pd)) }) := by
  simp [installPage, hpd, hu, hnot]

/-- A frame in hand becomes the page when there is a page table for it and, if the page has an
entry, the device can be read. -/
theorem faultInto_ok {pd : List Mapping} (hpd : s.pagedir p = some pd) (hu : u < physBase)
    (hnot : pd.any (·.upage == u) = false)
    (hread : ∀ r, s.findPage p u = some r → s.swapLock = none ∧ s.onDevice (s.slot r) = true) :
    ∃ s', faultInto p u f true s = .ok s' := by
  have hin := installPage_ok f true hpd hu hnot
  unfold faultInto
  cases hfind : s.findPage p u with
  | none => exact ⟨_, bind_eq_ok.mpr ⟨_, hin, rfl⟩⟩
  | some r =>
    obtain ⟨hlock, hdev⟩ := hread r hfind
    have hload : ∃ t, loadFrameFromBlock p f (s.slot r) { s with
        pagedir := Function.update s.pagedir p (some (⟨u, f, true⟩ :: pd))
        sup := Function.update s.sup r { s.sup r with accessTime := s.ticks % 2 ^ 64 } } = .ok t := by
      refine ⟨_, bind_eq_ok.mpr ⟨(), ?_, if_pos hdev⟩⟩
      unfold takeSwapLock
      rw [hlock]
    obtain ⟨t, ht⟩ := hload
    refine ⟨_, bind_eq_ok.mpr ⟨_, hin, bind_eq_ok.mpr ⟨t, ?_, rfl⟩⟩⟩
    rw [← ht]
    simp [Memory.slot]

/-- And only then. -/
theorem faultInto_ok_iff {pd : List Mapping} {table : Bool} (hpd : s.pagedir p = some pd)
    (hu : u < physBase) (hnot : pd.any (·.upage == u) = false) :
    (∃ s', faultInto p u f table s = .ok s') ↔ table = true ∧
      ∀ r, s.findPage p u = some r → s.swapLock = none ∧ s.onDevice (s.slot r) = true := by
  constructor
  · rintro ⟨s', h⟩
    have hfault := faultInto_eq_ok h
    unfold faultInto at h
    obtain ⟨x, hx, h⟩ := bind_eq_ok.mp h
    cases table with
    | false =>
      simp only [installPage, hpd, hu, hnot, if_true, Bool.false_eq_true, if_false] at hx
      cases hx
      cases h
    | true =>
      rw [installPage_ok f true hpd hu hnot] at hx
      cases hx
      refine ⟨rfl, fun r hr => ?_⟩
      obtain ⟨_, _, _, ⟨hnone, _⟩ | ⟨r', hr', hdev, _⟩⟩ := hfault
      · rw [hr] at hnone
        cases hnone
      · cases hr.symm.trans hr'
        rw [hr] at h
        obtain ⟨t, ht, _⟩ := bind_eq_ok.mp h
        obtain ⟨_, hlock, _⟩ := bind_eq_ok.mp ht
        exact ⟨takeSwapLock_eq_ok hlock, hdev⟩
  · rintro ⟨rfl, hread⟩
    exact faultInto_ok hpd hu hnot hread

end Pintos.Vm
