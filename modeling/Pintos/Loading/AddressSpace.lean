import Pintos.Vm.FaultDecision
import Pintos.Lib.Bytes

/-!
# The user memory of a process that is being loaded

What `load` and its helpers see of the memory of the process: its pages by their user addresses. The
kernel stores through user addresses, so a store goes through `page_fault` when the page is not
there, and ends the process or the kernel when `page_fault` does.
-/

namespace Pintos.Loading

open Pintos.Lib Pintos.Vm

/-- A page of the process. -/
structure UserPage where
  content : Content
  writable : Bool

/-- The pages that are mapped. -/
abbrev UserSpace := UPage → Option UserPage

/-- What `page_fault` brings in for a page that is not there; nothing when it fails. -/
abbrev Faults := UPage → Option Content

/-- The place of an address in its page. -/
def pgOfs (a : Nat) : Fin 4096 := ⟨a % 4096, Nat.mod_lt _ (by decide)⟩

/-- The byte at a user address. -/
def UserSpace.byte (m : UserSpace) (a : Nat) : Option UInt8 :=
  (m (a / 4096)).map (·.content (pgOfs a))

def UserPage.put (pg : UserPage) (a : Nat) (b : UInt8) : UserPage :=
  { pg with content := Function.update pg.content (pgOfs a) b }

/-- How kernel code comes to no end. -/
inductive Stop where
  /-- A failed `ASSERT`, a `PANIC`, or a page fault the kernel cannot handle. -/
  | panic
  /-- `page_fault` has terminated the process. -/
  | exited
  deriving DecidableEq, Repr

/-- A store by the kernel. Above the memory of the process there is no page to be had, and a page
that is there and read-only is a rights violation. -/
def storeByte (faults : Faults) (a : Nat) (b : UInt8) (m : UserSpace) : Except Stop UserSpace :=
  if physBaseAddr ≤ a then .error .panic
  else match m (a / 4096) with
    | some pg =>
      if pg.writable then .ok (Function.update m (a / 4096) (some (pg.put a b)))
      else .error .exited
    | none =>
      if a < lowestAddr then .error .panic
      else match faults (a / 4096) with
        | some c => .ok (Function.update m (a / 4096) (some (UserPage.put ⟨c, true⟩ a b)))
        | none => .error .panic

/-- `memset` and `memcpy`, byte after byte. -/
def store (faults : Faults) : Nat → List UInt8 → UserSpace → Except Stop UserSpace
  | _, [], m => .ok m
  | a, b :: bs, m => do
    let m ← storeByte faults a b m
    store faults ((a + 1) % 2 ^ 32) bs m

variable {faults : Faults} {m m' : UserSpace} {a x : Nat} {b v : UInt8} {bs cs : List UInt8}
  {u : UPage}

/-! ## One byte -/

/-- A store to the page succeeds. -/
def UserSpace.Storable (faults : Faults) (m : UserSpace) (u : UPage) : Prop :=
  u < physBase ∧ ((∃ pg, m u = some pg ∧ pg.writable = true) ∨
    m u = none ∧ codeBase ≤ u ∧ ∃ c, faults u = some c)

theorem storeByte_eq_ok (h : storeByte faults a b m = .ok m') :
    m.Storable faults (a / 4096) ∧ ∃ pg : UserPage, pg.writable = true ∧
      (m (a / 4096) = some pg ∨ m (a / 4096) = none) ∧
      m' = Function.update m (a / 4096) (some (pg.put a b)) := by
  unfold storeByte at h
  split at h
  next => cases h
  next hphys =>
    rw [physBaseAddr_le_iff, Nat.not_le] at hphys
    split at h
    next pg hpg =>
      split at h
      next hw =>
        cases h
        exact ⟨⟨hphys, .inl ⟨pg, hpg, hw⟩⟩, pg, hw, .inl hpg, rfl⟩
      next => cases h
    next hnone =>
      split at h
      next => cases h
      next hlow =>
        rw [Nat.not_lt, lowestAddr_le_iff] at hlow
        split at h
        next c hc =>
          cases h
          exact ⟨⟨hphys, .inr ⟨hnone, hlow, c, hc⟩⟩, ⟨c, true⟩, rfl, .inr hnone, rfl⟩
        next => cases h

theorem storeByte_ok (h : m.Storable faults (a / 4096)) (b : UInt8) :
    ∃ m', storeByte faults a b m = .ok m' := by
  obtain ⟨hphys, ⟨pg, hpg, hw⟩ | ⟨hnone, hlow, c, hc⟩⟩ := h
  all_goals
    unfold storeByte
    rw [if_neg (by rw [physBaseAddr_le_iff]; exact Nat.not_le.mpr hphys)]
  · rw [hpg]
    exact ⟨_, if_pos hw⟩
  · rw [hnone]
    dsimp only
    rw [if_neg (by rw [← Nat.not_le, lowestAddr_le_iff]; exact not_not.mpr hlow), hc]
    exact ⟨_, rfl⟩

/-- Two addresses in one page differ in their places in it. -/
theorem pgOfs_ne (hpage : x / 4096 = a / 4096) (h : x ≠ a) : pgOfs x ≠ pgOfs a := by
  intro heq
  have hval : x % 4096 = a % 4096 := congrArg Fin.val heq
  omega

theorem byte_storeByte (h : storeByte faults a b m = .ok m') : m'.byte a = some b := by
  obtain ⟨_, pg, _, _, rfl⟩ := storeByte_eq_ok h
  simp [UserSpace.byte, UserPage.put]

/-- What can be read elsewhere is as it was. -/
theorem byte_storeByte_of_ne (h : storeByte faults a b m = .ok m') (hne : x ≠ a)
    (hx : m.byte x = some v) : m'.byte x = some v := by
  obtain ⟨_, pg, _, hpg, rfl⟩ := storeByte_eq_ok h
  unfold UserSpace.byte at hx ⊢
  by_cases hpage : x / 4096 = a / 4096
  · rw [hpage] at hx ⊢
    rcases hpg with hpg | hpg
    · rw [hpg] at hx
      rw [Function.update_self]
      simpa [UserPage.put, Function.update_of_ne (pgOfs_ne hpage hne)] using hx
    · rw [hpg] at hx
      cases hx
  · rw [Function.update_of_ne hpage]
    exact hx

theorem storable_storeByte (h : storeByte faults a b m = .ok m') (u : UPage) :
    m'.Storable faults u ↔ m.Storable faults u := by
  obtain ⟨hst, pg, hw, _, rfl⟩ := storeByte_eq_ok h
  by_cases hu : u = a / 4096
  · subst hu
    refine iff_of_true ⟨hst.1, .inl ⟨_, Function.update_self _ _ _, hw⟩⟩ hst
  · unfold UserSpace.Storable
    rw [Function.update_of_ne hu]

/-! ## Many bytes -/

/-- The bytes from `a` on. -/
def UserSpace.Holds (m : UserSpace) (a : Nat) (bs : List UInt8) : Prop :=
  ∀ i (h : i < bs.length), m.byte (a + i) = some bs[i]

/-- The bytes `bs` have been stored at `a`, and the others left alone. -/
structure Stored (faults : Faults) (a : Nat) (bs : List UInt8) (m m' : UserSpace) : Prop where
  holds : m'.Holds a bs
  frame : ∀ {x v}, m.byte x = some v → x < a ∨ a + bs.length ≤ x → m'.byte x = some v
  storable : ∀ u, m'.Storable faults u ↔ m.Storable faults u

theorem store_eq_ok (ha : a + bs.length ≤ physBaseAddr) (h : store faults a bs m = .ok m') :
    Stored faults a bs m m' ∧ ∀ i < bs.length, m.Storable faults ((a + i) / 4096) := by
  induction bs generalizing a m with
  | nil =>
    cases h
    exact ⟨⟨fun i hi => absurd hi (Nat.not_lt_zero i), fun hx _ => hx, fun _ => Iff.rfl⟩,
      fun i hi => absurd hi (Nat.not_lt_zero i)⟩
  | cons b bs ih =>
    obtain ⟨m₁, h₁, h⟩ := bind_eq_ok.mp h
    rw [List.length_cons] at ha
    have hnext : (a + 1) % 2 ^ 32 = a + 1 := by
      unfold physBaseAddr at ha
      omega
    rw [hnext] at h
    obtain ⟨hs, hst⟩ := ih (by omega) h
    refine ⟨⟨fun i hi => ?_, fun hx hout => ?_, fun u => ?_⟩, fun i hi => ?_⟩
    · cases i with
      | zero => exact hs.frame (byte_storeByte h₁) (.inl (by omega))
      | succ i =>
        have hi' := hs.holds i (by simpa using hi)
        rw [show a + (i + 1) = a + 1 + i by omega]
        exact hi'
    · rw [List.length_cons] at hout
      exact hs.frame (byte_storeByte_of_ne h₁ (by omega) hx) (by omega)
    · rw [hs.storable, storable_storeByte h₁]
    · cases i with
      | zero => exact (storeByte_eq_ok h₁).1
      | succ i =>
        have hi' := hst i (by simpa using hi)
        rw [storable_storeByte h₁] at hi'
        rw [show a + (i + 1) = a + 1 + i by omega]
        exact hi'

/-- A store succeeds when each of its pages is there to be written, or can be brought in. -/
theorem store_ok (ha : a + bs.length ≤ physBaseAddr)
    (h : ∀ i < bs.length, m.Storable faults ((a + i) / 4096)) :
    ∃ m', store faults a bs m = .ok m' := by
  induction bs generalizing a m with
  | nil => exact ⟨m, rfl⟩
  | cons b bs ih =>
    rw [List.length_cons] at ha h
    obtain ⟨m₁, h₁⟩ := storeByte_ok (h 0 (by omega)) b
    have hnext : (a + 1) % 2 ^ 32 = a + 1 := by
      unfold physBaseAddr at ha
      omega
    obtain ⟨m', hm'⟩ := ih (a := a + 1) (m := m₁) (by omega) fun i hi => by
      rw [storable_storeByte h₁, show a + 1 + i = a + (i + 1) by omega]
      exact h (i + 1) (by omega)
    refine ⟨m', bind_eq_ok.mpr ⟨m₁, h₁, ?_⟩⟩
    rw [hnext]
    exact hm'

/-- What stands clear of a store stays. -/
theorem UserSpace.Holds.frame (h : m.Holds x cs) (hs : Stored faults a bs m m')
    (hout : x + cs.length ≤ a ∨ a + bs.length ≤ x) : m'.Holds x cs :=
  fun i hi => hs.frame (h i hi) (by omega)

end Pintos.Loading
