import Pintos.Vm.Slots

/-!
# The swap counter

`evict_frame` gives a page a slot when it is evicted for the first time, and writes to that slot
ever after; `write_frame_to_block` advances `curr_index` by eight at every write. So the counter
counts evictions, not slots. `Evicting` keeps the set of entries that have ever been evicted beside
the memory. While no entry is evicted twice the counter is eight times their number (`Counted`),
and a device with eight sectors for each page is large enough; the first eviction of an entry that
has a slot makes the counter too large, and a page evicted later gets a slot further on than it
need be, past the end of the device in the end.
-/

namespace Pintos.Vm

open Pintos.Lib

/-! ## Who has been evicted -/

/-- The memory, and beside it the entries that have ever been evicted. -/
structure Evicting where
  memory : Memory
  evicted : Finset SupRef

def evictingStep (e : Event) (w : Evicting) : Except Fault Evicting := do
  let m ← step e w.memory
  .ok { memory := m, evicted := match e.evicts w.memory with
    | some v => insert v.aux w.evicted
    | none => w.evicted }

def Evicting.start (poolSize swapSize : Nat) : Evicting where
  memory := initial poolSize swapSize
  evicted := ∅

theorem evictingStep_eq_ok {e : Event} {w w' : Evicting} (h : evictingStep e w = .ok w') :
    step e w.memory = .ok w'.memory ∧ w'.evicted = match e.evicts w.memory with
      | some v => insert v.aux w.evicted
      | none => w.evicted := by
  obtain ⟨m, hm, h⟩ := bind_eq_ok.mp h
  cases h
  exact ⟨hm, rfl⟩

/-- An event evicts a page that has no slot yet, if it evicts one. -/
def evictsFresh (s : Memory) (e : Event) : Bool :=
  match e.evicts s with
  | none => true
  | some v => s.slot v.aux == -1

/-! ## The counter -/

/-- The entries that have a slot are those that have been evicted, and the counter, an `int`,
counts them. -/
structure Counted (w : Evicting) : Prop where
  known : Known w.memory
  made : ∀ r ∈ w.evicted, r < w.memory.nextSup
  slot : ∀ r < w.memory.nextSup, w.memory.slot r ≠ -1 ↔ r ∈ w.evicted
  curr : w.memory.currIndex = Int.bmod (8 * (w.evicted.card : Nat)) (2 ^ 32)

theorem counted_start (poolSize swapSize : Nat) : Counted (.start poolSize swapSize) where
  known := (slotted_start poolSize swapSize).known
  made r hr := absurd hr (Finset.notMem_empty r)
  slot r hr := absurd hr (Nat.not_lt_zero r)
  curr := by simp [Evicting.start, initial]

/-- The slots are left alone, and nobody is evicted. -/
theorem Counted.of_kept {w w' : Evicting} (h : Counted w) (hs : SlotsKept w.memory w'.memory)
    (he : w'.evicted = w.evicted) : Counted w' := by
  constructor
  case known => exact hs.known h.known
  case made =>
    intro r hr
    rw [he] at hr
    exact Nat.lt_of_lt_of_le (h.made r hr) hs.nextSup
  case slot =>
    intro r hr
    rw [he]
    by_cases hlt : r < w.memory.nextSup
    · rw [hs.old r hlt]
      exact h.slot r hlt
    · have hnew := hs.new r (Nat.not_lt.mp hlt) hr
      constructor
      · intro hne
        exact absurd hnew hne
      · intro hm
        exact absurd (h.made r hm) hlt
  case curr => rw [hs.currIndex, he, h.curr]

/-- A page without a slot is evicted: one entry more, and eight sectors more. -/
theorem Counted.of_written {w w' : Evicting} {p : ProcRef} {v : FrameEntry} (h : Counted w)
    (he : Evicted w.memory w'.memory p v) (hw : Written w.memory w'.memory v)
    (hfresh : w.memory.slot v.aux = -1) (hin : w'.evicted = insert v.aux w.evicted) :
    Counted w' := by
  have haux : v.aux < w.memory.nextSup := h.known.bound (victim_mem he.victim)
  have hnot : v.aux ∉ w.evicted := fun hm => (h.slot v.aux haux).mpr hm hfresh
  have hself : w'.memory.slot v.aux ≠ -1 := by
    rw [hw.slot, if_pos rfl]
    have := hw.device.1
    omega
  constructor
  case known =>
    refine ⟨fun {q r} hr => ?_, fun {e} hmem => ?_⟩
    · rw [he.pageTable] at hr
      rw [he.nextSup]
      exact h.known.listed hr
    · rw [he.frameTable] at hmem
      rw [he.nextSup]
      exact h.known.bound (List.mem_of_mem_erase hmem)
  case made =>
    intro r hr
    rw [he.nextSup]
    rw [hin] at hr
    rcases Finset.mem_insert.mp hr with rfl | hr
    · exact haux
    · exact h.made r hr
  case slot =>
    intro r hr
    rw [he.nextSup] at hr
    rw [hin, Finset.mem_insert]
    by_cases hrv : r = v.aux
    · subst hrv
      exact ⟨fun _ => .inl rfl, fun _ => hself⟩
    · rw [hw.slot, if_neg hrv, h.slot r hr]
      exact ⟨.inr, fun hor => hor.resolve_left hrv⟩
  case curr =>
    rw [hw.currIndex, h.curr, hin, Finset.card_insert_of_notMem hnot, Int.bmod_add_bmod]
    congr 1

theorem Counted.of_step {e : Event} {w w' : Evicting} (h : Counted w)
    (hfresh : evictsFresh w.memory e = true) (hx : evictingStep e w = .ok w') : Counted w' := by
  obtain ⟨hx, hevicted⟩ := evictingStep_eq_ok hx
  have hstep := step_slots hx
  unfold evictsFresh at hfresh
  cases hv : e.evicts w.memory with
  | none =>
    rw [hv] at hstep hevicted
    exact h.of_kept hstep hevicted
  | some v =>
    rw [hv] at hstep hevicted hfresh
    obtain ⟨p, s₁, he, hw, hk⟩ := hstep
    have hmid : Counted { memory := s₁, evicted := w'.evicted } :=
      h.of_written he hw (beq_iff_eq.mp hfresh) hevicted
    exact hmid.of_kept hk rfl

theorem reach_counted {poolSize swapSize : Nat} {w : Evicting}
    (h : ReachWhere (Steps evictingStep) (fun w e => evictsFresh w.memory e = true)
      (.start poolSize swapSize) w) : Counted w :=
  h.invariant (counted_start poolSize swapSize) fun _ _ _ hw hok hx => hw.of_step hok hx

/-- A counter that has wrapped around is not too large. -/
theorem bmod_le (n : Nat) : Int.bmod n (2 ^ 32) ≤ n := by
  rw [Int.bmod_def]
  split <;> omega

theorem Counted.curr_le {w : Evicting} (h : Counted w) :
    w.memory.currIndex ≤ 8 * (w.evicted.card : Nat) := by
  rw [h.curr]
  exact_mod_cast bmod_le (8 * w.evicted.card)

/-- With room for one more the counter has not wrapped around. -/
theorem Counted.curr_eq {w : Evicting} (h : Counted w) (hroom : 8 * w.evicted.card < 2 ^ 31) :
    w.memory.currIndex = 8 * (w.evicted.card : Nat) := by
  rw [h.curr]
  apply Int.bmod_eq_of_le <;> omega

/-- The entries that have been evicted are some of those that have been made, and an entry without
a slot is another one. -/
theorem Counted.card_lt {w : Evicting} {r : SupRef} (h : Counted w) (hr : r < w.memory.nextSup)
    (hfresh : w.memory.slot r = -1) : w.evicted.card < w.memory.nextSup := by
  have hnot : r ∉ w.evicted := fun hm => (h.slot r hr).mpr hm hfresh
  have hsub : insert r w.evicted ⊆ Finset.range w.memory.nextSup := by
    intro x hx
    rcases Finset.mem_insert.mp hx with rfl | hx
    · exact Finset.mem_range.mpr hr
    · exact Finset.mem_range.mpr (h.made x hx)
  have := Finset.card_le_card hsub
  rw [Finset.card_insert_of_notMem hnot, Finset.card_range] at this
  omega

/-! ## Every run -/

/-- In every run in which no page is evicted that has been evicted before, at every point
`curr_index` is at most eight times the number of entries that have ever been evicted; with at most
`n` entries and eight sectors for each, the next page to be evicted is written to the device; and an
event that evicts a page for the second time makes `curr_index` too large, unless the `int`
overflows. -/
theorem swap_counter_bounded (poolSize swapSize : Nat) (w : Evicting)
    (h : ReachWhere (Steps evictingStep) (fun w e => evictsFresh w.memory e = true)
      (.start poolSize swapSize) w) :
    w.memory.currIndex ≤ 8 * (w.evicted.card : Nat) ∧
    (∀ (n : Nat) v, w.memory.nextSup ≤ n → 8 * n ≤ w.memory.swapSize → 8 * n < 2 ^ 31 →
      w.memory.victim = some v → w.memory.slot v.aux = -1 →
      ∃ s', writeFrameToBlock v.frame (w.memory.slotFor v.aux) w.memory = .ok s') ∧
    ∀ e w', evictsFresh w.memory e = false → 8 * (w.evicted.card + 1) < 2 ^ 31 →
      evictingStep e w = .ok w' → ¬ w'.memory.currIndex ≤ 8 * (w'.evicted.card : Nat) := by
  have hw := reach_counted h
  refine ⟨hw.curr_le, fun n v hn hdev hint hv hfresh => ?_, fun e w' hold hint hx => ?_⟩
  · have haux : v.aux < w.memory.nextSup := hw.known.bound (victim_mem hv)
    have hcard : w.evicted.card < n := Nat.lt_of_lt_of_le (hw.card_lt haux hfresh) hn
    have hcurr := hw.curr_eq (by omega)
    have hslot : w.memory.slotFor v.aux = w.memory.currIndex := if_pos hfresh
    unfold writeFrameToBlock
    rw [hslot, hcurr, if_pos (by simp [Memory.onDevice]; omega)]
    exact ⟨_, rfl⟩
  · obtain ⟨hx, hevicted⟩ := evictingStep_eq_ok hx
    have hstep := step_slots hx
    unfold evictsFresh at hold
    cases hv : e.evicts w.memory with
    | none =>
      rw [hv] at hold
      cases hold
    | some v =>
      rw [hv] at hstep hevicted hold
      obtain ⟨p, s₁, he, hwr, hk⟩ := hstep
      have hmem : v.aux ∈ w.evicted :=
        (hw.slot v.aux (hw.known.bound (victim_mem he.victim))).mp (by simpa using hold)
      have hcurr := hw.curr_eq (by omega)
      have hnext : Int.bmod (8 * (w.evicted.card : Nat) + 8) (2 ^ 32) =
          8 * (w.evicted.card : Nat) + 8 := by
        apply Int.bmod_eq_of_le <;> omega
      have hcard : w'.evicted = w.evicted := hevicted.trans (Finset.insert_eq_of_mem hmem)
      rw [hk.currIndex, hwr.currIndex, hcurr, hnext, hcard]
      omega

/-- Two pages take turns in one frame, once: two slots, and the counter at sixteen. -/
theorem swap_counter_sixteen : ∃ w : Evicting, w.evicted.card = 2 ∧ w.memory.currIndex = 16 ∧
    w.memory.currIndex ≤ 8 * (w.evicted.card : Nat) := by
  obtain ⟨w, hw, hp⟩ := exists_of_replay evictingStep (fun w e => evictsFresh w.memory e)
    [.start 0, .pageFault 0 0x8048 true, .pageFault 0 0x8049 true, .pageFault 0 0x8048 true]
    (.start 1 16) (fun w => w.evicted.card == 2 && w.memory.currIndex == 16) (by decide +kernel)
  simp only [Bool.and_eq_true, beq_iff_eq] at hp
  exact ⟨w, hp.1, hp.2, (swap_counter_bounded 1 16 w hw).1⟩

/-- Three pages on 24 sectors, one frame. The first two take turns once more than that, and the
third, evicted for the first time, is to be written behind the end of the device. -/
theorem swap_space_leaks :
    (¬ ∀ (poolSize swapSize : Nat) (w : Evicting),
      Reach (Steps evictingStep) (.start poolSize swapSize) w →
        w.memory.currIndex ≤ 8 * (w.evicted.card : Nat)) ∧
    ∃ s, Reach (Steps step) (initial 1 24) s ∧ s.nextSup = 3 ∧
      step (.pageFault 0 0x8048 true) s = .error .panic := by
  constructor
  · intro hall
    obtain ⟨w, hw, hp⟩ := exists_of_replay evictingStep (fun _ _ => true)
      [.start 0, .pageFault 0 0x8048 true, .pageFault 0 0x8049 true, .pageFault 0 0x8048 true,
        .pageFault 0 0x8049 true]
      (.start 1 24) (fun w => w.evicted.card == 2 && w.memory.currIndex == 24) (by decide +kernel)
    simp only [Bool.and_eq_true, beq_iff_eq] at hp
    have hle := hall 1 24 w hw.reach
    rw [hp.1, hp.2] at hle
    exact absurd hle (by decide)
  · obtain ⟨s, hs, hp⟩ := exists_of_replay step (fun _ _ => true)
      [.start 0, .pageFault 0 0x8048 true, .pageFault 0 0x8049 true, .pageFault 0 0x8048 true,
        .pageFault 0 0x8049 true, .pageFault 0 0x804A true] (initial 1 24)
      (fun s => s.nextSup == 3 && match step (.pageFault 0 0x8048 true) s with
        | .error e => decide (e = .panic)
        | .ok _ => false) (by decide +kernel)
    simp only [Bool.and_eq_true, beq_iff_eq] at hp
    refine ⟨s, hs.reach, hp.1, ?_⟩
    have hpanic := hp.2
    split at hpanic
    next e hstep => exact of_decide_eq_true hpanic ▸ hstep
    next => cases hpanic

end Pintos.Vm
