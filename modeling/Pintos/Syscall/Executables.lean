import Mathlib.Data.Set.Card
import Pintos.Filesys.Histories
import Pintos.Syscall.Holding

/-!
# Running executables cannot be modified

`deny_write_cnt` of an inode is the number of live processes that run a file of it. So no write gets
through while one does, and when the last has gone writes get through again.
-/

namespace Pintos.Syscall

open Pintos.Lib Pintos.Filesys

variable {s : Files} {l : List FileRef} {extra : List InodeRef} {f : FileRef} {p : ProcRef}
  {k : Kernel} {r : InodeRef}

/-- The live process `p` has completed `load` on the inode `r`. -/
def Kernel.Runs (k : Kernel) (r : InodeRef) (p : ProcRef) : Prop :=
  ∃ f z, executable (k.proc p) = some f ∧ k.files.file f = some z ∧ z.inode = r

/-- The executables of the inode are the open files that deny writes to it. -/
theorem Holding.deniesOn_iff (h : Holding k l extra) (hf : f ∈ l) :
    k.files.deniesOn r f = true ↔ ∃ p, k.Runs r p ∧ executable (k.proc p) = some f := by
  obtain ⟨z, hz⟩ := h.balanced.file_of_mem hf
  rw [deniesOn_eq hz, Bool.and_eq_true, beq_iff_eq]
  constructor
  · rintro ⟨hr, hd⟩
    by_cases hheld : ∃ p, f ∈ held (k.proc p)
    · obtain ⟨p, hp⟩ := hheld
      have hexe := ((h.owns p).denies f hp z hz).mp hd
      exact ⟨p, ⟨f, z, hexe, hz, hr⟩, hexe⟩
    · rw [h.unheld f hf (not_exists.mp hheld) z hz] at hd
      exact absurd hd Bool.false_ne_true
  · rintro ⟨p, ⟨g, w, hg, hw, hr⟩, hexe⟩
    rw [hexe] at hg
    cases hg
    rw [hz] at hw
    cases hw
    exact ⟨hr, ((h.owns p).denies f (mem_held_of_executable hexe) z hz).mpr hexe⟩

/-- A process has its executable to itself. -/
theorem Holding.executable_inj (h : Holding k l extra) {q : ProcRef}
    (hp : executable (k.proc p) = some f) (hq : executable (k.proc q) = some f) : p = q := by
  by_contra hne
  exact h.apart p q hne f (mem_held_of_executable hp) (mem_held_of_executable hq)

/-- The processes that run the inode are as many as the files that deny writes to it. -/
theorem Holding.ncard_runs (h : Holding k l extra) (r : InodeRef) :
    Set.ncard {p | k.Runs r p} = l.countP (k.files.deniesOn r) := by
  have hcard : Set.ncard {f | f ∈ l.filter (k.files.deniesOn r)} =
      l.countP (k.files.deniesOn r) := by
    have hset : {f | f ∈ l.filter (k.files.deniesOn r)} =
        ((l.filter (k.files.deniesOn r)).toFinset : Set FileRef) := by
      ext f
      rw [List.coe_toFinset]
    rw [hset, Set.ncard_coe_finset, List.toFinset_card_of_nodup (h.balanced.nodup.filter _),
      List.countP_eq_length_filter]
  rw [← hcard]
  apply Set.ncard_congr fun p _ => (executable (k.proc p)).getD 0
  · intro p hp
    obtain ⟨f, z, hexe, -⟩ := id hp
    rw [hexe]
    have hf := (h.owns p).opened f (mem_held_of_executable hexe)
    exact List.mem_filter.mpr ⟨hf, (h.deniesOn_iff hf).mpr ⟨p, hp, hexe⟩⟩
  · intro p q hp hq heq
    obtain ⟨f, -, hexe, -⟩ := hp
    obtain ⟨g, -, hexe', -⟩ := hq
    rw [hexe, hexe'] at heq
    have hfg : f = g := heq
    exact h.executable_inj hexe (hfg ▸ hexe')
  · intro f hf
    obtain ⟨hin, hd⟩ := List.mem_filter.mp hf
    obtain ⟨p, hp, hexe⟩ := (h.deniesOn_iff hin).mp hd
    refine ⟨p, hp, ?_⟩
    rw [hexe]
    rfl

/-- In every state reached the `deny_write_cnt` of each open inode counts the processes that run it.
While there is one nothing can be written to the inode; when there is none what is written, as far
as the inode goes, is there to be read. The assertions about `deny_write_cnt` hold. -/
theorem executables_unmodified (hs : Boots s)
    (hr : Reach (Steps kernelStep) (Kernel.start s) k) :
    (∀ r ∈ k.files.openInodes,
      (k.files.inode r).denyWriteCnt = Set.ncard {p | k.Runs r p} ∧
      ((∃ p, k.Runs r p) → 0 < (k.files.inode r).denyWriteCnt ∧ ∀ buffer size offset,
        inodeWriteAt r buffer size offset k.files = (0, k.files)) ∧
      ((¬ ∃ p, k.Runs r p) → (k.files.inode r).denyWriteCnt = 0 ∧ ∀ buffer size offset, 0 ≤ offset →
        (inodeWriteAt r buffer size offset k.files).1 = reach (k.files.inode r) size offset ∧
        inodeReadAt r size offset (inodeWriteAt r buffer size offset k.files).2 =
          (List.range (reach (k.files.inode r) size offset).toNat).map buffer)) ∧
    ∀ ev, step ev k ≠ .error .denyWriteCnt := by
  obtain ⟨l, extra, h⟩ := Holding.reach hs hr
  refine ⟨fun r hopen => ?_, fun ev => h.avoids (by decide) ev⟩
  have hcount : (k.files.inode r).denyWriteCnt = Set.ncard {p | k.Runs r p} := by
    rw [h.ncard_runs, h.balanced.denied r hopen]
  have hzero : (¬ ∃ p, k.Runs r p) → (k.files.inode r).denyWriteCnt = 0 := by
    intro hnone
    have hempty : {p | k.Runs r p} = ∅ := by
      ext p
      exact ⟨fun hp => hnone ⟨p, hp⟩, fun hp => absurd hp (Set.notMem_empty p)⟩
    rw [hcount, hempty, Set.ncard_empty]
    rfl
  have hpos : (∃ p, k.Runs r p) → 0 < (k.files.inode r).denyWriteCnt := by
    rintro ⟨p, hp⟩
    obtain ⟨f, -, hexe, -⟩ := id hp
    have hf := (h.owns p).opened f (mem_held_of_executable hexe)
    have hd := (h.deniesOn_iff hf).mpr ⟨p, hp, hexe⟩
    have hone : 0 < l.countP (k.files.deniesOn r) := List.countP_pos_iff.mpr ⟨f, hf, hd⟩
    rw [h.balanced.denied r hopen]
    omega
  refine ⟨hcount, fun hsome => ⟨hpos hsome, fun buffer size offset => ?_⟩,
    fun hnone => ⟨hzero hnone, fun buffer size offset hoff => ⟨?_, ?_⟩⟩⟩
  · exact inodeWriteAt_denied fun heq => absurd (heq ▸ hpos hsome) (Int.lt_irrefl 0)
  · exact inodeWriteAt_count (hzero hnone) hoff
  · exact inodeReadAt_inodeWriteAt (hzero hnone) hoff

/-- The process runs `a`, whose inode is the third to be opened. -/
theorem executables_unmodified_running : ∃ s k, Boots s ∧
    Reach (Steps kernelStep) (Kernel.start s) k ∧ 2 ∈ k.files.openInodes ∧
    (k.files.inode 2).length = 10 ∧ Set.ncard {p | k.Runs 2 p} = 1 ∧
    ∀ buffer size offset, inodeWriteAt 2 buffer size offset k.files = (0, k.files) := by
  have hrun : (openFreeMapFile (bootFiles oneFile)).toOption.bind
      (fun x => (replay kernelStep (fun _ _ => true) [.exec 7 (some nameA) {}, .loaded 7 true]
        (Kernel.start { x.2 with freeMap := [true, true, true, true, true], pad := [] })).map fun k =>
          decide (2 ∈ k.files.openInodes ∧ (k.files.inode 2).length = 10 ∧
            (k.files.inode 2).denyWriteCnt = 1)) = some true := by
    decide +kernel
  obtain ⟨⟨f, s₀⟩, hs, hrun⟩ := Option.bind_eq_some_iff.mp hrun
  have hs' := Boots.mounted [true, true, true, true, true] [] (eq_ok_of_toOption hs)
  obtain ⟨k, hk, hp⟩ := exists_of_replay kernelStep _ _ _ _ hrun
  obtain ⟨hopen, hlen, hdeny⟩ := of_decide_eq_true hp
  obtain ⟨hcount, hdenied, -⟩ := (executables_unmodified hs' hk.reach).1 2 hopen
  have hone : Set.ncard {p | k.Runs 2 p} = 1 := by omega
  have hne : Set.ncard {p | k.Runs 2 p} ≠ 0 := by omega
  have hsome : ∃ p, k.Runs 2 p := Set.nonempty_of_ncard_ne_zero hne
  exact ⟨_, k, hs', hk.reach, hopen, hlen, hone, (hdenied hsome).2⟩

end Pintos.Syscall
