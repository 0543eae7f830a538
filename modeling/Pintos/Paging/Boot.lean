import Pintos.Paging.Mappings

/-!
# The first page directory

`paging_init` leaves `init_page_dir` without tables for user addresses (`pagingInit_initDir`), so that
the directories that are made from it map nothing.
-/

namespace Pintos.Paging

open Pintos.Lib

variable {m m' : Memory} {pd : UInt32} {dir : Nat → Option UInt32} {text : KernelText}

/-- A page of physical memory has a kernel address. -/
theorem ptov_page {n : Nat} (h : n < 2 ^ 18) : ∃ va, ptov (UInt32.ofNat (n * 4096)) = .ok va ∧
    768 ≤ (pdNo va).toNat ∧ KernelPage va := by
  have hsize : UInt32.size = 2 ^ 32 := rfl
  have hn : (UInt32.ofNat (n * 4096)).toNat = n * 4096 := UInt32.toNat_ofNat_of_lt' (by omega)
  have hbase : physBase.toNat = 0xc0000000 := rfl
  have hlt : UInt32.ofNat (n * 4096) < physBase := by
    rw [UInt32.lt_iff_toNat_lt, hn, hbase]
    omega
  have hva : (UInt32.ofNat (n * 4096) + physBase).toNat = n * 4096 + 0xc0000000 := by
    rw [UInt32.toNat_add, hn, hbase]
    omega
  refine ⟨UInt32.ofNat (n * 4096) + physBase, ?_, ?_, ⟨?_, ?_⟩⟩
  · unfold ptov
    rw [assert_ok hlt]
    rfl
  · rw [toNat_pdNo, hva]
    omega
  · rw [pgOfs_eq_zero_iff, hva]
    omega
  · rw [UInt32.le_iff_toNat_le, hva, hbase]
    omega

/-- The loop of `paging_init` adds tables for kernel addresses. -/
theorem pagingInitLoop_initDir (n : Nat) : ∀ (k : Nat) (pages : List UInt32) (pt : UInt32)
    (m : Memory) (dir : Nat → Option UInt32), k + n ≤ 2 ^ 18 →
      (∀ page ∈ pages, KernelPage page ∧ page ≠ m.initPageDir) → pt ≠ m.initPageDir →
      Directory m m.initPageDir dir → (∀ i < 768, dir i = none) →
      ∀ m', pagingInitLoop text m.initPageDir n k pages pt m = .ok m' → InitDir m' := by
  induction n with
  | zero =>
    intro k pages pt m dir _ _ _ hdir huser m' h
    cases h
    exact ⟨dir, hdir, huser⟩
  | succ n ih =>
    intro k pages pt m dir hk hpages hpt hdir huser m' h
    obtain ⟨va, hva, hhigh, hpage⟩ := ptov_page (show k < 2 ^ 18 by omega)
    -- the entry of the page, once its table is there
    have hgo : ∀ pages' pt' m₁ dir', (∀ page ∈ pages', page ∈ pages) → pt' ≠ m.initPageDir →
        m₁.initPageDir = m.initPageDir → Directory m₁ m.initPageDir dir' → (∀ i < 768, dir' i = none) →
        (do
          let e ← pteCreateKernel va (!decide (text.start ≤ va ∧ va < text.fin))
          pagingInitLoop text m.initPageDir n (k + 1) pages' pt'
            (m₁.set ⟨pt', (ptNo va).toNat⟩ e)) = .ok m' → InitDir m' := by
      intro pages' pt' m₁ dir' hsub hne hsame hdir' huser' h
      obtain ⟨e, _, h⟩ := bind_eq_ok.mp h
      rw [← hsame] at h hne hdir'
      exact ih (k + 1) pages' pt' (m₁.set ⟨pt', (ptNo va).toNat⟩ e) dir' (by omega)
        (fun page hp => ⟨(hpages page (hsub page hp)).1, hsame ▸ (hpages page (hsub page hp)).2⟩) hne
        (hdir'.congr (word_set_other hne.symm)) huser' m' h
    unfold pagingInitLoop at h
    rw [hva, bind_ok] at h
    dsimp only at h
    split at h
    next =>
      cases pages with
      | nil => cases h
      | cons page pages =>
        obtain ⟨hpage', hne⟩ := hpages page List.mem_cons_self
        dsimp only at h
        rw [pdeCreate_ok hpage'] at h
        refine hgo pages page ((m.zeroPage page).set ⟨m.initPageDir, (pdNo va).toNat⟩ (pdeOf page))
          (Function.update dir (pdNo va).toNat (some page))
          (fun _ hp => List.mem_cons_of_mem _ hp) hne rfl (hdir.add hpage' hne) (fun i hi => ?_) h
        rw [Function.update_of_ne (by omega)]
        exact huser i hi
    next => exact hgo pages pt m dir (fun _ hp => hp) hpt rfl hdir huser h

/-- `paging_init`, with memory of at most the gigabyte that kernel addresses have room for. -/
theorem pagingInit_initDir {pages : List UInt32} (hpages : ∀ page ∈ pages, KernelPage page)
    (hnodup : pages.Nodup) (hram : m.initRamPages.toNat ≤ 2 ^ 18)
    (h : pagingInit text pages m = .ok m') : InitDir m' := by
  cases pages with
  | nil => cases h
  | cons pd pages =>
    have hpd := hpages pd List.mem_cons_self
    have hnot := (List.nodup_cons.mp hnodup).1
    have hdir : Directory { m.zeroPage pd with initPageDir := pd } pd fun _ => none :=
      ⟨hpd, fun i _ _ => congrFun (Memory.word_setPage m pd fun _ => 0) i,
        fun _ _ _ h => absurd h.symm (Option.some_ne_none _),
        fun _ _ _ h => absurd h.symm (Option.some_ne_none _)⟩
    exact pagingInitLoop_initDir m.initRamPages.toNat 0 pages 0
      { m.zeroPage pd with initPageDir := pd } _ (by omega)
      (fun page hp => ⟨hpages page (List.mem_cons_of_mem _ hp), fun heq => hnot ((show page = pd from heq) ▸ hp)⟩)
      hpd.ne_zero.symm hdir (fun _ _ => rfl) m' h

end Pintos.Paging
