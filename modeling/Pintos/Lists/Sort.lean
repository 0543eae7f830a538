import Pintos.Lib.NaturalMerge
import Pintos.Lists.Ordered

/-!
# Sorting a list

Each loop of `list_sort` does on the nodes what the natural merge sort does on their sequence: runs are
found (`runLoop_eq`) and merged by splicing single elements (`WellFormed.mergeLoop`), a round over the list
is a pass (`WellFormed.passLoop`), and the passes end because each leaves fewer runs
(`WellFormed.sortLoop`). The assertions hold, so the sort ends with a sorted list (`listSort_stable`).
-/

namespace Pintos.Lists

open Pintos.Lib Pintos.Lib.Links

variable {ι : Type*} {h h' : Heap} {l : ListRef} {less : Less} {a b e x y : Nat} {xs ys zs A B C D P : List Nat}
  {fuel : Nat}

/-! ## Looking at ranges -/

/-- A range is empty if it begins where it ends. -/
theorem IsList.nodeBehind_append_eq (hl : IsList h l (P ++ (A ++ C))) :
    nodeBehind l (A ++ C) = nodeBehind l C ↔ A = [] := by
  cases A with
  | nil => exact iff_of_true rfl rfl
  | cons a A =>
    refine iff_of_false (fun heq => ?_) (List.cons_ne_nil a A)
    have ha : a = nodeBehind l C := heq
    rw [← List.append_assoc] at hl
    refine hl.front_back ?_ (ha ▸ nodeBehind_mem_back l C)
    exact List.mem_cons_of_mem _ (List.mem_append_right P List.mem_cons_self)

theorem IsList.step (hl : IsList h l (A ++ e :: B)) : IsList h l ((A ++ [e]) ++ B) := by
  rwa [List.append_assoc]

theorem sortedLoop_eq (hl : IsList h l (P ++ x :: (A ++ C))) (hA : Ascends less (x :: A)) (hf : A.length < fuel) :
    sortedLoop less (nodeBehind l C) h fuel x = .ok true := by
  induction A generalizing P x fuel with
  | nil =>
    obtain ⟨fuel, rfl⟩ := Nat.exists_eq_add_one_of_ne_zero (Nat.ne_of_gt hf)
    unfold sortedLoop
    rw [hl.listNext, bind_ok]
    exact if_neg (not_not.mpr rfl)
  | cons a A ih =>
    obtain ⟨fuel, rfl⟩ := Nat.exists_eq_add_one_of_ne_zero (Nat.ne_of_gt (Nat.zero_lt_of_lt hf))
    obtain ⟨hax, hA⟩ := List.isChain_cons_cons.mp hA
    have hprev := hl.step.listPrev
    rw [nodeBefore_concat] at hprev
    unfold sortedLoop
    rw [hl.listNext, bind_ok, if_pos (mt hl.step.nodeBehind_append_eq.mp (List.cons_ne_nil a A)), hprev, bind_ok]
    change (if less a x = true then _ else _) = _
    rw [hax, if_neg Bool.false_ne_true]
    exact ih hl.step hA (Nat.lt_of_succ_lt_succ hf)

/-- The assertions about ranges that are sorted. -/
theorem isSorted_eq (hl : IsList h l (P ++ (A ++ C))) (hA : Ascends less A) (hf : A.length < fuel) :
    isSorted (nodeBehind l (A ++ C)) (nodeBehind l C) less fuel h = .ok true := by
  unfold isSorted
  cases A with
  | nil => exact if_neg (not_not.mpr rfl)
  | cons a A =>
    rw [if_pos (mt hl.nodeBehind_append_eq.mp (List.cons_ne_nil a A))]
    exact sortedLoop_eq hl hA (Nat.lt_of_succ_lt hf)

theorem runLoop_eq (hl : IsList h l (P ++ x :: xs)) (hf : xs.length < fuel) :
    runLoop less l.tail h fuel x = .ok (nodeBehind l (runFrom less x xs).2) := by
  induction xs generalizing P x fuel with
  | nil =>
    obtain ⟨fuel, rfl⟩ := Nat.exists_eq_add_one_of_ne_zero (Nat.ne_of_gt hf)
    unfold runLoop
    rw [hl.listNext, bind_ok]
    exact if_neg (not_not.mpr rfl)
  | cons y ys ih =>
    obtain ⟨fuel, rfl⟩ := Nat.exists_eq_add_one_of_ne_zero (Nat.ne_of_gt (Nat.zero_lt_of_lt hf))
    have hprev := hl.step.listPrev
    rw [nodeBefore_concat] at hprev
    unfold runLoop runFrom
    have hne : nodeBehind l (y :: ys) ≠ l.tail := hl.step.ne_tail
    rw [hl.listNext, bind_ok, if_pos hne, hprev, bind_ok]
    change (if less y x = true then _ else _) = _
    cases hyx : less y x with
    | true =>
      rw [if_pos rfl, if_pos rfl]
    | false =>
      rw [if_neg Bool.false_ne_true, if_neg Bool.false_ne_true]
      exact ih hl.step (Nat.lt_of_succ_lt_succ hf)

theorem findEndOfRun_eq (hl : IsList h l (P ++ x :: xs)) (hf : xs.length < fuel) :
    findEndOfRun x l.tail less fuel h = .ok (nodeBehind l (runFrom less x xs).2) := by
  unfold findEndOfRun
  rw [assert_ok hl.interior.1, bind_ok, assert_ok (hl.ne_zero tail_mem), bind_ok, assert_ok hl.ne_tail, bind_ok,
    runLoop_eq hl hf]

/-! ## Merging -/

variable {ref : ι → ListRef} {xss : ι → List Nat} {i j k : ι} [DecidableEq ι]

omit [DecidableEq ι] in
theorem IsList.both_nonempty (hl : IsList h l (P ++ (a :: A ++ (b :: B ++ C)))) :
    nodeBehind l (a :: A ++ (b :: B ++ C)) ≠ nodeBehind l (b :: B ++ C) ∧
      nodeBehind l (b :: B ++ C) ≠ nodeBehind l C := by
  refine ⟨mt hl.nodeBehind_append_eq.mp (List.cons_ne_nil a A), ?_⟩
  rw [← List.append_assoc] at hl
  exact mt hl.nodeBehind_append_eq.mp (List.cons_ne_nil b B)

/-- The loop is at the elements `A` of the first run and `B` of the second. -/
theorem WellFormed.mergeLoop (hw : WellFormed ref xss h) (less : Less) (hi : xss i = P ++ (A ++ (B ++ C)))
    (hf : A.length + B.length < fuel) :
    ∃ h', mergeLoop less (nodeBehind (ref i) C) fuel (nodeBehind (ref i) (A ++ (B ++ C)))
        (nodeBehind (ref i) (B ++ C)) h = .ok h' ∧
      WellFormed ref (Function.update xss i (P ++ (mergeRuns less A B ++ C))) h' ∧
      ∀ k, k ≠ i → SameLinks h h' (nodes (ref k) (xss k)) := by
  induction A, B using mergeRuns_induction less generalizing P xss h fuel with
  | nilLeft B =>
    obtain ⟨fuel, rfl⟩ := Nat.exists_eq_add_one_of_ne_zero (Nat.ne_of_gt (Nat.zero_lt_of_lt hf))
    refine ⟨h, if_neg fun hgo => hgo.1 rfl, ?_, fun _ _ _ _ => ⟨rfl, rfl⟩⟩
    rw [mergeRuns_nil_left, ← List.nil_append (B ++ C), ← hi, Function.update_eq_self]
    exact hw
  | nilRight A =>
    obtain ⟨fuel, rfl⟩ := Nat.exists_eq_add_one_of_ne_zero (Nat.ne_of_gt (Nat.zero_lt_of_lt hf))
    refine ⟨h, if_neg fun hgo => hgo.2 rfl, ?_, fun _ _ _ _ => ⟨rfl, rfl⟩⟩
    rw [mergeRuns_nil_right, ← List.nil_append C, ← hi, Function.update_eq_self]
    exact hw
  | left a A b B hba ih =>
    obtain ⟨fuel, rfl⟩ := Nat.exists_eq_add_one_of_ne_zero (Nat.ne_of_gt (Nat.zero_lt_of_lt hf))
    have hi' : xss i = (P ++ [a]) ++ (A ++ ((b :: B) ++ C)) := by
      rw [hi, List.append_assoc]
      rfl
    have hf' : A.length + (b :: B).length < fuel := by
      rw [List.length_cons] at hf
      omega
    obtain ⟨h', hrun, hwell, hsame⟩ := ih hw hi' hf'
    refine ⟨h', ?_, ?_, hsame⟩
    · unfold Lists.mergeLoop
      rw [if_pos ((hw.list hi).both_nonempty)]
      change (if less b a = true then _ else _) = _
      rw [hba, if_neg Bool.false_ne_true]
      change listNext a h >>= _ = _
      rw [IsList.listNext (hw.list hi), bind_ok]
      exact hrun
    · rw [mergeRuns_cons_of_not_less hba]
      rwa [List.append_assoc] at hwell
  | right a A b B hba ih =>
    obtain ⟨fuel, rfl⟩ := Nat.exists_eq_add_one_of_ne_zero (Nat.ne_of_gt (Nat.zero_lt_of_lt hf))
    have hcut : xss i = (P ++ a :: A) ++ ([b] ++ (B ++ C)) := by
      rw [hi, List.append_assoc]
      rfl
    have hl₁ : IsList h (ref i) ((P ++ a :: A) ++ b :: (B ++ C)) := hw.list hcut
    have hback := hl₁.step.listPrev
    rw [nodeBefore_concat] at hback
    have hplace : Function.update xss i ((P ++ a :: A) ++ (B ++ C)) i = P ++ ((a :: A) ++ (B ++ C)) := by
      rw [Function.update_self, List.append_assoc]
    obtain ⟨h₁, hsplice, hwell₁, hsame₁⟩ := hw.splice hcut hplace
    rw [Function.update_idem] at hwell₁
    have hi₁ : Function.update xss i (P ++ ([b] ++ ((a :: A) ++ (B ++ C)))) i =
        (P ++ [b]) ++ ((a :: A) ++ (B ++ C)) := by
      rw [Function.update_self, List.append_assoc]
    have hf' : (a :: A).length + B.length < fuel := Nat.lt_of_succ_lt_succ hf
    obtain ⟨h', hrun, hwell, hsame⟩ := ih hwell₁ hi₁ hf'
    refine ⟨h', ?_, ?_, fun k hk => ?_⟩
    · unfold Lists.mergeLoop
      rw [if_pos ((hw.list hi).both_nonempty)]
      change (if less b a = true then _ else _) = _
      rw [hba, if_pos rfl]
      change listNext b h >>= _ = _
      rw [hl₁.listNext, bind_ok, hback, bind_ok]
      change listSplice (nodeBehind (ref i) (a :: A ++ (B ++ C))) (nodeBehind (ref i) ([b] ++ (B ++ C)))
        (nodeBehind (ref i) (B ++ C)) h >>= _ = _
      rw [hsplice, bind_ok]
      exact hrun
    · rw [mergeRuns_cons_of_less hba]
      rwa [Function.update_idem, List.append_assoc] at hwell
    · have hs := hsame k hk
      rw [Function.update_of_ne hk] at hs
      exact (hsame₁ k hk hk).trans hs

theorem WellFormed.inplaceMerge (hw : WellFormed ref xss h) (hi : xss i = P ++ (A ++ (B ++ C)))
    (hA : Ascends less A) (hB : Ascends less B) (hf : A.length + B.length < fuel) :
    ∃ h', inplaceMerge (nodeBehind (ref i) (A ++ (B ++ C))) (nodeBehind (ref i) (B ++ C)) (nodeBehind (ref i) C)
        less fuel h = .ok h' ∧
      WellFormed ref (Function.update xss i (P ++ (mergeRuns less A B ++ C))) h' ∧
      ∀ k, k ≠ i → SameLinks h h' (nodes (ref k) (xss k)) := by
  obtain ⟨h', hrun, hrest⟩ := hw.mergeLoop less hi hf
  refine ⟨h', ?_, hrest⟩
  have hl := hw.list hi
  have hlB : IsList h (ref i) ((P ++ A) ++ (B ++ C)) := by
    rwa [List.append_assoc]
  have hlC : IsList h (ref i) ((P ++ (A ++ B)) ++ C) := by
    rwa [List.append_assoc, List.append_assoc]
  unfold Lists.inplaceMerge
  rw [assert_ok hl.nodeBehind_ne, bind_ok, assert_ok hlB.nodeBehind_ne, bind_ok, assert_ok hlC.nodeBehind_ne, bind_ok,
    isSorted_eq hl hA (by omega), bind_ok, assert_ok rfl, bind_ok, isSorted_eq hlB hB (by omega), bind_ok,
    assert_ok rfl, bind_ok]
  exact hrun

/-! ## Passes -/

/-- A round over the list is at the elements `xs`. -/
theorem WellFormed.passLoop (hw : WellFormed ref xss h) (hi : xss i = P ++ xs) {rounds : Nat}
    (hf : (xss i).length < fuel) (cnt : Nat) (hr : xs.length < rounds) :
    ∃ h' ys n, passLoop (ref i) less fuel rounds (nodeBehind (ref i) xs) cnt h = .ok (cnt + n, h') ∧
      Pass less xs ys n ∧ WellFormed ref (Function.update xss i (P ++ ys)) h' ∧
      ∀ k, k ≠ i → SameLinks h h' (nodes (ref k) (xss k)) := by
  induction rounds generalizing P xs xss h cnt with
  | zero => exact absurd hr (Nat.not_lt_zero _)
  | succ rounds ih =>
    have hl := hw.list hi
    have hself : WellFormed ref (Function.update xss i (P ++ xs)) h := by
      rwa [← hi, Function.update_eq_self]
    unfold Lists.passLoop
    rw [hl.listEnd, bind_ok]
    cases xs with
    | nil => exact ⟨h, [], 0, if_neg (not_not.mpr rfl), .done, hself, fun _ _ _ _ => ⟨rfl, rfl⟩⟩
    | cons x xs =>
      have hx : nodeBehind (ref i) (x :: xs) ≠ (ref i).tail := hl.ne_tail
      have hlen : (xss i).length = P.length + (xs.length + 1) := by
        rw [hi, List.length_append, List.length_cons]
      have hend : findEndOfRun (nodeBehind (ref i) (x :: xs)) (ref i).tail less fuel h =
          .ok (nodeBehind (ref i) (runFrom less x xs).2) := findEndOfRun_eq hl (by omega)
      rw [List.length_cons] at hr
      rw [if_pos hx, hend, bind_ok]
      cases hbehind : (runFrom less x xs).2 with
      | nil => exact ⟨h, x :: xs, 1, if_pos rfl, .single x xs hbehind, hself, fun _ _ _ _ => ⟨rfl, rfl⟩⟩
      | cons y ys =>
        have hxs : (runFrom less x xs).1 ++ y :: ys = xs := hbehind ▸ runFrom_append less x xs
        have hys := runFrom_append less y ys
        have hxs_len := congrArg List.length hxs
        have hys_len := congrArg List.length hys
        rw [List.length_append, List.length_cons] at hxs_len
        rw [List.length_append] at hys_len
        have hi₂ : xss i = P ++ ((x :: (runFrom less x xs).1) ++ ((y :: (runFrom less y ys).1) ++
            (runFrom less y ys).2)) := by
          rw [List.cons_append, List.cons_append, hys, hxs, hi]
        have hl₂ : IsList h (ref i) ((P ++ x :: (runFrom less x xs).1) ++ y :: ys) := by
          rwa [List.append_assoc, List.cons_append, hxs]
        have hy : nodeBehind (ref i) (y :: ys) ≠ (ref i).tail := hl₂.ne_tail
        have hend₂ : findEndOfRun (nodeBehind (ref i) (y :: ys)) (ref i).tail less fuel h =
            .ok (nodeBehind (ref i) (runFrom less y ys).2) := findEndOfRun_eq hl₂ (by omega)
        have hf₂ : (x :: (runFrom less x xs).1).length + (y :: (runFrom less y ys).1).length < fuel := by
          rw [List.length_cons, List.length_cons]
          omega
        obtain ⟨h₁, hmerge, hwell₁, hsame₁⟩ := hw.inplaceMerge hi₂ (ascends_runFrom less x xs)
          (ascends_runFrom less y ys) hf₂
        have hmerged := mergeRuns_perm less (x :: (runFrom less x xs).1) (y :: (runFrom less y ys).1)
        generalize hM : mergeRuns less (x :: (runFrom less x xs).1) (y :: (runFrom less y ys).1) = M at *
        have hi₁ : Function.update xss i (P ++ (M ++ (runFrom less y ys).2)) i =
            (P ++ M) ++ (runFrom less y ys).2 := by
          rw [Function.update_self, List.append_assoc]
        have hf₁ : (Function.update xss i (P ++ (M ++ (runFrom less y ys).2)) i).length < fuel := by
          have hM_len := hmerged.length_eq
          simp only [List.length_append, List.length_cons] at hM_len
          rw [hi₁, List.length_append, List.length_append]
          omega
        obtain ⟨h', zs, n, hrun, hpass, hwell, hsame⟩ := ih hwell₁ hi₁ hf₁ (cnt + 1) (by omega)
        refine ⟨h', M ++ zs, n + 1, ?_, ?_, ?_, fun k hk => ?_⟩
        · rw [if_neg hy, hend₂, bind_ok]
          change Lists.inplaceMerge (nodeBehind (ref i) ((x :: (runFrom less x xs).1) ++ ((y :: (runFrom less y ys).1) ++
            (runFrom less y ys).2))) (nodeBehind (ref i) ((y :: (runFrom less y ys).1) ++ (runFrom less y ys).2))
            (nodeBehind (ref i) (runFrom less y ys).2) less fuel h >>= _ = _
          rw [hmerge, bind_ok, hrun, Nat.add_assoc, Nat.add_comm 1]
        · rw [← hM]
          exact .pair x xs y ys zs n hbehind hpass
        · rwa [Function.update_idem, List.append_assoc] at hwell
        · have hs := hsame k hk
          rw [Function.update_of_ne hk] at hs
          exact (hsame₁ k hk).trans hs

/-- Passes are made as long as they put out more than one run. -/
theorem WellFormed.sortLoop (hw : WellFormed ref xss h) (hless : WeakOrder less) {rounds : Nat}
    (hf : (xss i).length < fuel) (hr : runs less (xss i) < rounds) :
    ∃ h' ys, sortLoop (ref i) less fuel rounds h = .ok h' ∧ StableSort less (xss i) ys ∧
      WellFormed ref (Function.update xss i ys) h' ∧
      ∀ k, k ≠ i → SameLinks h h' (nodes (ref k) (xss k)) := by
  induction rounds generalizing xss h with
  | zero => exact absurd hr (Nat.not_lt_zero _)
  | succ rounds ih =>
    obtain ⟨h₁, ys, n, hrun, hpass, hwell₁, hsame₁⟩ := hw.passLoop (P := []) rfl hf 0 hf
    have hrearranges := hless.pass_rearranges hpass
    have hself : Function.update xss i ([] ++ ys) i = ys := Function.update_self ..
    unfold Lists.sortLoop
    rw [(hw.lists i).listBegin, bind_ok, hrun, bind_ok]
    dsimp only
    rw [Nat.zero_add]
    by_cases hn : 1 < n
    · have hlen : (Function.update xss i ([] ++ ys) i).length < fuel := by
        rw [hself, hrearranges.perm.length_eq]
        exact hf
      have hfewer : runs less (Function.update xss i ([] ++ ys) i) < rounds := by
        rw [hself]
        exact Nat.lt_of_lt_of_le (hless.pass_runs_lt hpass hn) (Nat.le_of_lt_succ hr)
      obtain ⟨h', zs, hrest, hsort, hwell, hsame⟩ := ih hwell₁ hlen hfewer
      rw [hself] at hsort
      rw [Function.update_idem] at hwell
      refine ⟨h', zs, (if_pos hn).trans hrest, ⟨hrearranges.trans hsort.toRearranges, hsort.inOrder⟩, hwell,
        fun k hk => ?_⟩
      have hs := hsame k hk
      rw [Function.update_of_ne hk] at hs
      exact (hsame₁ k hk).trans hs
    · have hone : runs less ys ≤ 1 := Nat.le_trans (hless.pass_runs_le hpass) (Nat.le_of_not_lt hn)
      exact ⟨h₁, ys, if_neg hn, ⟨hrearranges, hless.inOrder_of_runs_le_one hone⟩, hwell₁, hsame₁⟩

/-- Any list is sorted, and no assertion fails. -/
theorem listSort_stable (hw : WellFormed ref xss h) (hless : WeakOrder less) (i : ι)
    (hf : (xss i).length < fuel) :
    ∃ h' ys, listSort (ref i) less fuel h = .ok h' ∧ StableSort less (xss i) ys ∧
      WellFormed ref (Function.update xss i ys) h' ∧
      ∀ k, k ≠ i → SameLinks h h' (nodes (ref k) (xss k)) := by
  obtain ⟨h', ys, hrun, hsort, hwell, hsame⟩ := hw.sortLoop hless hf
    (Nat.lt_of_le_of_lt (runs_le_length less (xss i)) hf)
  have hl : IsList h' (ref i) ([] ++ (ys ++ [])) := by
    rw [List.nil_append, List.append_nil]
    exact hwell.list (Function.update_self ..)
  have hsorted := isSorted_eq hl (Ascends.of_inOrder hsort.inOrder) (hsort.perm.length_eq ▸ hf)
  rw [List.append_nil] at hsorted hl
  refine ⟨h', ys, ?_, hsort, hwell, hsame⟩
  unfold listSort
  rw [assert_ok ((hw.lists i).ne_zero head_mem), bind_ok, hrun, bind_ok, IsList.listBegin hl, bind_ok, hl.listEnd,
    bind_ok]
  change isSorted (nodeBehind (ref i) ys) (nodeBehind (ref i) []) less fuel h' >>= _ = _
  rw [hsorted, bind_ok, assert_ok rfl, bind_ok]

theorem listSort_stable_example : ∃ h' ys,
    listSort (exampleRef true) (fun a b => decide (a < b)) 3 exampleHeap = .ok h' ∧
      StableSort (fun a b => decide (a < b)) [12, 11] ys ∧
      WellFormed exampleRef (Function.update exampleLists true ys) h' ∧
      ∀ k, k ≠ true → SameLinks exampleHeap h' (nodes (exampleRef k) (exampleLists k)) :=
  listSort_stable wellFormed_example weakOrder_nat true (by decide)

end Pintos.Lists
