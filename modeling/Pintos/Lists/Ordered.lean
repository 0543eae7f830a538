import Pintos.Lib.WeakOrder
import Pintos.Lists.Reverse

/-!
# Ordered lists

`list_insert_ordered` puts an element behind its equals (`WellFormed.insertOrdered`), and `list_unique`
keeps the first of adjacent equals and appends the others to another list (`WellFormed.unique`).
-/

namespace Pintos.Lists

open Pintos.Lib Pintos.Lib.Links

variable {ι : Type*} {h h' : Heap} {l : ListRef} {less : Less} {a b e x : Nat} {xs ys A B : List Nat} {fuel : Nat}

/-- An element is not the tail. -/
theorem IsList.ne_tail (hl : IsList h l (A ++ e :: B)) : e ≠ l.tail := fun heq =>
  List.cons_ne_nil e B (hl.nodeBehind_eq_tail.mp heq)

/-! ## `list_insert_ordered` -/

/-- The loop stops in front of the first greater element. -/
theorem orderedLoop_eq (hl : IsList h l (A ++ B)) (hf : B.length < fuel) :
    orderedLoop l e less h fuel (nodeBehind l B) = .ok (nodeBehind l (backOf less e B)) := by
  induction B generalizing A fuel with
  | nil =>
    obtain ⟨fuel, rfl⟩ := Nat.exists_eq_add_one_of_ne_zero (Nat.ne_of_gt hf)
    unfold orderedLoop
    rw [hl.listEnd, bind_ok]
    exact if_neg (not_not.mpr rfl)
  | cons b B ih =>
    obtain ⟨fuel, rfl⟩ := Nat.exists_eq_add_one_of_ne_zero (Nat.ne_of_gt (Nat.zero_lt_of_lt hf))
    unfold orderedLoop
    rw [hl.listEnd, bind_ok]
    change (if b ≠ l.tail then if less e b = true then _ else _ else _) = _
    rw [if_pos hl.ne_tail]
    cases hb : less e b with
    | true =>
      unfold backOf
      rw [if_pos rfl, List.dropWhile_cons_of_neg (by simp [hb]), nodeBehind, List.headD_cons]
    | false =>
      unfold backOf
      rw [if_neg Bool.false_ne_true, List.dropWhile_cons_of_pos (by simp [hb])]
      change listNext b h >>= _ = _
      rw [hl.listNext, bind_ok]
      rw [← List.singleton_append, ← List.append_assoc] at hl
      exact ih hl (Nat.lt_of_succ_lt_succ hf)

variable {ref : ι → ListRef} {xss : ι → List Nat} {i j k : ι} [DecidableEq ι]

/-- `list_insert_ordered` puts the element there. -/
theorem WellFormed.insertOrdered (hw : WellFormed ref xss h) (i : ι) (less : Less) (he : e ≠ 0)
    (hout : ∀ k, e ∉ nodes (ref k) (xss k)) (hf : (xss i).length < fuel) :
    ∃ h', listInsertOrdered (ref i) e less fuel h = .ok h' ∧
      WellFormed ref (Function.update xss i (insertOrdered less e (xss i))) h' ∧
      ∀ k, k ≠ i → SameLinks h h' (nodes (ref k) (xss k)) := by
  have hl := hw.lists i
  obtain ⟨h', heq, hrest⟩ := hw.insert (frontOf_append_backOf less e (xss i)).symm he hout
  refine ⟨h', ?_, hrest⟩
  unfold listInsertOrdered
  rw [assert_ok (hl.ne_zero head_mem), bind_ok, assert_ok he, bind_ok, hl.listBegin, bind_ok,
    orderedLoop_eq (A := []) hl hf, bind_ok, heq]

/-! ## `list_unique` -/

/-- The lists with elements appended to `duplicates`, if there is such a list. -/
def addTo (duplicates : Option ι) (ds : List Nat) (xss : ι → List Nat) : ι → List Nat :=
  match duplicates with
  | none => xss
  | some j => Function.update xss j (xss j ++ ds)

variable {duplicates : Option ι} {ds ds' : List Nat}

theorem addTo_nil (duplicates : Option ι) (xss : ι → List Nat) : addTo duplicates [] xss = xss := by
  cases duplicates with
  | none => rfl
  | some j =>
    unfold addTo
    dsimp only
    rw [List.append_nil, Function.update_eq_self]

/-- Duplicates are added in order. -/
theorem addTo_addTo (duplicates : Option ι) (ds ds' : List Nat) (xss : ι → List Nat) :
    addTo duplicates ds' (addTo duplicates ds xss) = addTo duplicates (ds ++ ds') xss := by
  cases duplicates with
  | none => rfl
  | some j =>
    unfold addTo
    dsimp only
    rw [Function.update_self, Function.update_idem, List.append_assoc]

theorem addTo_apply (hi : i ∉ duplicates) (ds : List Nat) (xss : ι → List Nat) :
    addTo duplicates ds xss i = xss i := by
  cases duplicates with
  | none => rfl
  | some j =>
    have hne : i ≠ j := fun heq => hi (heq ▸ rfl)
    exact Function.update_of_ne hne ..

/-- A change of the list and of its duplicates do not disturb each other. -/
theorem update_addTo (hi : i ∉ duplicates) (ds : List Nat) (xss : ι → List Nat) :
    Function.update (addTo duplicates ds xss) i xs = addTo duplicates ds (Function.update xss i xs) := by
  cases duplicates with
  | none => rfl
  | some j =>
    have hne : j ≠ i := fun heq => hi (heq ▸ rfl)
    unfold addTo
    dsimp only
    rw [Function.update_of_ne hne, Function.update_comm hne]

/-- A duplicate goes to its list, or nowhere. -/
theorem WellFormed.keepDuplicate (hw : WellFormed ref xss h) (he : Loose ref xss h [e]) (duplicates : Option ι) :
    ∃ h', keepDuplicate (duplicates.map ref) e h = .ok h' ∧ WellFormed ref (addTo duplicates [e] xss) h' ∧
      ∀ k, k ∉ duplicates → SameLinks h h' (nodes (ref k) (xss k)) := by
  cases duplicates with
  | none => exact ⟨h, rfl, hw, fun _ _ _ _ => ⟨rfl, rfl⟩⟩
  | some j =>
    have he0 : e ≠ 0 := fun heq => he.notNull (heq ▸ List.mem_cons_self)
    obtain ⟨h', heq, hwell, hsame⟩ := hw.pushBack j he0 fun k => he.apart k e List.mem_cons_self
    exact ⟨h', heq, hwell, fun k hk => hsame k fun heq => hk (heq ▸ rfl)⟩

/-- The loop has the elements up to `x` behind it. -/
theorem WellFormed.uniqueLoop (hw : WellFormed ref xss h) (hi : xss i = A ++ x :: B) (hdup : i ∉ duplicates)
    (less : Less) (hf : B.length < fuel) :
    ∃ h', uniqueLoop (ref i) (duplicates.map ref) less fuel x h = .ok h' ∧
      WellFormed ref (addTo duplicates (uniqueFrom less x B).2
        (Function.update xss i (A ++ x :: (uniqueFrom less x B).1))) h' ∧
      ∀ k, k ≠ i → k ∉ duplicates → SameLinks h h' (nodes (ref k) (xss k)) := by
  induction B generalizing A x xss h fuel with
  | nil =>
    obtain ⟨fuel, rfl⟩ := Nat.exists_eq_add_one_of_ne_zero (Nat.ne_of_gt hf)
    have hl := hw.list hi
    refine ⟨h, ?_, ?_, fun _ _ _ _ _ => ⟨rfl, rfl⟩⟩
    · unfold Lists.uniqueLoop
      rw [hl.listNext, bind_ok, hl.listEnd, bind_ok]
      exact if_neg (not_not.mpr rfl)
    · change WellFormed ref (addTo duplicates [] (Function.update xss i (A ++ [x]))) h
      rwa [addTo_nil, ← hi, Function.update_eq_self]
  | cons y B ih =>
    obtain ⟨fuel, rfl⟩ := Nat.exists_eq_add_one_of_ne_zero (Nat.ne_of_gt (Nat.zero_lt_of_lt hf))
    have hl := hw.list hi
    have hi' : xss i = (A ++ [x]) ++ y :: B := by
      rw [hi, List.append_assoc]
      rfl
    have hstep : Lists.uniqueLoop (ref i) (duplicates.map ref) less (fuel + 1) x h =
        if equal less x y then do
          let r ← listRemove y h
          let h ← Lists.keepDuplicate (duplicates.map ref) y r.2
          Lists.uniqueLoop (ref i) (duplicates.map ref) less fuel x h
        else Lists.uniqueLoop (ref i) (duplicates.map ref) less fuel y h := by
      conv_lhs => unfold Lists.uniqueLoop
      rw [hl.listNext, bind_ok, hl.listEnd, bind_ok]
      exact if_pos (hw.list hi').ne_tail
    rw [hstep]
    unfold uniqueFrom
    cases heq : equal less x y with
    | true =>
      obtain ⟨h₁, hremove, hwell₁, hloose, hsame₁⟩ := hw.remove hi'
      obtain ⟨h₂, hkeep, hwell₂, hsame₂⟩ := hwell₁.keepDuplicate hloose duplicates
      have hi₂ : addTo duplicates [y] (Function.update xss i (A ++ [x] ++ B)) i = A ++ x :: B := by
        rw [addTo_apply hdup, Function.update_self, List.append_assoc]
        rfl
      obtain ⟨h₃, hrun, hwell₃, hsame₃⟩ := ih hwell₂ hi₂ (Nat.lt_of_succ_lt_succ hf)
      refine ⟨h₃, ?_, ?_, fun k hk hk' => ?_⟩
      · rw [if_pos rfl, hremove, bind_ok, hkeep, bind_ok, hrun]
      · rwa [update_addTo hdup, addTo_addTo, Function.update_idem] at hwell₃
      · have hs₂ := hsame₂ k hk'
        have hs₃ := hsame₃ k hk hk'
        rw [addTo_apply hk'] at hs₃
        rw [Function.update_of_ne hk] at hs₂ hs₃
        exact ((hsame₁ k hk).trans hs₂).trans hs₃
    | false =>
      obtain ⟨h', hrun, hwell', hsame'⟩ := ih hw hi' (Nat.lt_of_succ_lt_succ hf)
      refine ⟨h', ?_, ?_, hsame'⟩
      · rw [if_neg Bool.false_ne_true, hrun]
      · rwa [List.append_assoc] at hwell'

/-- `list_unique` keeps the first of each group. -/
theorem WellFormed.unique (hw : WellFormed ref xss h) (hdup : i ∉ duplicates) (less : Less)
    (hf : (xss i).length < fuel) :
    ∃ h', listUnique (ref i) (duplicates.map ref) less fuel h = .ok h' ∧
      WellFormed ref (addTo duplicates (unique less (xss i)).2 (Function.update xss i (unique less (xss i)).1)) h' ∧
      ∀ k, k ≠ i → k ∉ duplicates → SameLinks h h' (nodes (ref k) (xss k)) := by
  have hl := hw.lists i
  have hhead : (ref i).head ≠ 0 := hl.ne_zero head_mem
  cases hi : xss i with
  | nil =>
    refine ⟨h, ?_, ?_, fun _ _ _ _ _ => ⟨rfl, rfl⟩⟩
    · unfold listUnique
      rw [assert_ok hhead, bind_ok, hl.listEmpty, bind_ok, decide_eq_true hi, if_pos rfl]
    · change WellFormed ref (addTo duplicates [] (Function.update xss i [])) h
      rwa [addTo_nil, ← hi, Function.update_eq_self]
  | cons x xs =>
    have hne : xss i ≠ [] := hi ▸ List.cons_ne_nil x xs
    obtain ⟨h', hrun, hwell, hsame⟩ := hw.uniqueLoop (A := []) hi hdup less
      (Nat.lt_of_succ_lt (hi ▸ hf))
    refine ⟨h', ?_, hwell, hsame⟩
    unfold listUnique
    rw [assert_ok hhead, bind_ok, hl.listEmpty, bind_ok, decide_eq_false hne, if_neg Bool.false_ne_true,
      hl.listBegin, bind_ok, hi]
    exact hrun

/-! ## All operations -/

/-- The heap has the lists `yss`, and the links of the lists that are not touched are as they were. -/
def Leaves (ref : ι → ListRef) (xss : ι → List Nat) (h : Heap) (touched : ι → Prop) (yss : ι → List Nat)
    (h' : Heap) : Prop :=
  WellFormed ref yss h' ∧ ∀ k, ¬ touched k → SameLinks h h' (nodes (ref k) (xss k))

/-- What the operations do to the lists of a heap. A place in a list is in between two parts of it, and
the node there is the first of the second part, or the tail. -/
structure Operations (ref : ι → ListRef) (xss : ι → List Nat) (h : Heap) (less : Less) : Prop where
  insert : ∀ i A B e, xss i = A ++ B → e ≠ 0 → (∀ k, e ∉ nodes (ref k) (xss k)) →
    ∃ h', listInsert (nodeBehind (ref i) B) e h = .ok h' ∧
      Leaves ref xss h (· = i) (Function.update xss i (A ++ e :: B)) h'
  remove : ∀ i A B e, xss i = A ++ e :: B →
    ∃ h', listRemove e h = .ok (nodeBehind (ref i) B, h') ∧
      Leaves ref xss h (· = i) (Function.update xss i (A ++ B)) h'
  splice : ∀ i j A R B C D, xss i = A ++ (R ++ B) → Function.update xss i (A ++ B) j = C ++ D →
    ∃ h', listSplice (nodeBehind (ref j) D) (nodeBehind (ref i) (R ++ B)) (nodeBehind (ref i) B) h = .ok h' ∧
      Leaves ref xss h (fun k => k = i ∨ k = j)
        (Function.update (Function.update xss i (A ++ B)) j (C ++ (R ++ D))) h'
  reverse : ∀ i fuel, (xss i).length < fuel → ∃ h', listReverse (ref i) fuel h = .ok h' ∧
    Leaves ref xss h (· = i) (Function.update xss i (xss i).reverse) h'
  pushFront : ∀ i e, e ≠ 0 → (∀ k, e ∉ nodes (ref k) (xss k)) → ∃ h', listPushFront (ref i) e h = .ok h' ∧
    Leaves ref xss h (· = i) (Function.update xss i (e :: xss i)) h'
  pushBack : ∀ i e, e ≠ 0 → (∀ k, e ∉ nodes (ref k) (xss k)) → ∃ h', listPushBack (ref i) e h = .ok h' ∧
    Leaves ref xss h (· = i) (Function.update xss i (xss i ++ [e])) h'
  popFront : ∀ i e B, xss i = e :: B → ∃ h', listPopFront (ref i) h = .ok (e, h') ∧
    Leaves ref xss h (· = i) (Function.update xss i B) h'
  popBack : ∀ i e A, xss i = A ++ [e] → ∃ h', listPopBack (ref i) h = .ok (e, h') ∧
    Leaves ref xss h (· = i) (Function.update xss i A) h'
  /-- In a sorted list, all in front are not greater than the new element, and all behind are greater. -/
  insertOrdered : ∀ i e fuel, e ≠ 0 → (∀ k, e ∉ nodes (ref k) (xss k)) → (xss i).length < fuel →
    ∃ h' front back, listInsertOrdered (ref i) e less fuel h = .ok h' ∧
      Leaves ref xss h (· = i) (Function.update xss i (front ++ e :: back)) h' ∧ xss i = front ++ back ∧
      (InOrder less (xss i) → InOrder less (front ++ e :: back) ∧ (∀ a ∈ front, less e a = false) ∧
        ∀ b ∈ back, less e b = true)
  unique : ∀ i (duplicates : Option ι) fuel, i ∉ duplicates → (xss i).length < fuel →
    ∃ h' groups, listUnique (ref i) (duplicates.map ref) less fuel h = .ok h' ∧ Groups less (xss i) groups ∧
      Leaves ref xss h (fun k => k = i ∨ k ∈ duplicates)
        (addTo duplicates (groups.flatMap Prod.snd) (Function.update xss i (groups.map Prod.fst))) h'

/-- The operations on any lists of a heap that share no node. -/
theorem operations_correct {less : Less} (hw : WellFormed ref xss h) (hless : WeakOrder less) :
    Operations ref xss h less where
  insert _ _ _ _ hi he hout := hw.insert hi he hout
  remove _ _ _ _ hi := by
    obtain ⟨h', heq, hwell, -, hsame⟩ := hw.remove hi
    exact ⟨h', heq, hwell, hsame⟩
  splice _ _ _ _ _ _ _ hi hj := by
    obtain ⟨h', heq, hwell, hsame⟩ := hw.splice hi hj
    exact ⟨h', heq, hwell, fun k hk => hsame k (fun hki => hk (.inl hki)) fun hkj => hk (.inr hkj)⟩
  reverse i _ hf := hw.reverse i hf
  pushFront i _ he hout := hw.pushFront i he hout
  pushBack i _ he hout := hw.pushBack i he hout
  popFront _ _ _ hi := hw.popFront hi
  popBack _ _ _ hi := hw.popBack hi
  insertOrdered i e _ he hout hf := by
    obtain ⟨h', heq, hleaves⟩ := hw.insertOrdered i less he hout hf
    refine ⟨h', frontOf less e (xss i), backOf less e (xss i), heq, hleaves,
      (frontOf_append_backOf less e (xss i)).symm, fun hxs => ⟨?_, fun a ha => ?_, fun b hb => ?_⟩⟩
    · exact hless.inOrder_insertOrdered hxs
    · exact not_less_of_mem_frontOf ha
    · exact hless.less_of_mem_backOf hxs hb
  unique i _ _ hdup hf := by
    obtain ⟨h', heq, hwell, hsame⟩ := hw.unique hdup less hf
    obtain ⟨groups, hgroups, hkept, hleft⟩ := unique_groups less (xss i)
    rw [hkept, hleft] at hwell
    exact ⟨h', groups, heq, hgroups, hwell, fun k hk => hsame k (fun hki => hk (.inl hki)) fun hkd => hk (.inr hkd)⟩

/-- Two lists: the first has the elements 12 and 11, and the second is empty. -/
def exampleRef : Bool → ListRef
  | true => ⟨1, 2⟩
  | false => ⟨3, 4⟩

def exampleLists : Bool → List Nat
  | true => [12, 11]
  | false => []

def exampleHeap : Heap where
  prev n := if n = 12 then 1 else if n = 11 then 12 else if n = 2 then 11 else if n = 4 then 3 else 0
  next n := if n = 1 then 12 else if n = 12 then 11 else if n = 11 then 2 else if n = 3 then 4 else 0

/-- Two lists side by side. -/
theorem wellFormed_example : WellFormed exampleRef exampleLists exampleHeap where
  lists i := by
    cases i with
    | true => exact ⟨by unfold Chain Follows; decide, rfl, rfl, by decide, by decide⟩
    | false => exact ⟨by unfold Chain Follows; decide, rfl, rfl, by decide, by decide⟩
  disjoint := by decide

theorem weakOrder_nat : WeakOrder fun a b : Nat => decide (a < b) where
  irrefl a := by simp
  trans a b c := by simp only [decide_eq_true_eq]; exact Nat.lt_trans
  incomp_trans a b c := by simp only [decide_eq_true_eq]; omega

/-- The operations on the two lists. -/
theorem operations_correct_example :
    Operations exampleRef exampleLists exampleHeap fun a b => decide (a < b) :=
  operations_correct wellFormed_example weakOrder_nat

end Pintos.Lists
