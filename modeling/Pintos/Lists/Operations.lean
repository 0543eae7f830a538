import Pintos.Lists.Shape

/-!
# Insertion, removal and splicing

`list_insert`, `list_remove` and `list_splice` write the links of `WellFormed.cut`, of
`WellFormed.paste`, or of both, and none of their assertions fails (`listInsert_eq`, `listRemove_eq`,
`listSplice_eq`). `list_push_*` and `list_pop_*` are insertion and removal at the two ends.
-/

namespace Pintos.Lists

open Pintos.Lib Pintos.Lib.Links

variable {ι : Type*} {h h' : Heap} {l : ListRef} {a b e : Nat} {xs ys A B R : List Nat}

/-! ## Nodes that are not null -/

theorem assert_ok {c : Prop} [Decidable c] (hc : c) : assert c = .ok () := if_pos hc

theorem prevOf_ok (he : e ≠ 0) (h : Heap) : prevOf e h = .ok (h.prev e) := if_neg he

theorem nextOf_ok (he : e ≠ 0) (h : Heap) : nextOf e h = .ok (h.next e) := if_neg he

theorem setPrev_ok (he : e ≠ 0) (a : Nat) (h : Heap) :
    setPrev e a h = .ok { h with prev := Function.update h.prev e a } := if_neg he

theorem setNext_ok (he : e ≠ 0) (a : Nat) (h : Heap) :
    setNext e a h = .ok { h with next := Function.update h.next e a } := if_neg he

/-! ## Places in a list -/

/-- The node before a place of the list is there. -/
theorem IsList.nodeBefore_ne (hl : IsList h l (A ++ B)) : nodeBefore l A ≠ 0 := hl.ne_zero nodeBefore_mem

/-- The node behind a place of the list is there. -/
theorem IsList.nodeBehind_ne (hl : IsList h l (A ++ B)) : nodeBehind l B ≠ 0 := hl.ne_zero nodeBehind_mem

/-- The node behind a place points back at the node before it. -/
theorem IsList.prev_nodeBehind (hl : IsList h l (A ++ B)) : h.prev (nodeBehind l B) = nodeBefore l A :=
  hl.follows.2

/-- The node before a place points on to the node behind it. -/
theorem IsList.next_nodeBefore (hl : IsList h l (A ++ B)) : h.next (nodeBefore l A) = nodeBehind l B :=
  hl.follows.1

/-- Behind every place there is an element or the tail. -/
theorem IsList.interior_or_tail (hl : IsList h l (A ++ B)) :
    isInterior h (nodeBehind l B) ∨ isTail h (nodeBehind l B) := by
  have hprev : h.prev (nodeBehind l B) ≠ 0 := hl.prev_nodeBehind ▸ hl.nodeBefore_ne
  by_cases hnext : h.next (nodeBehind l B) = 0
  · exact .inr ⟨hl.nodeBehind_ne, hprev, hnext⟩
  · exact .inl ⟨hl.nodeBehind_ne, hprev, hnext⟩

/-- All but the head are elements or the tail. -/
theorem IsList.behind_head (hl : IsList h l xs) (hn : e ∈ xs ++ [l.tail]) : isInterior h e ∨ isTail h e := by
  rcases List.mem_append.mp hn with hn | hn
  · obtain ⟨A, B, rfl⟩ := List.append_of_mem hn
    exact hl.interior_or_tail (B := e :: B)
  · rw [← List.append_nil xs] at hl
    exact List.mem_singleton.mp hn ▸ hl.interior_or_tail

theorem nodeBefore_concat (l : ListRef) (A : List Nat) (e : Nat) : nodeBefore l (A ++ [e]) = e :=
  List.getLastD_concat

/-- An element points back at the node before it. -/
theorem IsList.prev_elem (hl : IsList h l (A ++ e :: B)) : h.prev e = nodeBefore l A := hl.prev_nodeBehind

/-- An element points on to the node behind it. -/
theorem IsList.next_elem (hl : IsList h l (A ++ e :: B)) : h.next e = nodeBehind l B := by
  rw [← List.singleton_append, ← List.append_assoc] at hl
  have hnext := hl.next_nodeBefore
  rwa [nodeBefore_concat] at hnext

/-- An element of the list is an interior node, as the assertions ask. -/
theorem IsList.interior (hl : IsList h l (A ++ e :: B)) : isInterior h e := by
  refine ⟨hl.nodeBehind_ne, hl.prev_elem ▸ hl.nodeBefore_ne, ?_⟩
  rw [hl.next_elem]
  rw [← List.singleton_append, ← List.append_assoc] at hl
  exact hl.nodeBehind_ne

/-- `list_next` from a place on. -/
theorem IsList.listNext (hl : IsList h l (A ++ e :: B)) : listNext e h = .ok (nodeBehind l B) := by
  unfold Lists.listNext
  rw [assert_ok (.inr hl.interior), bind_ok, nextOf_ok hl.interior.1, hl.next_elem]

/-- `list_prev` from a place back. -/
theorem IsList.listPrev (hl : IsList h l (A ++ B)) : listPrev (nodeBehind l B) h = .ok (nodeBefore l A) := by
  unfold Lists.listPrev
  rw [assert_ok hl.interior_or_tail, bind_ok, prevOf_ok hl.nodeBehind_ne, hl.prev_nodeBehind]

/-- `list_begin` is the first element, or the tail. -/
theorem IsList.listBegin (hl : IsList h l xs) : listBegin l h = .ok (nodeBehind l xs) := by
  have hhead : l.head ≠ 0 := hl.ne_zero head_mem
  unfold Lists.listBegin
  rw [assert_ok hhead, bind_ok, nextOf_ok hhead]
  exact congrArg Except.ok (IsList.next_nodeBefore (A := []) hl)

theorem IsList.listEnd (hl : IsList h l xs) : listEnd l = .ok l.tail := by
  unfold Lists.listEnd
  rw [assert_ok (hl.ne_zero head_mem), bind_ok]

/-- Only behind the last element there is the tail. -/
theorem IsList.nodeBehind_eq_tail (hl : IsList h l (A ++ B)) : nodeBehind l B = l.tail ↔ B = [] := by
  cases B with
  | nil => exact iff_of_true rfl rfl
  | cons b B =>
    refine iff_of_false (fun heq => ?_) (List.cons_ne_nil b B)
    have hb : b = l.tail := heq
    have hn := hl.nodup
    rw [nodes_append, List.nodup_append'] at hn
    exact (List.nodup_cons.mp hn.2.1).1 (hb ▸ List.mem_append_right B List.mem_cons_self)

/-- `list_empty` tells whether there are elements. -/
theorem IsList.listEmpty (hl : IsList h l xs) : listEmpty l h = .ok (decide (xs = [])) := by
  unfold Lists.listEmpty
  rw [hl.listBegin, bind_ok, hl.listEnd, bind_ok]
  exact congrArg Except.ok (decide_eq_decide.mpr (IsList.nodeBehind_eq_tail (A := []) hl))

/-! ## What is written -/

/-- `list_insert` joins the new element to both neighbours of its place. -/
theorem listInsert_eq (hl : IsList h l (A ++ B)) (he : e ≠ 0) (hout : e ∉ nodes l (A ++ B)) :
    listInsert (nodeBehind l B) e h =
      .ok ((h.join (nodeBefore l A) e).join e (nodeBehind l B)) := by
  have hp : nodeBefore l A ≠ e := fun heq => hout (heq ▸ nodeBefore_mem)
  have hq : nodeBehind l B ≠ e := fun heq => hout (heq ▸ nodeBehind_mem)
  unfold listInsert
  rw [assert_ok hl.interior_or_tail, bind_ok, assert_ok he, bind_ok, prevOf_ok hl.nodeBehind_ne, bind_ok,
    setPrev_ok he, bind_ok, setNext_ok he, bind_ok, prevOf_ok hl.nodeBehind_ne, bind_ok]
  dsimp only
  rw [Function.update_of_ne hq, hl.prev_nodeBehind, setNext_ok hl.nodeBefore_ne, bind_ok,
    setPrev_ok hl.nodeBehind_ne]
  dsimp only [join]
  rw [Function.update_comm hp.symm]

/-- What stands behind the place is not what stands before it. -/
theorem IsList.ne_nodeBefore (hl : IsList h l (A ++ B)) (hb : b ∈ B ++ [l.tail]) : b ≠ nodeBefore l A :=
  fun heq => hl.front_back (nodeBefore_mem_front l A) (heq ▸ hb)

/-- `list_remove` joins the neighbours of the element to each other. -/
theorem listRemove_eq (hl : IsList h l (A ++ e :: B)) :
    listRemove e h = .ok (nodeBehind l B, h.join (nodeBefore l A) (nodeBehind l B)) := by
  have he : e ≠ 0 := hl.interior.1
  have hp : e ≠ nodeBefore l A := hl.ne_nodeBefore List.mem_cons_self
  have hq : nodeBehind l B ≠ 0 := by
    rw [← hl.next_elem]
    exact hl.interior.2.2
  unfold listRemove
  rw [assert_ok hl.interior, bind_ok, prevOf_ok he, bind_ok, nextOf_ok he, bind_ok, hl.prev_elem, hl.next_elem,
    setNext_ok hl.nodeBefore_ne, bind_ok, nextOf_ok he, bind_ok, prevOf_ok he, bind_ok]
  dsimp only
  rw [Function.update_of_ne hp, hl.prev_elem, hl.next_elem, setPrev_ok hq, bind_ok, nextOf_ok he, bind_ok]
  dsimp only
  rw [Function.update_of_ne hp, hl.next_elem]
  rfl

/-- The range is cut out of its list, and put where `before` is then. -/
theorem listSplice_eq {l' : ListRef} {C D Rt Ri : List Nat} {first last : Nat}
    (hl : IsList h l (A ++ (R ++ B))) (hfirst : R = first :: Rt) (hlast : R = Ri ++ [last])
    (hbefore : isInterior h (nodeBehind l' D) ∨ isTail h (nodeBehind l' D))
    (hl' : IsList (h.join (nodeBefore l A) (nodeBehind l B)) l' (C ++ D)) (hout : ∀ n ∈ R, n ∉ nodes l' (C ++ D)) :
    listSplice (nodeBehind l' D) first (nodeBehind l B) h =
      .ok (((h.join (nodeBefore l A) (nodeBehind l B)).join (nodeBefore l' C) first).join last
        (nodeBehind l' D)) := by
  have hfirst_mem : first ∈ R := hfirst ▸ List.mem_cons_self
  have hlast_mem : last ∈ R := hlast ▸ List.mem_append_right _ List.mem_cons_self
  have hl₁ : IsList h l (A ++ first :: (Rt ++ B)) := by
    rw [hfirst] at hl
    exact hl
  have hl₂ : IsList h l ((A ++ Ri) ++ last :: B) := by
    rw [hlast, List.append_assoc, ← List.append_assoc] at hl
    exact hl
  have hl₃ : IsList h l ((A ++ R) ++ B) := by
    rw [List.append_assoc]
    exact hl
  have hp₁ : first ≠ nodeBefore l A := hl₁.ne_nodeBefore List.mem_cons_self
  have hp₂ : last ≠ nodeBefore l A :=
    hl.ne_nodeBefore (List.mem_append_left _ (List.mem_append_left B hlast_mem))
  have hq : first ≠ nodeBehind l B := fun heq =>
    hl₃.front_back (List.mem_cons_of_mem _ (List.mem_append_right A hfirst_mem)) (heq ▸ nodeBehind_mem_back l B)
  have hbefore_first : nodeBehind l' D ≠ first := fun heq => hout first hfirst_mem (heq ▸ nodeBehind_mem)
  have hbefore_last : last ≠ nodeBefore l' C := fun heq => hout last hlast_mem (heq ▸ nodeBefore_mem)
  have hend : nodeBefore l (A ++ R) = last := by
    rw [hlast, ← List.append_assoc, nodeBefore_concat]
  unfold listSplice
  rw [assert_ok hbefore, bind_ok, if_neg hq, hl₃.listPrev, bind_ok, hend, assert_ok hl₁.interior, bind_ok,
    assert_ok hl₂.interior, bind_ok, prevOf_ok hl₁.interior.1, bind_ok, nextOf_ok hl₂.interior.1, bind_ok,
    hl₁.prev_elem, hl₂.next_elem, setNext_ok hl₁.nodeBefore_ne, bind_ok, nextOf_ok hl₂.interior.1, bind_ok,
    prevOf_ok hl₁.interior.1, bind_ok]
  dsimp only
  rw [Function.update_of_ne hp₂, hl₁.prev_elem, hl₂.next_elem, setPrev_ok hl₃.nodeBehind_ne, bind_ok]
  change prevOf (nodeBehind l' D) (h.join (nodeBefore l A) (nodeBehind l B)) >>= _ = _
  rw [prevOf_ok hl'.nodeBehind_ne, bind_ok, hl'.prev_nodeBehind, setPrev_ok hl₁.interior.1, bind_ok,
    setNext_ok hl₂.interior.1, bind_ok, prevOf_ok hl'.nodeBehind_ne, bind_ok]
  have hplace : Function.update (Function.update h.prev (nodeBehind l B) (nodeBefore l A)) first
      (nodeBefore l' C) (nodeBehind l' D) = nodeBefore l' C :=
    (Function.update_of_ne hbefore_first ..).trans hl'.prev_nodeBehind
  dsimp only
  rw [hplace, setNext_ok hl'.nodeBefore_ne, bind_ok, setPrev_ok hl'.nodeBehind_ne]
  dsimp only [join]
  rw [Function.update_comm hbefore_last]

/-! ## Any number of lists -/

variable {ref : ι → ListRef} {xss : ι → List Nat} {i j k : ι} [DecidableEq ι]

omit [DecidableEq ι] in

/-- Each of the lists is one. -/
theorem WellFormed.list (hw : WellFormed ref xss h) (hi : xss i = xs) : IsList h (ref i) xs := hi ▸ hw.lists i

/-- A node that is in no list is put in front of an element or the tail. -/
theorem WellFormed.insert (hw : WellFormed ref xss h) (hi : xss i = A ++ B) (he : e ≠ 0)
    (hout : ∀ k, e ∉ nodes (ref k) (xss k)) :
    ∃ h', listInsert (nodeBehind (ref i) B) e h = .ok h' ∧
      WellFormed ref (Function.update xss i (A ++ e :: B)) h' ∧
      ∀ k, k ≠ i → SameLinks h h' (nodes (ref k) (xss k)) := by
  obtain ⟨hwell, hsame⟩ := hw.paste (loose_single he hout) hi rfl (show [e] = [] ++ [e] from rfl)
  exact ⟨_, listInsert_eq (hw.list hi) he (hi ▸ hout i), hwell, hsame⟩

/-- An element is removed, and the one behind it is returned. -/
theorem WellFormed.remove (hw : WellFormed ref xss h) (hi : xss i = A ++ e :: B) :
    ∃ h', listRemove e h = .ok (nodeBehind (ref i) B, h') ∧
      WellFormed ref (Function.update xss i (A ++ B)) h' ∧ Loose ref (Function.update xss i (A ++ B)) h' [e] ∧
      ∀ k, k ≠ i → SameLinks h h' (nodes (ref k) (xss k)) := by
  obtain ⟨hwell, hloose, hsame⟩ := hw.cut (R := [e]) hi
  exact ⟨_, listRemove_eq (hw.list hi), hwell, hloose, hsame⟩

/-- A range of one list is put in front of an element or the tail of this or another list, outside of
the range. -/
theorem WellFormed.splice {C D : List Nat} (hw : WellFormed ref xss h) (hi : xss i = A ++ (R ++ B))
    (hj : Function.update xss i (A ++ B) j = C ++ D) :
    ∃ h', listSplice (nodeBehind (ref j) D) (nodeBehind (ref i) (R ++ B)) (nodeBehind (ref i) B) h = .ok h' ∧
      WellFormed ref (Function.update (Function.update xss i (A ++ B)) j (C ++ (R ++ D))) h' ∧
      ∀ k, k ≠ i → k ≠ j → SameLinks h h' (nodes (ref k) (xss k)) := by
  have hl := hw.list hi
  have hbefore : isInterior h (nodeBehind (ref j) D) ∨ isTail h (nodeBehind (ref j) D) := by
    have hback := nodeBehind_mem_back (ref j) D
    by_cases hji : j = i
    · subst hji
      rw [Function.update_self] at hj
      have hsub : D ++ [(ref j).tail] ⊆ (A ++ (R ++ B)) ++ [(ref j).tail] := by
        intro n hn
        rcases List.mem_append.mp hn with hn | hn
        · have hmem : n ∈ A ++ B := hj ▸ List.mem_append_right C hn
          rcases List.mem_append.mp hmem with hmem | hmem
          · exact List.mem_append_left _ (List.mem_append_left _ hmem)
          · exact List.mem_append_left _ (List.mem_append_right A (List.mem_append_right R hmem))
        · exact List.mem_append_right _ hn
      exact hl.behind_head (hsub hback)
    · rw [Function.update_of_ne hji] at hj
      exact (hw.list hj).interior_or_tail
  rcases List.eq_nil_or_concat R with rfl | ⟨Ri, last, hlast⟩
  · refine ⟨h, ?_, ?_, fun _ _ _ _ _ => ⟨rfl, rfl⟩⟩
    · unfold listSplice
      rw [assert_ok hbefore, bind_ok]
      exact if_pos rfl
    · have hsame : Function.update xss i (A ++ B) = xss := by
        rw [← List.nil_append B, ← hi, Function.update_eq_self]
      rw [hsame] at hj ⊢
      rw [List.nil_append, ← hj, Function.update_eq_self]
      exact hw
  rw [List.concat_eq_append] at hlast
  obtain ⟨first, Rt, hfirst⟩ := List.exists_cons_of_ne_nil (l := R) (by simp [hlast])
  obtain ⟨hcut, hloose, hsame⟩ := hw.cut hi
  obtain ⟨hpaste, hsame'⟩ := hcut.paste hloose hj hfirst hlast
  have heq := listSplice_eq hl hfirst hlast hbefore (hcut.list hj) (hj ▸ hloose.apart j)
  have hstart : nodeBehind (ref i) (R ++ B) = first := by
    rw [hfirst]
    rfl
  refine ⟨_, hstart ▸ heq, hpaste, fun k hk hk' => (hsame k hk).trans ?_⟩
  have hother := hsame' k hk'
  rwa [Function.update_of_ne hk] at hother

/-! ## The two ends -/

/-- `list_push_front` puts the element in front, and leaves the other lists alone. -/
theorem WellFormed.pushFront (hw : WellFormed ref xss h) (i : ι) (he : e ≠ 0)
    (hout : ∀ k, e ∉ nodes (ref k) (xss k)) :
    ∃ h', listPushFront (ref i) e h = .ok h' ∧ WellFormed ref (Function.update xss i (e :: xss i)) h' ∧
      ∀ k, k ≠ i → SameLinks h h' (nodes (ref k) (xss k)) := by
  obtain ⟨h', heq, hrest⟩ := hw.insert (A := []) (B := xss i) rfl he hout
  refine ⟨h', ?_, hrest⟩
  unfold listPushFront
  rw [(hw.lists i).listBegin, bind_ok, heq]

/-- `list_push_back` puts it at the end. -/
theorem WellFormed.pushBack (hw : WellFormed ref xss h) (i : ι) (he : e ≠ 0)
    (hout : ∀ k, e ∉ nodes (ref k) (xss k)) :
    ∃ h', listPushBack (ref i) e h = .ok h' ∧ WellFormed ref (Function.update xss i (xss i ++ [e])) h' ∧
      ∀ k, k ≠ i → SameLinks h h' (nodes (ref k) (xss k)) := by
  obtain ⟨h', heq, hrest⟩ := hw.insert (List.append_nil (xss i)).symm he hout
  refine ⟨h', ?_, hrest⟩
  unfold listPushBack
  rw [(hw.lists i).listEnd, bind_ok]
  exact heq

/-- `list_front` is the first element. -/
theorem IsList.listFront (hl : IsList h l (e :: B)) : listFront l h = .ok e := by
  have hempty : e :: B ≠ [] := List.cons_ne_nil e B
  unfold Lists.listFront
  rw [hl.listEmpty, bind_ok, decide_eq_false hempty, assert_ok rfl, bind_ok, nextOf_ok (hl.ne_zero head_mem)]
  exact congrArg Except.ok (IsList.next_nodeBefore (A := []) hl)

/-- `list_back` is the last element. -/
theorem IsList.listBack (hl : IsList h l (A ++ [e])) : listBack l h = .ok e := by
  have hempty : A ++ [e] ≠ [] := by simp
  have hprev := IsList.prev_nodeBehind (B := []) (List.append_nil (A ++ [e]) ▸ hl)
  rw [nodeBefore_concat] at hprev
  unfold Lists.listBack
  rw [hl.listEmpty, bind_ok, decide_eq_false hempty, assert_ok rfl, bind_ok, prevOf_ok (hl.ne_zero tail_mem)]
  exact congrArg Except.ok hprev

/-- `list_pop_front` takes the first element out. -/
theorem WellFormed.popFront (hw : WellFormed ref xss h) (hi : xss i = e :: B) :
    ∃ h', listPopFront (ref i) h = .ok (e, h') ∧ WellFormed ref (Function.update xss i B) h' ∧
      ∀ k, k ≠ i → SameLinks h h' (nodes (ref k) (xss k)) := by
  obtain ⟨h', heq, hwell, -, hsame⟩ := hw.remove (A := []) hi
  refine ⟨h', ?_, hwell, hsame⟩
  unfold listPopFront
  rw [(hw.list hi).listFront, bind_ok, heq, bind_ok]

/-- `list_pop_back` takes out the last. -/
theorem WellFormed.popBack (hw : WellFormed ref xss h) (hi : xss i = A ++ [e]) :
    ∃ h', listPopBack (ref i) h = .ok (e, h') ∧ WellFormed ref (Function.update xss i A) h' ∧
      ∀ k, k ≠ i → SameLinks h h' (nodes (ref k) (xss k)) := by
  obtain ⟨h', heq, hwell, -, hsame⟩ := hw.remove hi
  refine ⟨h', ?_, List.append_nil A ▸ hwell, hsame⟩
  unfold listPopBack
  rw [(hw.list hi).listBack, bind_ok, heq, bind_ok]

end Pintos.Lists
