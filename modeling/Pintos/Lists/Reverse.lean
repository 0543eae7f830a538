import Pintos.Lists.Operations

/-!
# Reversing a list

The loop exchanges the two links of each element and goes on through the one that was `next`
(`reverseLoop_eq`). The elements are then a chain backwards, and the last two exchanges put it in between
the head and the tail.
-/

namespace Pintos.Lists

open Pintos.Lib Pintos.Lib.Links

variable {ι : Type*} {h h' : Heap} {l : ListRef} {a b e : Nat} {xs ys A B R : List Nat}

/-- The links of these nodes are exchanged. -/
def swapped (h : Heap) (ns : List Nat) : Heap where
  prev n := if n ∈ ns then h.next n else h.prev n
  next n := if n ∈ ns then h.prev n else h.next n

theorem swapped_nil (h : Heap) : swapped h [] = h := by
  simp [swapped]

theorem swapped_prev (he : e ∈ A) : (swapped h A).prev e = h.next e := if_pos he

theorem swapped_next (he : e ∈ A) : (swapped h A).next e = h.prev e := if_pos he

theorem swapped_prev_of_notMem (he : e ∉ A) : (swapped h A).prev e = h.prev e := if_neg he

theorem swapped_next_of_notMem (he : e ∉ A) : (swapped h A).next e = h.next e := if_neg he

/-- One node more is swapped. -/
theorem swapLinks_swapped (he : e ≠ 0) (hA : e ∉ A) :
    swapLinks e (swapped h A) = .ok (swapped h (A ++ [e])) := by
  unfold swapLinks
  rw [prevOf_ok he, bind_ok, nextOf_ok he, bind_ok, setPrev_ok he, bind_ok, setNext_ok he,
    swapped_prev_of_notMem hA, swapped_next_of_notMem hA]
  congr 1
  ext n
  · change Function.update (swapped h A).prev e (h.next e) n = _
    by_cases hn : n = e
    · rw [hn, Function.update_self, swapped_prev (List.mem_append_right A List.mem_cons_self)]
    · rw [Function.update_of_ne hn]
      simp [swapped, hn]
  · change Function.update (swapped h A).next e (h.prev e) n = _
    by_cases hn : n = e
    · rw [hn, Function.update_self, swapped_next (List.mem_append_right A List.mem_cons_self)]
    · rw [Function.update_of_ne hn]
      simp [swapped, hn]

/-- The loop swaps the elements from first to last. -/
theorem reverseLoop_eq (hl : IsList h l (A ++ B)) {fuel : Nat} (hf : B.length < fuel) :
    reverseLoop l fuel (nodeBehind l B) (swapped h A) = .ok (swapped h (A ++ B)) := by
  induction B generalizing A fuel with
  | nil =>
    obtain ⟨fuel, rfl⟩ := Nat.exists_eq_add_one_of_ne_zero (Nat.ne_of_gt hf)
    unfold reverseLoop
    rw [hl.listEnd, bind_ok, List.append_nil]
    exact if_neg (not_not.mpr rfl)
  | cons e B ih =>
    obtain ⟨fuel, rfl⟩ := Nat.exists_eq_add_one_of_ne_zero (Nat.ne_of_gt (Nat.zero_lt_of_lt hf))
    have hne : e ≠ l.tail := fun heq => List.cons_ne_nil e B (hl.nodeBehind_eq_tail.mp heq)
    have he : e ≠ 0 := hl.interior.1
    have hA : e ∉ A := fun hmem => hl.front_back (List.mem_cons_of_mem _ hmem) List.mem_cons_self
    have hnext : (swapped h (A ++ [e])).prev e = nodeBehind l B := by
      rw [swapped_prev (List.mem_append_right A List.mem_cons_self), hl.next_elem]
    unfold reverseLoop
    rw [hl.listEnd, bind_ok]
    change (if e ≠ l.tail then _ else _) = _
    rw [if_pos hne]
    change swapLinks e _ >>= _ = _
    rw [swapLinks_swapped he hA, bind_ok]
    change prevOf e _ >>= _ = _
    rw [prevOf_ok he, bind_ok, hnext]
    rw [← List.singleton_append, ← List.append_assoc] at hl
    have hrest := ih hl (Nat.lt_of_succ_lt_succ hf)
    rwa [List.append_assoc] at hrest

/-- The links between a head and a tail are not exchanged. -/
theorem swapped_join (ha : a ∉ xs) (hb : b ∉ xs) : swapped (h.join a b) xs = (swapped h xs).join a b := by
  ext n
  · by_cases hn : n ∈ xs
    · have hna : n ≠ a := fun heq => ha (heq ▸ hn)
      have hnb : n ≠ b := fun heq => hb (heq ▸ hn)
      rw [swapped_prev hn, join_next_of_ne hna, join_prev_of_ne hnb, swapped_prev hn]
    · rw [swapped_prev_of_notMem hn]
      by_cases hnb : n = b
      · rw [hnb, join_prev, join_prev]
      · rw [join_prev_of_ne hnb, join_prev_of_ne hnb, swapped_prev_of_notMem hn]
  · by_cases hn : n ∈ xs
    · have hna : n ≠ a := fun heq => ha (heq ▸ hn)
      have hnb : n ≠ b := fun heq => hb (heq ▸ hn)
      rw [swapped_next hn, join_prev_of_ne hnb, join_next_of_ne hna, swapped_next hn]
    · rw [swapped_next_of_notMem hn]
      by_cases hna : n = a
      · rw [hna, join_next, join_next]
      · rw [join_next_of_ne hna, join_next_of_ne hna, swapped_next_of_notMem hn]

/-- The elements are cut out, exchanged and put in again. -/
theorem listReverse_eq {first last fuel : Nat} {Rt Ri : List Nat} (hl : IsList h l xs) (hfirst : xs = first :: Rt)
    (hlast : xs = Ri ++ [last]) (hf : xs.length < fuel) :
    listReverse l fuel h =
      .ok (((swapped (h.join l.head l.tail) xs).join l.head last).join first l.tail) := by
  have hfirst_mem : first ∈ xs := hfirst ▸ List.mem_cons_self
  have hlast_mem : last ∈ xs := hlast ▸ List.mem_append_right _ List.mem_cons_self
  have hl₁ : IsList h l ([] ++ first :: Rt) := hfirst ▸ hl
  have hl₂ : IsList h l (Ri ++ last :: []) := hlast ▸ hl
  have hhead : l.head ∉ xs := fun hmem =>
    IsList.front_back (A := []) hl List.mem_cons_self (List.mem_append_left _ hmem)
  have htail : l.tail ∉ xs := by
    have hn := hl.nodup
    rw [nodes, List.nodup_cons, List.nodup_append'] at hn
    exact fun hmem => hn.2.2.2 hmem List.mem_cons_self
  have hh0 : l.head ≠ 0 := hl.ne_zero head_mem
  have ht0 : l.tail ≠ 0 := hl.ne_zero tail_mem
  have hne : xs ≠ [] := hfirst ▸ List.cons_ne_nil first Rt
  have hlt : last ≠ l.tail := fun heq => htail (heq ▸ hlast_mem)
  have hfh : first ≠ l.head := fun heq => hhead (heq ▸ hfirst_mem)
  have hnext : (swapped h xs).next l.head = first :=
    (swapped_next_of_notMem hhead).trans hl₁.next_nodeBefore
  have hprev : (swapped h xs).prev l.tail = last := by
    rw [swapped_prev_of_notMem htail]
    have hp := IsList.prev_nodeBehind (A := Ri ++ [last]) (B := []) (by simpa using hl₂)
    rwa [nodeBefore_concat] at hp
  have hprev_last : (swapped h xs).prev last = l.tail := (swapped_prev hlast_mem).trans hl₂.next_elem
  have hnext_first : (swapped h xs).next first = l.head := (swapped_next hfirst_mem).trans hl₁.prev_elem
  have hloop : reverseLoop l fuel (nodeBehind l xs) h = .ok (swapped h xs) := by
    have hloop := reverseLoop_eq (A := []) hl hf
    rwa [swapped_nil] at hloop
  unfold listReverse
  rw [hl.listEmpty, bind_ok, decide_eq_false hne, if_neg Bool.false_ne_true, hl.listBegin, bind_ok, hloop, bind_ok]
  unfold swapEnds
  rw [nextOf_ok hh0, bind_ok, prevOf_ok ht0, bind_ok, setNext_ok hh0, bind_ok, setPrev_ok ht0, bind_ok,
    nextOf_ok hh0, bind_ok, prevOf_ok ht0, bind_ok]
  dsimp only
  rw [Function.update_self, Function.update_self, hnext, hprev, prevOf_ok hl₂.interior.1, bind_ok,
    nextOf_ok hl₁.interior.1, bind_ok]
  dsimp only
  rw [Function.update_of_ne hlt, Function.update_of_ne hfh, hprev_last, hnext_first,
    setPrev_ok hl₂.interior.1, bind_ok, setNext_ok hl₁.interior.1, swapped_join hhead htail]
  dsimp only [join]
  rw [Function.update_idem, Function.update_comm hlt, Function.update_idem]

variable {ref : ι → ListRef} {xss : ι → List Nat} {i j k : ι}

/-- Nodes that are not swapped are as they were. -/
theorem sameLinks_swapped {ns : List Nat} (hR : ∀ n ∈ ns, n ∉ R) : SameLinks h (swapped h R) ns := fun n hn =>
  ⟨swapped_next_of_notMem (hR n hn), swapped_prev_of_notMem (hR n hn)⟩

/-- Linked nodes that are in no list are linked backwards. -/
theorem Loose.reverse (hR : Loose ref xss h R) : Loose ref xss (swapped h R) R.reverse where
  chain := hR.chain.reverse (fun _ hn => swapped_next (List.mem_of_mem_tail hn))
    fun _ hn => swapped_prev (List.dropLast_subset _ hn)
  nodup := List.nodup_reverse.mpr hR.nodup
  notNull := fun h0 => hR.notNull (List.mem_reverse.mp h0)
  apart := fun k n hn => hR.apart k n (List.mem_reverse.mp hn)

/-- The other lists are as they were. -/
theorem WellFormed.swapped (hw : WellFormed ref xss h) (hR : Loose ref xss h R) :
    WellFormed ref xss (swapped h R) where
  lists k := (hw.lists k).congr (sameLinks_swapped fun n hn hn' => hR.apart k n hn' hn)
  disjoint := hw.disjoint

variable [DecidableEq ι]

/-- `list_reverse` reverses its list, and leaves the others alone. -/
theorem WellFormed.reverse (hw : WellFormed ref xss h) (i : ι) {fuel : Nat} (hf : (xss i).length < fuel) :
    ∃ h', listReverse (ref i) fuel h = .ok h' ∧ WellFormed ref (Function.update xss i (xss i).reverse) h' ∧
      ∀ k, k ≠ i → SameLinks h h' (nodes (ref k) (xss k)) := by
  have hl := hw.lists i
  rcases List.eq_nil_or_concat (xss i) with hnil | ⟨Ri, last, hlast⟩
  · refine ⟨h, ?_, ?_, fun _ _ _ _ => ⟨rfl, rfl⟩⟩
    · unfold listReverse
      rw [hl.listEmpty, bind_ok, decide_eq_true hnil, if_pos rfl]
    · rw [hnil, List.reverse_nil, ← hnil, Function.update_eq_self]
      exact hw
  rw [List.concat_eq_append] at hlast
  obtain ⟨first, Rt, hfirst⟩ := List.exists_cons_of_ne_nil (l := xss i) (by simp [hlast])
  obtain ⟨hcut, hloose, hsame⟩ := hw.cut (A := []) (R := xss i) (B := []) (List.append_nil (xss i)).symm
  have hempty : Function.update xss i ([] ++ []) i = [] ++ [] := Function.update_self ..
  have hrev_first : (xss i).reverse = last :: Ri.reverse := by
    rw [hlast, List.reverse_append]
    rfl
  have hrev_last : (xss i).reverse = Rt.reverse ++ [first] := by
    rw [hfirst, List.reverse_cons]
  obtain ⟨hpaste, hsame'⟩ := (hcut.swapped hloose).paste hloose.reverse hempty hrev_first hrev_last
  refine ⟨_, listReverse_eq hl hfirst hlast hf, ?_, fun k hk => ?_⟩
  · rwa [Function.update_idem, List.append_nil] at hpaste
  · have hout := hloose.apart k
    have hlast' := hsame' k hk
    rw [Function.update_of_ne hk] at hout hlast'
    exact ((hsame k hk).trans (sameLinks_swapped fun n hn hn' => hout n hn' hn)).trans hlast'

end Pintos.Lists
