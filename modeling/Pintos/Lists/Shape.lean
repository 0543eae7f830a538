import Pintos.Lists.List

/-!
# Well-formed lists

A list is well formed if its head, its elements and its tail follow one another, with null pointers at
both ends. Any number of lists that share no node may be in a heap (`WellFormed`). Elements are cut out
of a list (`WellFormed.cut`) and put into one (`WellFormed.paste`); insertion and removal are both made
of these.
-/

namespace Pintos.Lists

open Pintos.Lib Pintos.Lib.Links

variable {ι : Type*} {h h' : Heap} {l : ListRef} {a b e : Nat} {xs ys A B R : List Nat}

/-- The nodes of a list: its head, its elements and its tail. -/
def nodes (l : ListRef) (xs : List Nat) : List Nat := l.head :: (xs ++ [l.tail])

/-- The node before the elements that follow `A`. -/
def nodeBefore (l : ListRef) (A : List Nat) : Nat := A.getLastD l.head

/-- The node behind the elements in front of `B`. -/
def nodeBehind (l : ListRef) (B : List Nat) : Nat := B.headD l.tail

/-- The list has the elements `xs`, in this order. -/
structure IsList (h : Heap) (l : ListRef) (xs : List Nat) : Prop where
  chain : h.Chain (nodes l xs)
  head : h.prev l.head = 0
  tail : h.next l.tail = 0
  nodup : (nodes l xs).Nodup
  notNull : 0 ∉ nodes l xs

/-- The nodes are the head, the elements and the tail. -/
theorem mem_nodes : e ∈ nodes l xs ↔ e = l.head ∨ e ∈ xs ∨ e = l.tail := by
  unfold nodes
  rw [List.mem_cons, List.mem_append, List.mem_singleton]

theorem head_mem : l.head ∈ nodes l xs := List.mem_cons_self

theorem tail_mem : l.tail ∈ nodes l xs := mem_nodes.mpr (.inr (.inr rfl))

theorem elem_mem (h : e ∈ xs) : e ∈ nodes l xs := mem_nodes.mpr (.inr (.inl h))

/-- What stands before a place is a node. -/
theorem nodeBefore_mem : nodeBefore l A ∈ nodes l (A ++ B) := by
  unfold nodeBefore
  rcases List.mem_cons.mp (List.getLastD_mem_cons (l := A) (a := l.head)) with heq | hmem
  · rw [heq]
    exact head_mem
  · exact elem_mem (List.mem_append_left B hmem)

/-- What stands behind a place is a node. -/
theorem nodeBehind_mem : nodeBehind l B ∈ nodes l (A ++ B) := by
  unfold nodeBehind
  cases B with
  | nil => exact tail_mem
  | cons b B => exact elem_mem (List.mem_append_right A List.mem_cons_self)

/-- The nodes up to some of the elements. -/
theorem exists_before (l : ListRef) (A : List Nat) : ∃ pre, l.head :: A = pre ++ [nodeBefore l A] := by
  unfold nodeBefore
  rcases List.eq_nil_or_concat A with rfl | ⟨A, a, rfl⟩
  · exact ⟨[], rfl⟩
  · rw [List.concat_eq_append, List.getLastD_concat]
    exact ⟨l.head :: A, rfl⟩

/-- The nodes from some of the elements on. -/
theorem exists_behind (l : ListRef) (B : List Nat) : ∃ post, B ++ [l.tail] = nodeBehind l B :: post := by
  cases B with
  | nil => exact ⟨[], rfl⟩
  | cons b B => exact ⟨B ++ [l.tail], rfl⟩

/-- The nodes of a list around a place in it. -/
theorem nodes_append (l : ListRef) (A B : List Nat) :
    nodes l (A ++ B) = (l.head :: A) ++ (B ++ [l.tail]) := by
  unfold nodes
  rw [List.append_assoc, List.cons_append]

/-- The nodes without some of the elements, and these. -/
theorem nodes_perm (l : ListRef) (A R B : List Nat) :
    (nodes l (A ++ (R ++ B))).Perm (R ++ nodes l (A ++ B)) := by
  rw [nodes_append, nodes_append, List.append_assoc, ← List.append_assoc, ← List.append_assoc R]
  exact List.perm_append_comm.append_right _

/-- These nodes have the same links. -/
def SameLinks (h h' : Heap) (ns : List Nat) : Prop := ∀ n ∈ ns, h'.next n = h.next n ∧ h'.prev n = h.prev n

/-- Links that two steps leave alone they leave alone together. -/
theorem SameLinks.trans {h'' : Heap} {ns : List Nat} (hs : SameLinks h h' ns) (hs' : SameLinks h' h'' ns) :
    SameLinks h h'' ns := fun n hn => ⟨(hs' n hn).1.trans (hs n hn).1, (hs' n hn).2.trans (hs n hn).2⟩

/-- Joining two nodes leaves the others alone. -/
theorem sameLinks_join {ns : List Nat} (ha : a ∉ ns) (hb : b ∉ ns) : SameLinks h (h.join a b) ns := fun _ hn =>
  ⟨join_next_of_ne fun heq => ha (heq ▸ hn), join_prev_of_ne fun heq => hb (heq ▸ hn)⟩

/-- A list is its links. -/
theorem IsList.congr (hl : IsList h l xs) (hs : SameLinks h h' (nodes l xs)) : IsList h' l xs where
  chain := hl.chain.congr (fun x hx => (hs x (List.dropLast_subset _ hx)).1)
    fun x hx => (hs x (List.mem_of_mem_tail hx)).2
  head := (hs _ head_mem).2.trans hl.head
  tail := (hs _ tail_mem).1.trans hl.tail
  nodup := hl.nodup
  notNull := hl.notNull

/-- The links at a place in a list. -/
theorem IsList.follows (hl : IsList h l (A ++ B)) : h.Follows (nodeBefore l A) (nodeBehind l B) := by
  obtain ⟨pre, hpre⟩ := exists_before l A
  obtain ⟨post, hpost⟩ := exists_behind l B
  have hchain := hl.chain
  rw [nodes_append, hpre, hpost, List.append_assoc] at hchain
  exact (List.isChain_append_cons_cons.mp hchain).2.1

/-- No node of it is null. -/
theorem IsList.ne_zero (hl : IsList h l xs) (he : e ∈ nodes l xs) : e ≠ 0 := fun heq => hl.notNull (heq ▸ he)

theorem nodeBefore_mem_front (l : ListRef) (A : List Nat) : nodeBefore l A ∈ l.head :: A :=
  List.getLastD_mem_cons

theorem nodeBehind_mem_back (l : ListRef) (B : List Nat) : nodeBehind l B ∈ B ++ [l.tail] := by
  cases B with
  | nil => exact List.mem_cons_self
  | cons b B => exact List.mem_cons_self

/-- What is in front of a place in a list is not behind it. -/
theorem IsList.front_back (hl : IsList h l (A ++ B)) {n : Nat} (hn : n ∈ l.head :: A) : n ∉ B ++ [l.tail] := by
  have hnodup := hl.nodup
  rw [nodes_append] at hnodup
  exact fun hn' => (List.nodup_append'.mp hnodup).2.2 hn hn'

/-! ## Cutting and pasting in one list -/

/-- Elements are cut out. -/
theorem IsList.cut (hl : IsList h l (A ++ (R ++ B))) :
    IsList (h.join (nodeBefore l A) (nodeBehind l B)) l (A ++ B) ∧
      (h.join (nodeBefore l A) (nodeBehind l B)).Chain R := by
  obtain ⟨pre, hpre⟩ := exists_before l A
  obtain ⟨post, hpost⟩ := exists_behind l B
  have hall : nodes l (A ++ (R ++ B)) = pre ++ nodeBefore l A :: (R ++ nodeBehind l B :: post) := by
    rw [nodes_append, hpre, List.append_assoc, List.append_assoc, hpost]
    rfl
  have hrest : nodes l (A ++ B) = pre ++ nodeBefore l A :: nodeBehind l B :: post := by
    rw [nodes_append, hpre, hpost, List.append_assoc]
    rfl
  have hsub : (nodes l (A ++ B)).Sublist (nodes l (A ++ (R ++ B))) := by
    rw [nodes_append, nodes_append, List.append_assoc]
    exact (List.sublist_append_right R _).append_left _
  have hback := nodeBehind_mem_back l B
  have hnotR : ∀ {n}, n ∈ l.head :: A → n ∉ R ∧ n ∉ B ++ [l.tail] := by
    intro n hn
    have hout := hl.front_back hn
    rw [List.append_assoc, List.mem_append, not_or] at hout
    exact hout
  have hRback : nodeBehind l B ∉ R := by
    have hnodup := hl.nodup
    rw [nodes_append, List.append_assoc] at hnodup
    exact fun hmem => (List.nodup_append'.mp (List.nodup_append'.mp hnodup).2.1).2.2 hmem hback
  have hchain := hl.chain
  rw [hall] at hchain
  obtain ⟨hleft, hright⟩ := List.isChain_split.mp hchain
  have hright := hright.tail
  have hfront := nodeBefore_mem_front l A
  refine ⟨⟨?_, ?_, ?_, hl.nodup.sublist hsub, fun h0 => hl.notNull (hsub.mem h0)⟩, ?_⟩
  · rw [hrest]
    exact chain_join hleft hright.right_of_append (hrest ▸ hl.nodup.sublist hsub)
  · refine (join_prev_of_ne fun heq => ?_).trans hl.head
    exact (hnotR List.mem_cons_self).2 (heq ▸ hback)
  · refine (join_next_of_ne fun heq => ?_).trans hl.tail
    exact (hnotR hfront).2 (heq ▸ List.mem_append_right B List.mem_cons_self)
  · exact Links.Chain.join_other hright.left_of_append (fun hmem => (hnotR hfront).1 (List.dropLast_subset _ hmem))
      fun hmem => hRback (List.mem_of_mem_tail hmem)

/-- Linked nodes are put in. -/
theorem IsList.paste {first last : Nat} {Rt Ri : List Nat} (hl : IsList h l (A ++ B)) (hR : h.Chain R)
    (hfirst : R = first :: Rt) (hlast : R = Ri ++ [last]) (hnodup : R.Nodup) (hnull : 0 ∉ R)
    (hapart : ∀ n ∈ R, n ∉ nodes l (A ++ B)) :
    IsList ((h.join (nodeBefore l A) first).join last (nodeBehind l B)) l (A ++ (R ++ B)) := by
  obtain ⟨pre, hpre⟩ := exists_before l A
  obtain ⟨post, hpost⟩ := exists_behind l B
  have hall : nodes l (A ++ (R ++ B)) = pre ++ nodeBefore l A :: (R ++ nodeBehind l B :: post) := by
    rw [nodes_append, hpre, List.append_assoc, List.append_assoc, hpost]
    rfl
  have hrest : nodes l (A ++ B) = pre ++ nodeBefore l A :: nodeBehind l B :: post := by
    rw [nodes_append, hpre, hpost, List.append_assoc]
    rfl
  have hperm := nodes_perm l A R B
  have hnodup' : (nodes l (A ++ (R ++ B))).Nodup :=
    hperm.nodup_iff.mpr (List.nodup_append'.mpr ⟨hnodup, hl.nodup, fun n hn hn' => hapart n hn hn'⟩)
  have hnull' : 0 ∉ nodes l (A ++ (R ++ B)) := fun h0 =>
    (List.mem_append.mp (hperm.mem_iff.mp h0)).elim hnull hl.notNull
  have hfirst_mem : first ∈ R := hfirst ▸ List.mem_cons_self
  have hlast_mem : last ∈ R := hlast ▸ List.mem_append_right _ List.mem_cons_self
  have hchain := hl.chain
  rw [hrest] at hchain
  obtain ⟨hleft, -, hright⟩ := List.isChain_append_cons_cons.mp hchain
  have hfront := nodeBefore_mem_front l A
  have hback := nodeBehind_mem_back l B
  have hbacks : ∀ {n}, n ∈ nodeBehind l B :: post → n ∈ B ++ [l.tail] := fun hn => hpost ▸ hn
  have hin : ∀ {n}, n ∈ B ++ [l.tail] → n ∈ nodes l (A ++ B) := fun hn => by
    rw [nodes_append]
    exact List.mem_append_right _ hn
  rw [hall] at hnodup'
  have hleft' : (h.join (nodeBefore l A) first).Chain (pre ++ nodeBefore l A :: R) := by
    rw [hfirst] at hR hnodup' ⊢
    exact chain_join hleft hR (hnodup'.sublist (by
      rw [List.cons_append]
      exact ((List.sublist_append_left Rt _).cons_cons first).cons_cons _ |>.append_left pre))
  have hright' : (h.join (nodeBefore l A) first).Chain (nodeBehind l B :: post) :=
    Links.Chain.join_other hright (fun hmem => hl.front_back hfront (hbacks (List.dropLast_subset _ hmem)))
      fun hmem => hapart first hfirst_mem (hin (hbacks (List.mem_of_mem_tail hmem)))
  refine ⟨?_, ?_, ?_, hall ▸ hnodup', hnull'⟩
  · have hassoc : pre ++ nodeBefore l A :: (R ++ nodeBehind l B :: post) =
        (pre ++ nodeBefore l A :: Ri) ++ last :: nodeBehind l B :: post := by
      rw [hlast, List.append_assoc, List.append_assoc]
      rfl
    have hleft'' : pre ++ nodeBefore l A :: R = (pre ++ nodeBefore l A :: Ri) ++ [last] := by
      rw [hlast, List.append_assoc]
      rfl
    rw [hall, hassoc]
    exact chain_join (hleft'' ▸ hleft') hright' (hassoc ▸ hnodup')
  · have hne : l.head ≠ first := fun heq => hapart first hfirst_mem (heq ▸ head_mem)
    have hne' : l.head ≠ nodeBehind l B := fun heq =>
      hl.front_back List.mem_cons_self (heq ▸ hback)
    exact ((join_prev_of_ne hne').trans (join_prev_of_ne hne)).trans hl.head
  · have hne : l.tail ≠ nodeBefore l A := fun heq =>
      hl.front_back hfront (heq ▸ List.mem_append_right B List.mem_cons_self)
    have hne' : l.tail ≠ last := fun heq => hapart last hlast_mem (heq ▸ tail_mem)
    exact ((join_next_of_ne hne').trans (join_next_of_ne hne)).trans hl.tail

/-! ## Any number of lists -/

variable {ref : ι → ListRef} {xss : ι → List Nat} {i j k : ι}

/-- The lists of a heap. -/
structure WellFormed (ref : ι → ListRef) (xss : ι → List Nat) (h : Heap) : Prop where
  lists : ∀ i, IsList h (ref i) (xss i)
  disjoint : ∀ i j, i ≠ j → ∀ n ∈ nodes (ref i) (xss i), n ∉ nodes (ref j) (xss j)

/-- Linked nodes that are in no list. -/
structure Loose (ref : ι → ListRef) (xss : ι → List Nat) (h : Heap) (R : List Nat) : Prop where
  chain : h.Chain R
  nodup : R.Nodup
  notNull : 0 ∉ R
  apart : ∀ i, ∀ n ∈ R, n ∉ nodes (ref i) (xss i)

theorem loose_single (he : e ≠ 0) (hout : ∀ i, e ∉ nodes (ref i) (xss i)) : Loose ref xss h [e] where
  chain := List.isChain_singleton e
  nodup := List.nodup_singleton e
  notNull := fun h0 => he (List.mem_singleton.mp h0).symm
  apart := fun i _ hn => (List.mem_singleton.mp hn).symm ▸ hout i

variable [DecidableEq ι]

/-- One list has changed. -/
theorem WellFormed.update (hw : WellFormed ref xss h) (hl : IsList h' (ref i) ys)
    (hothers : ∀ k, k ≠ i → SameLinks h h' (nodes (ref k) (xss k)))
    (hnew : ∀ k, k ≠ i → ∀ n ∈ nodes (ref i) ys, n ∉ nodes (ref k) (xss k)) :
    WellFormed ref (Function.update xss i ys) h' := by
  constructor
  case lists =>
    intro k
    by_cases hk : k = i
    · rw [hk, Function.update_self]
      exact hl
    · rw [Function.update_of_ne hk]
      exact (hw.lists k).congr (hothers k hk)
  case disjoint =>
    intro k k' hne n hn hn'
    by_cases hk : k = i
    · rw [hk, Function.update_self] at hn
      have hk' : k' ≠ i := fun heq => hne (hk.trans heq.symm)
      rw [Function.update_of_ne hk'] at hn'
      exact hnew k' hk' n hn hn'
    · rw [Function.update_of_ne hk] at hn
      by_cases hk' : k' = i
      · rw [hk', Function.update_self] at hn'
        exact hnew k hk n hn' hn
      · rw [Function.update_of_ne hk'] at hn'
        exact hw.disjoint k k' hne n hn hn'

/-- Elements are cut out of a list. -/
theorem WellFormed.cut (hw : WellFormed ref xss h) (hi : xss i = A ++ (R ++ B)) :
    WellFormed ref (Function.update xss i (A ++ B))
        (h.join (nodeBefore (ref i) A) (nodeBehind (ref i) B)) ∧
      Loose ref (Function.update xss i (A ++ B))
        (h.join (nodeBefore (ref i) A) (nodeBehind (ref i) B)) R ∧
      ∀ k, k ≠ i → SameLinks h (h.join (nodeBefore (ref i) A) (nodeBehind (ref i) B)) (nodes (ref k) (xss k)) := by
  have hl := hw.lists i
  rw [hi] at hl
  obtain ⟨hlist, hchain⟩ := hl.cut
  have hperm := nodes_perm (ref i) A R B
  have hmem : ∀ {n}, n ∈ R ∨ n ∈ nodes (ref i) (A ++ B) → n ∈ nodes (ref i) (xss i) := fun hn => by
    rw [hi]
    exact hperm.mem_iff.mpr (List.mem_append.mpr hn)
  have hout : ∀ k, k ≠ i → ∀ n ∈ nodes (ref i) (A ++ B), n ∉ nodes (ref k) (xss k) := fun k hk n hn =>
    hw.disjoint i k (Ne.symm hk) n (hmem (.inr hn))
  have hothers : ∀ k, k ≠ i → SameLinks h (h.join (nodeBefore (ref i) A) (nodeBehind (ref i) B))
      (nodes (ref k) (xss k)) := fun k hk =>
    sameLinks_join (hout k hk _ nodeBefore_mem) (hout k hk _ nodeBehind_mem)
  obtain ⟨hnodup, -, hapart⟩ := List.nodup_append'.mp (hperm.nodup_iff.mp hl.nodup)
  refine ⟨hw.update hlist hothers hout, ⟨hchain, hnodup, fun h0 => ?_, fun k n hn => ?_⟩, hothers⟩
  · exact hl.notNull (hperm.mem_iff.mpr (List.mem_append_left _ h0))
  · by_cases hk : k = i
    · rw [hk, Function.update_self]
      exact fun hn' => hapart hn hn'
    · rw [Function.update_of_ne hk]
      exact hw.disjoint i k (Ne.symm hk) n (hmem (.inl hn))

/-- Linked nodes are put into a list. -/
theorem WellFormed.paste {first last : Nat} {Rt Ri : List Nat} (hw : WellFormed ref xss h)
    (hR : Loose ref xss h R) (hi : xss i = A ++ B) (hfirst : R = first :: Rt) (hlast : R = Ri ++ [last]) :
    WellFormed ref (Function.update xss i (A ++ (R ++ B)))
        ((h.join (nodeBefore (ref i) A) first).join last (nodeBehind (ref i) B)) ∧
      ∀ k, k ≠ i → SameLinks h ((h.join (nodeBefore (ref i) A) first).join last (nodeBehind (ref i) B))
        (nodes (ref k) (xss k)) := by
  have hl := hw.lists i
  have hapart := hR.apart i
  rw [hi] at hl hapart
  have hfirst_mem : first ∈ R := hfirst ▸ List.mem_cons_self
  have hlast_mem : last ∈ R := hlast ▸ List.mem_append_right _ List.mem_cons_self
  have hout : ∀ k, k ≠ i → ∀ n ∈ nodes (ref i) (A ++ B), n ∉ nodes (ref k) (xss k) := fun k hk n hn =>
    hw.disjoint i k (Ne.symm hk) n (hi ▸ hn)
  have hothers : ∀ k, k ≠ i → SameLinks h
      ((h.join (nodeBefore (ref i) A) first).join last (nodeBehind (ref i) B)) (nodes (ref k) (xss k)) :=
    fun k hk => (sameLinks_join (hout k hk _ nodeBefore_mem) (hR.apart k _ hfirst_mem)).trans
      (sameLinks_join (hR.apart k _ hlast_mem) (hout k hk _ nodeBehind_mem))
  refine ⟨hw.update (hl.paste hR.chain hfirst hlast hR.nodup hR.notNull hapart) hothers
    fun k hk n hn => ?_, hothers⟩
  rcases List.mem_append.mp ((nodes_perm (ref i) A R B).mem_iff.mp hn) with hn | hn
  · exact hR.apart k n hn
  · exact hout k hk n hn

end Pintos.Lists
