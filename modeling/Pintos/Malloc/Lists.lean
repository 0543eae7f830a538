import Pintos.Malloc.Heap

/-!
# Free lists

What the functions of `lib/kernel/list.c` do to a list whose nodes are apart, and that none of their
assertions fails on it.
-/

namespace Pintos.Malloc

open Pintos.Lib Pintos.Lib.Memory

variable {m m' : Memory} {list b e : Nat} {xs ys zs : List Nat}

/-- The nodes of a list: its head, its elements and its tail. -/
def nodes (list : Nat) (xs : List Nat) : List Nat := list :: (xs ++ [list + 8])

/-- The list has the elements `xs`, in this order. -/
structure IsList (m : Memory) (list : Nat) (xs : List Nat) : Prop where
  linked : m.Linked (nodes list xs)
  head : m.prev list = 0
  tail : m.next (list + 8) = 0
  spaced : Spaced (nodes list xs)

theorem head_mem : list ∈ nodes list xs := List.mem_cons_self

theorem tail_mem : list + 8 ∈ nodes list xs :=
  List.mem_cons_of_mem _ (List.mem_append_right _ (List.mem_singleton_self _))

theorem elem_mem (h : b ∈ xs) : b ∈ nodes list xs := List.mem_cons_of_mem _ (List.mem_append_left _ h)

/-- A region has none of the nodes. -/
def Off (l : List Nat) (a n : Nat) : Prop := ∀ y ∈ l, a + n ≤ y ∨ y + 8 ≤ a

/-- A list whose nodes are as they were. -/
theorem IsList.of_agree (h : IsList m list xs) (ha : ∀ y ∈ nodes list xs, Agree m m' y 8) :
    IsList m' list xs where
  linked := h.linked.congr
    (fun y hy => ((ha y (List.dropLast_subset _ hy)).sub (by omega) (by omega)).load)
    fun y hy => ((ha y (List.mem_of_mem_tail hy)).sub (by omega) (by omega)).load
  head := (((ha list head_mem).sub (by omega) (by omega)).load).trans h.head
  tail := (((ha (list + 8) tail_mem).sub (by omega) (by omega)).load).trans h.tail
  spaced := h.spaced

/-- The node in front of which one is put is an element or the tail. -/
theorem IsList.listInsert {pre post : List Nat} {x z : Nat} (h : IsList m list xs)
    (hl : nodes list xs = pre ++ x :: z :: post) (hs : Spaced (e :: nodes list xs)) :
    listInsert z e m = .ok (linkIn z e m) ∧ (linkIn z e m).Linked (pre ++ x :: e :: z :: post) ∧
      (linkIn z e m).prev list = 0 ∧ (linkIn z e m).next (list + 8) = 0 ∧
      ∀ a n, Off (e :: nodes list xs) a n → Agree m (linkIn z e m) a n := by
  have hlinked := h.linked
  have hspaced := h.spaced
  rw [hl] at hlinked hspaced hs
  have hx : x ∈ pre ++ x :: z :: post := List.mem_append_right _ List.mem_cons_self
  have hz : z ∈ pre ++ x :: z :: post :=
    List.mem_append_right _ (List.mem_cons_of_mem _ List.mem_cons_self)
  obtain ⟨-, -, hprev, hright⟩ := linked_append.mp hlinked
  obtain ⟨hin, hfirst, hlast⟩ := hlinked.linkIn hs
  have hhead : list ∈ pre ++ [x] := by
    unfold nodes at hl
    cases pre with
    | nil => exact List.mem_singleton.mpr (List.cons.inj hl).1
    | cons p pre =>
      rw [(List.cons.inj hl).1]
      exact List.mem_cons_self
  have htail : list + 8 ∈ z :: post := by
    have hlast := congrArg List.getLast? hl
    unfold nodes at hlast
    rw [← List.cons_append, List.getLast?_concat, List.getLast?_append_cons,
      List.getLast?_cons_cons] at hlast
    exact List.mem_of_getLast? hlast.symm
  have hnode : isInterior m z ∨ isTail m z := by
    have hzpos := Nat.ne_of_gt (hspaced.range z hz).1
    have hxpos := Nat.ne_of_gt (hspaced.range x hx).1
    rw [← hprev] at hxpos
    by_cases hnext : m.next z = 0
    · exact .inr ⟨hzpos, hxpos, hnext⟩
    · exact .inl ⟨hzpos, hxpos, hnext⟩
  refine ⟨?_, hin, (hfirst list hhead).trans h.head, (hlast _ htail).trans h.tail, fun a n hoff => ?_⟩
  · unfold Malloc.listInsert assert
    rw [if_pos hnode, bind_ok, if_pos (Nat.ne_of_gt (hs.range e List.mem_cons_self).1), bind_ok]
  · rw [hl] at hoff
    exact linkIn_agree ((List.pairwise_cons.mp hs.apart).1 z hz) hprev
      (hoff x (List.mem_cons_of_mem _ hx)) (hoff z (List.mem_cons_of_mem _ hz))
      (hoff e List.mem_cons_self)

/-- `list_push_back`. -/
theorem IsList.pushBack (h : IsList m list xs) (hs : Spaced (e :: nodes list xs)) :
    ∃ m', listPushBack list e m = .ok m' ∧ IsList m' list (xs ++ [e]) ∧
      ∀ a n, Off (e :: nodes list xs) a n → Agree m m' a n := by
  obtain ⟨pre, x, hlast⟩ : ∃ pre x, list :: xs = pre ++ [x] :=
    ⟨_, _, (List.dropLast_append_getLast (List.cons_ne_nil list xs)).symm⟩
  have hl : nodes list xs = pre ++ x :: (list + 8) :: [] := by
    unfold nodes
    rw [← List.cons_append, hlast, List.append_assoc]
    rfl
  have hnew : nodes list (xs ++ [e]) = pre ++ x :: e :: (list + 8) :: [] := by
    unfold nodes
    rw [← List.cons_append, ← List.cons_append, hlast, List.append_assoc, List.append_assoc]
    rfl
  obtain ⟨hok, hlinked, hhead, htail, hagree⟩ := h.listInsert hl hs
  refine ⟨_, hok, ⟨?_, hhead, htail, ?_⟩, hagree⟩
  · rw [hnew]
    exact hlinked
  · refine hs.perm ?_
    rw [hl, hnew]
    exact List.perm_middle.symm.trans ((List.Perm.swap _ _ _).append_left pre)

/-- `list_push_front`. -/
theorem IsList.pushFront (h : IsList m list xs) (hs : Spaced (e :: nodes list xs)) :
    ∃ m', listPushFront list e m = .ok m' ∧ IsList m' list (e :: xs) ∧
      ∀ a n, Off (e :: nodes list xs) a n → Agree m m' a n := by
  obtain ⟨z, post, hfirst⟩ : ∃ z post, xs ++ [list + 8] = z :: post :=
    List.exists_cons_of_ne_nil (List.append_ne_nil_of_right_ne_nil _ (List.cons_ne_nil _ _))
  have hl : nodes list xs = [] ++ list :: z :: post := congrArg (list :: ·) hfirst
  have hnext : m.next list = z := by
    have hlinked := h.linked
    rw [hl] at hlinked
    exact hlinked.1
  obtain ⟨hok, hlinked, hhead, htail, hagree⟩ := h.listInsert hl hs
  unfold listPushFront
  rw [hnext]
  refine ⟨_, hok, ⟨?_, hhead, htail, ?_⟩, hagree⟩
  · show Linked _ (list :: e :: (xs ++ [list + 8]))
    rw [hfirst]
    exact hlinked
  · exact hs.perm (List.Perm.swap list e (xs ++ [list + 8]))

/-- `list_remove`. -/
theorem IsList.remove (h : IsList m list (ys ++ e :: zs)) :
    ∃ m', listRemove e m = .ok m' ∧ IsList m' list (ys ++ zs) ∧
      ∀ a n, Off (nodes list (ys ++ e :: zs)) a n → Agree m m' a n := by
  obtain ⟨pre, x, hlast⟩ : ∃ pre x, list :: ys = pre ++ [x] :=
    ⟨_, _, (List.dropLast_append_getLast (List.cons_ne_nil list ys)).symm⟩
  obtain ⟨z, post, hfirst⟩ : ∃ z post, zs ++ [list + 8] = z :: post :=
    List.exists_cons_of_ne_nil (List.append_ne_nil_of_right_ne_nil _ (List.cons_ne_nil _ _))
  have hl : nodes list (ys ++ e :: zs) = pre ++ x :: e :: z :: post := by
    unfold nodes
    rw [List.append_assoc, List.cons_append, hfirst, ← List.cons_append, hlast, List.append_assoc]
    rfl
  have hnew : nodes list (ys ++ zs) = pre ++ x :: z :: post := by
    unfold nodes
    rw [List.append_assoc, hfirst, ← List.cons_append, hlast, List.append_assoc]
    rfl
  have hlinked := h.linked
  have hspaced := h.spaced
  rw [hl] at hlinked hspaced
  have hx : x ∈ pre ++ x :: e :: z :: post := List.mem_append_right _ List.mem_cons_self
  have he : e ∈ pre ++ x :: e :: z :: post :=
    List.mem_append_right _ (List.mem_cons_of_mem _ List.mem_cons_self)
  have hz : z ∈ pre ++ x :: e :: z :: post := List.mem_append_right _
    (List.mem_cons_of_mem _ (List.mem_cons_of_mem _ List.mem_cons_self))
  obtain ⟨-, -, hprev, hnext, -⟩ := linked_append.mp hlinked
  obtain ⟨hout, hfirsts, hlasts⟩ := hlinked.linkOut hspaced
  have hinterior : isInterior m e := by
    refine ⟨Nat.ne_of_gt (hspaced.range e he).1, ?_, ?_⟩
    · rw [hprev]
      exact Nat.ne_of_gt (hspaced.range x hx).1
    · rw [hnext]
      exact Nat.ne_of_gt (hspaced.range z hz).1
  have hhead : list ∈ pre ++ [x] := by
    rw [← hlast]
    exact List.mem_cons_self
  have htail : list + 8 ∈ z :: post := by
    rw [← hfirst]
    exact List.mem_append_right _ (List.mem_singleton_self _)
  refine ⟨linkOut e m, ?_, ⟨?_, (hfirsts _ hhead).trans h.head, (hlasts _ htail).trans h.tail, ?_⟩,
    fun a n hoff => ?_⟩
  · unfold listRemove assert
    rw [if_pos hinterior, bind_ok]
  · rw [hnew]
    exact hout
  · refine h.spaced.sublist ?_
    rw [hl, hnew]
    exact ((List.sublist_cons_self e _).cons_cons x).append_left pre
  · rw [hl] at hoff
    exact linkOut_agree hspaced.neighbours.1.symm hprev hnext (hoff x hx) (hoff z hz)

/-- `list_empty`. -/
theorem IsList.listEmpty_iff (h : IsList m list xs) : listEmpty list m = true ↔ xs = [] := by
  unfold listEmpty
  rw [beq_iff_eq]
  cases xs with
  | nil => exact iff_of_true h.linked.1 rfl
  | cons b xs =>
    refine iff_of_false (fun heq => ?_) (List.cons_ne_nil b xs)
    have hb : m.next list = b := h.linked.1
    have hapart : Apart b (list + 8) := by
      have hrest := (List.pairwise_cons.mp h.spaced.apart).2
      exact (List.pairwise_cons.mp hrest).1 _ (List.mem_append_right _ (List.mem_singleton_self _))
    unfold Apart at hapart
    omega

/-- `list_pop_front`. -/
theorem IsList.popFront (h : IsList m list (b :: xs)) :
    ∃ m', listPopFront list m = .ok (b, m') ∧ IsList m' list xs ∧
      ∀ a n, Off (nodes list (b :: xs)) a n → Agree m m' a n := by
  have hempty : listEmpty list m = false := by
    rw [← Bool.not_eq_true, h.listEmpty_iff]
    exact List.cons_ne_nil b xs
  have hb : m.next list = b := h.linked.1
  have hfront : IsList m list ([] ++ b :: xs) := h
  obtain ⟨m', hok, hlist, hagree⟩ := hfront.remove
  refine ⟨m', ?_, hlist, hagree⟩
  unfold listPopFront assert
  rw [if_pos hempty, bind_ok]
  dsimp only
  rw [hb, hok, bind_ok]

/-- `list_init`. -/
theorem isList_listInit (m : Memory) (hlist : 0 < list) (hsmall : list + 8 < 2 ^ 32) :
    IsList (listInit list m) list [] := by
  have hapart : Apart list (list + 8) := .inl (Nat.le_refl _)
  constructor
  case linked =>
    refine ⟨?_, ?_, trivial⟩
    · unfold listInit
      rw [next_setNext hapart, next_setPrev (.inr hapart), next_setNext_self hsmall]
    · unfold listInit
      rw [prev_setNext (.inl rfl), prev_setPrev_self (by omega)]
  case head =>
    unfold listInit
    rw [prev_setNext (.inr hapart), prev_setPrev hapart, prev_setNext (.inl rfl),
      prev_setPrev_self (by omega)]
  case tail =>
    unfold listInit
    exact next_setNext_self (by omega)
  case spaced =>
    refine ⟨List.pairwise_pair.mpr hapart, fun x hx => ?_⟩
    rcases List.mem_pair.mp hx with rfl | rfl
    · exact ⟨hlist, by omega⟩
    · exact ⟨by omega, hsmall⟩

end Pintos.Malloc
