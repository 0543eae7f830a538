import Pintos.Lib.WordMemory

/-!
# Linked lists in memory

`lib/kernel/list.c`: a node is eight bytes, the address of the node before and that of the node
behind. `Linked` says that the nodes of a list, its head and its tail among them, are linked both
ways. A node is linked in and out by writes to itself and its neighbours, so that apart from these
the nodes keep their links.
-/

namespace Pintos.Lib

namespace Memory

variable {m m' : Memory} {x y z e : Nat} {l pre post : List Nat}

/-- `elem->prev`. -/
def prev (m : Memory) (e : Nat) : Nat := m.load e

/-- `elem->next`. -/
def next (m : Memory) (e : Nat) : Nat := m.load (e + 4)

/-- `elem->prev = v`. -/
def setPrev (m : Memory) (e v : Nat) : Memory := m.store e v

/-- `elem->next = v`. -/
def setNext (m : Memory) (e v : Nat) : Memory := m.store (e + 4) v

/-- `list_insert`, but for its assertions. -/
def linkIn (before elem : Nat) (m : Memory) : Memory :=
  let m := m.setPrev elem (m.prev before)
  let m := m.setNext elem before
  let m := m.setNext (m.prev before) elem
  m.setPrev before elem

/-- `list_remove`, but for its assertion. -/
def linkOut (elem : Nat) (m : Memory) : Memory :=
  let m := m.setNext (m.prev elem) (m.next elem)
  m.setPrev (m.next elem) (m.prev elem)

/-- Consecutive nodes are linked both ways. -/
def Linked (m : Memory) : List Nat → Prop
  | x :: y :: rest => m.next x = y ∧ m.prev y = x ∧ Linked m (y :: rest)
  | _ => True

/-- Two nodes do not overlap. -/
def Apart (x y : Nat) : Prop := x + 8 ≤ y ∨ y + 8 ≤ x

theorem Apart.symm (h : Apart x y) : Apart y x := Or.symm h

/-- A chain is linked up to a node and from it on. -/
theorem linked_append : Linked m (pre ++ x :: post) ↔ Linked m (pre ++ [x]) ∧ Linked m (x :: post) := by
  induction pre with
  | nil => exact (and_iff_right trivial).symm
  | cons a pre ih =>
    cases pre with
    | nil =>
      show m.next a = x ∧ m.prev x = a ∧ _ ↔ (m.next a = x ∧ m.prev x = a ∧ True) ∧ _
      rw [and_true, and_assoc]
    | cons b pre =>
      show m.next a = b ∧ m.prev b = a ∧ Linked m (b :: pre ++ x :: post) ↔
        (m.next a = b ∧ m.prev b = a ∧ Linked m (b :: pre ++ [x])) ∧ Linked m (x :: post)
      rw [ih, and_assoc, and_assoc]

/-- A list keeps its links if its nodes but the last have the same successor, and those but the first
the same predecessor. -/
theorem Linked.congr (h : Linked m l) (hnext : ∀ x ∈ l.dropLast, m'.next x = m.next x)
    (hprev : ∀ x ∈ l.tail, m'.prev x = m.prev x) : Linked m' l := by
  induction l with
  | nil => trivial
  | cons x l ih =>
    cases l with
    | nil => trivial
    | cons y l =>
      obtain ⟨hx, hy, hrest⟩ := h
      refine ⟨(hnext x List.mem_cons_self).trans hx, (hprev y List.mem_cons_self).trans hy, ?_⟩
      exact ih hrest (fun a ha => hnext a (List.mem_cons_of_mem x ha)) fun a ha =>
        hprev a (List.mem_cons_of_mem y ha)

/-! ## Writes to links -/

/-- A link that was written is read back. -/
theorem next_setNext_self {v : Nat} (h : v < 2 ^ 32) : (m.setNext e v).next e = v :=
  load_store_self h

theorem prev_setPrev_self {v : Nat} (h : v < 2 ^ 32) : (m.setPrev e v).prev e = v :=
  load_store_self h

/-- Writing the one leaves the other. -/
theorem next_setPrev {v : Nat} (h : x = e ∨ Apart x e) : (m.setPrev e v).next x = m.next x :=
  load_store_of_apart (by unfold Apart at h; omega)

theorem prev_setNext {v : Nat} (h : x = e ∨ Apart x e) : (m.setNext e v).prev x = m.prev x :=
  load_store_of_apart (by unfold Apart at h; omega)

/-- Nodes that are apart have links that are apart. -/
theorem next_setNext {v : Nat} (h : Apart x e) : (m.setNext e v).next x = m.next x :=
  load_store_of_apart (by unfold Apart at h; omega)

theorem prev_setPrev {v : Nat} (h : Apart x e) : (m.setPrev e v).prev x = m.prev x :=
  load_store_of_apart (by unfold Apart at h; omega)

/-! ## Linking in and out -/

/-- A node is linked in between two that are linked. -/
theorem linkIn_links (hxz : Apart x z) (hex : Apart e x) (hez : Apart e z) (hprev : m.prev z = x)
    (hx : x < 2 ^ 32) (hz : z < 2 ^ 32) (he : e < 2 ^ 32) :
    (linkIn z e m).next x = e ∧ (linkIn z e m).prev e = x ∧ (linkIn z e m).next e = z ∧
      (linkIn z e m).prev z = e ∧
    (∀ y, Apart y x → Apart y e → (y = z ∨ Apart y z) → (linkIn z e m).next y = m.next y) ∧
    ∀ y, Apart y z → Apart y e → (y = x ∨ Apart y x) → (linkIn z e m).prev y = m.prev y := by
  have hback : ((m.setPrev e x).setNext e z).prev z = x := by
    rw [prev_setNext (.inr hez.symm), prev_setPrev hez.symm, hprev]
  unfold linkIn
  rw [hprev]
  dsimp only
  rw [hback]
  refine ⟨?_, ?_, ?_, prev_setPrev_self he, fun y hyx hye hyz => ?_, fun y hyz hye hyx => ?_⟩
  · rw [next_setPrev (.inr hxz), next_setNext_self he]
  · rw [prev_setPrev hez, prev_setNext (.inr hex), prev_setNext (.inl rfl), prev_setPrev_self hx]
  · rw [next_setPrev (.inr hez), next_setNext hex, next_setNext_self hz]
  · rw [next_setPrev hyz, next_setNext hyx, next_setNext hye, next_setPrev (.inr hye)]
  · rw [prev_setPrev hyz, prev_setNext hyx, prev_setNext (.inr hye), prev_setPrev hye]

/-- A node is linked out from between two. -/
theorem linkOut_links (hxz : Apart x z) (hex : Apart e x) (hprev : m.prev e = x)
    (hnext : m.next e = z) (hx : x < 2 ^ 32) (hz : z < 2 ^ 32) :
    (linkOut e m).next x = z ∧ (linkOut e m).prev z = x ∧
    (∀ y, Apart y x → (y = z ∨ Apart y z) → (linkOut e m).next y = m.next y) ∧
    ∀ y, Apart y z → (y = x ∨ Apart y x) → (linkOut e m).prev y = m.prev y := by
  have hnext' : (m.setNext x z).next e = z := by rw [next_setNext hex, hnext]
  have hprev' : (m.setNext x z).prev e = x := by rw [prev_setNext (.inr hex), hprev]
  unfold linkOut
  rw [hprev, hnext]
  dsimp only
  rw [hnext', hprev']
  refine ⟨?_, prev_setPrev_self hx, fun y hyx hyz => ?_, fun y hyz hyx => ?_⟩
  · rw [next_setPrev (.inr hxz), next_setNext_self hz]
  · rw [next_setPrev hyz, next_setNext hyx]
  · rw [prev_setPrev hyz, prev_setNext hyx]

/-- The bytes of other nodes stay when a node is linked in. -/
theorem linkIn_agree {a n : Nat} (hez : Apart e z) (hprev : m.prev z = x)
    (hx : a + n ≤ x ∨ x + 8 ≤ a) (hz : a + n ≤ z ∨ z + 8 ≤ a) (he : a + n ≤ e ∨ e + 8 ≤ a) :
    Agree m (linkIn z e m) a n := by
  have hback : ((m.setPrev e x).setNext e z).prev z = x := by
    rw [prev_setNext (.inr hez.symm), prev_setPrev hez.symm, hprev]
  unfold linkIn
  rw [hprev]
  dsimp only
  rw [hback]
  have h₁ : Agree m (m.setPrev e x) a n := agree_store (by omega)
  have h₂ : Agree (m.setPrev e x) ((m.setPrev e x).setNext e z) a n := agree_store (by omega)
  have h₃ : Agree ((m.setPrev e x).setNext e z) (((m.setPrev e x).setNext e z).setNext x e) a n :=
    agree_store (by omega)
  exact ((h₁.trans h₂).trans h₃).trans (agree_store (by omega))

/-- And when a node is linked out. -/
theorem linkOut_agree {a n : Nat} (hex : Apart e x) (hprev : m.prev e = x) (hnext : m.next e = z)
    (hx : a + n ≤ x ∨ x + 8 ≤ a) (hz : a + n ≤ z ∨ z + 8 ≤ a) : Agree m (linkOut e m) a n := by
  have hnext' : (m.setNext x z).next e = z := by rw [next_setNext hex, hnext]
  unfold linkOut
  rw [hprev, hnext]
  dsimp only
  rw [hnext']
  have h₁ : Agree m (m.setNext x z) a n := agree_store (by omega)
  exact h₁.trans (agree_store (by omega))

/-- Nodes that do not overlap, at addresses that are not null. -/
structure Spaced (l : List Nat) : Prop where
  apart : l.Pairwise Apart
  range : ∀ x ∈ l, 0 < x ∧ x < 2 ^ 32

/-- What two neighbours are to the other nodes. -/
theorem Spaced.neighbours (h : Spaced (pre ++ x :: z :: post)) :
    Apart x z ∧ (∀ y ∈ pre, Apart y x ∧ Apart y z) ∧ ∀ y ∈ post, Apart y x ∧ Apart y z := by
  obtain ⟨-, hrest, hpre⟩ := List.pairwise_append.mp h.apart
  obtain ⟨hx, hrest⟩ := List.pairwise_cons.mp hrest
  obtain ⟨hz, -⟩ := List.pairwise_cons.mp hrest
  refine ⟨hx z List.mem_cons_self, fun y hy => ⟨hpre y hy x List.mem_cons_self, ?_⟩, fun y hy => ⟨?_, ?_⟩⟩
  · exact hpre y hy z (List.mem_cons_of_mem x List.mem_cons_self)
  · exact (hx y (List.mem_cons_of_mem z hy)).symm
  · exact (hz y hy).symm

/-- The order of the nodes does not matter to their being apart. -/
theorem Spaced.perm {l' : List Nat} (h : Spaced l) (hp : l.Perm l') : Spaced l' :=
  ⟨(hp.pairwise_iff Apart.symm).mp h.apart, fun x hx => h.range x (hp.mem_iff.mpr hx)⟩

/-- Some of the nodes are apart, too. -/
theorem Spaced.sublist {l' : List Nat} (h : Spaced l) (hs : l'.Sublist l) : Spaced l' :=
  ⟨h.apart.sublist hs, fun x hx => h.range x (hs.mem hx)⟩

theorem Spaced.tail (h : Spaced (e :: l)) : Spaced l :=
  ⟨(List.pairwise_cons.mp h.apart).2, fun y hy => h.range y (List.mem_cons_of_mem e hy)⟩

/-- A new node is linked in. The first node keeps its `prev`, and the last its `next`. -/
theorem Linked.linkIn (h : Linked m (pre ++ x :: z :: post))
    (hs : Spaced (e :: (pre ++ x :: z :: post))) :
    Linked (linkIn z e m) (pre ++ x :: e :: z :: post) ∧
      (∀ y ∈ pre ++ [x], (Memory.linkIn z e m).prev y = m.prev y) ∧
      ∀ y ∈ z :: post, (Memory.linkIn z e m).next y = m.next y := by
  have he := (List.pairwise_cons.mp hs.apart).1
  obtain ⟨hxz, hpre, hpost⟩ := hs.tail.neighbours
  have hx : x ∈ pre ++ x :: z :: post := List.mem_append_right _ List.mem_cons_self
  have hz : z ∈ pre ++ x :: z :: post :=
    List.mem_append_right _ (List.mem_cons_of_mem _ List.mem_cons_self)
  obtain ⟨hleft, -, hprev, hright⟩ := linked_append.mp h
  obtain ⟨h₁, h₂, h₃, h₄, hnexts, hprevs⟩ := linkIn_links hxz (he x hx) (he z hz) hprev
    (hs.tail.range x hx).2 (hs.tail.range z hz).2 (hs.range e List.mem_cons_self).2
  have hout : ∀ y ∈ pre, Apart y e := fun y hy => (he y (List.mem_append_left _ hy)).symm
  have hout' : ∀ y ∈ post, Apart y e := fun y hy =>
    (he y (List.mem_append_right _ (List.mem_cons_of_mem _ (List.mem_cons_of_mem _ hy)))).symm
  have hfirst : ∀ y ∈ pre ++ [x], (Memory.linkIn z e m).prev y = m.prev y := by
    intro y hy
    rcases List.mem_append.mp hy with hy | hy
    · exact hprevs y (hpre y hy).2 (hout y hy) (.inr (hpre y hy).1)
    · rw [List.mem_singleton.mp hy]
      exact hprevs x hxz (he x hx).symm (.inl rfl)
  have hlast : ∀ y ∈ z :: post, (Memory.linkIn z e m).next y = m.next y := by
    intro y hy
    rcases List.mem_cons.mp hy with rfl | hy
    · exact hnexts y hxz.symm (he y hz).symm (.inl rfl)
    · exact hnexts y (hpost y hy).1 (hout' y hy) (.inr (hpost y hy).2)
  refine ⟨linked_append.mpr ⟨hleft.congr ?_ ?_, h₁, h₂, h₃, h₄, hright.congr ?_ ?_⟩, hfirst, hlast⟩
  · intro y hy
    rw [List.dropLast_concat] at hy
    exact hnexts y (hpre y hy).1 (hout y hy) (.inr (hpre y hy).2)
  · exact fun y hy => hfirst y (List.mem_of_mem_tail hy)
  · exact fun y hy => hlast y (List.dropLast_subset _ hy)
  · intro y hy
    exact hprevs y (hpost y hy).2 (hout' y hy) (.inr (hpost y hy).1)

/-- A node of the list is linked out. -/
theorem Linked.linkOut (h : Linked m (pre ++ x :: e :: z :: post))
    (hs : Spaced (pre ++ x :: e :: z :: post)) :
    Linked (linkOut e m) (pre ++ x :: z :: post) ∧
      (∀ y ∈ pre ++ [x], (Memory.linkOut e m).prev y = m.prev y) ∧
      ∀ y ∈ z :: post, (Memory.linkOut e m).next y = m.next y := by
  obtain ⟨hxe, hpre, hpost⟩ := hs.neighbours
  have hshift : pre ++ x :: e :: z :: post = (pre ++ [x]) ++ e :: z :: post := by
    rw [List.append_assoc]
    rfl
  obtain ⟨hez, hpre', hpost'⟩ := Spaced.neighbours (hshift ▸ hs)
  have hxz : Apart x z := (hpost z List.mem_cons_self).1.symm
  have hx : x ∈ pre ++ x :: e :: z :: post := List.mem_append_right _ List.mem_cons_self
  have hz : z ∈ pre ++ x :: e :: z :: post := List.mem_append_right _
    (List.mem_cons_of_mem _ (List.mem_cons_of_mem _ List.mem_cons_self))
  obtain ⟨hleft, -, hprev, hnext, -, hright⟩ := linked_append.mp h
  obtain ⟨h₁, h₂, hnexts, hprevs⟩ := linkOut_links hxz hxe.symm hprev hnext
    (hs.range x hx).2 (hs.range z hz).2
  have hprez : ∀ y ∈ pre, Apart y z := fun y hy => (hpre' y (List.mem_append_left _ hy)).2
  have hpostx : ∀ y ∈ post, Apart y x := fun y hy => (hpost y (List.mem_cons_of_mem z hy)).1
  have hfirst : ∀ y ∈ pre ++ [x], (Memory.linkOut e m).prev y = m.prev y := by
    intro y hy
    rcases List.mem_append.mp hy with hy | hy
    · exact hprevs y (hprez y hy) (.inr (hpre y hy).1)
    · rw [List.mem_singleton.mp hy]
      exact hprevs x hxz (.inl rfl)
  have hlast : ∀ y ∈ z :: post, (Memory.linkOut e m).next y = m.next y := by
    intro y hy
    rcases List.mem_cons.mp hy with rfl | hy
    · exact hnexts y hxz.symm (.inl rfl)
    · exact hnexts y (hpostx y hy) (.inr (hpost' y hy).2)
  refine ⟨linked_append.mpr ⟨hleft.congr ?_ ?_, h₁, h₂, hright.congr ?_ ?_⟩, hfirst, hlast⟩
  · intro y hy
    rw [List.dropLast_concat] at hy
    exact hnexts y (hpre y hy).1 (.inr (hprez y hy))
  · exact fun y hy => hfirst y (List.mem_of_mem_tail hy)
  · exact fun y hy => hlast y (List.dropLast_subset _ hy)
  · intro y hy
    exact hprevs y (hpost' y hy).2 (.inr (hpostx y hy))

end Memory

end Pintos.Lib
