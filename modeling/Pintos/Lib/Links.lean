import Mathlib.Data.List.Chain
import Mathlib.Data.List.Nodup
import Mathlib.Logic.Function.Basic

/-!
# Doubly linked nodes

A heap of nodes, each with a link to the node before and one to the node behind. `join` links two nodes
with each other; two chains become one when the last node of the first is joined with the first of the
second (`chain_join`), and a chain stays as it is when its links are not the ones that are written
(`Chain.join_other`).
-/

namespace Pintos.Lib

@[ext]
structure Links (α : Type*) where
  prev : α → α
  next : α → α

namespace Links

variable {α : Type*} [DecidableEq α] {h h' : Links α} {a b n : α} {A B l : List α}

/-- The links from `a` on to `b` and back. -/
def join (h : Links α) (a b : α) : Links α where
  prev := Function.update h.prev b a
  next := Function.update h.next a b

/-- One node follows the other. -/
def Follows (h : Links α) (a b : α) : Prop := h.next a = b ∧ h.prev b = a

/-- Nodes that follow one another. -/
abbrev Chain (h : Links α) (l : List α) : Prop := l.IsChain h.Follows

theorem join_next (h : Links α) (a b : α) : (h.join a b).next a = b := Function.update_self ..

theorem join_prev (h : Links α) (a b : α) : (h.join a b).prev b = a := Function.update_self ..

theorem join_next_of_ne (hn : n ≠ a) : (h.join a b).next n = h.next n := Function.update_of_ne hn ..

theorem join_prev_of_ne (hn : n ≠ b) : (h.join a b).prev n = h.prev n := Function.update_of_ne hn ..

omit [DecidableEq α] in
/-- The links that a chain is about. -/
theorem Chain.congr (hc : h.Chain l) (hnext : ∀ x ∈ l.dropLast, h'.next x = h.next x)
    (hprev : ∀ x ∈ l.tail, h'.prev x = h.prev x) : h'.Chain l := by
  induction l with
  | nil => exact List.isChain_nil
  | cons x l ih =>
    cases l with
    | nil => exact List.isChain_singleton x
    | cons y l =>
      obtain ⟨⟨hx, hy⟩, hrest⟩ := List.isChain_cons_cons.mp hc
      refine List.isChain_cons_cons.mpr ⟨⟨?_, ?_⟩, ih hrest (fun z hz => ?_) fun z hz => ?_⟩
      · exact (hnext x List.mem_cons_self).trans hx
      · exact (hprev y List.mem_cons_self).trans hy
      · exact hnext z (List.mem_cons_of_mem x hz)
      · exact hprev z (List.mem_cons_of_mem y hz)

/-- A chain that has neither link. -/
theorem Chain.join_other (hc : h.Chain l) (ha : a ∉ l.dropLast) (hb : b ∉ l.tail) : (h.join a b).Chain l :=
  hc.congr (fun _ hx => join_next_of_ne fun heq => ha (heq ▸ hx))
    fun _ hx => join_prev_of_ne fun heq => hb (heq ▸ hx)

/-- Two chains are joined. -/
theorem chain_join (hA : h.Chain (A ++ [a])) (hB : h.Chain (b :: B)) (hn : (A ++ a :: b :: B).Nodup) :
    (h.join a b).Chain (A ++ a :: b :: B) := by
  obtain ⟨-, hright, hdisj⟩ := List.nodup_append'.mp hn
  obtain ⟨ha, hright⟩ := List.nodup_cons.mp hright
  obtain ⟨hb, -⟩ := List.nodup_cons.mp hright
  have haA : a ∉ A := fun hmem => hdisj hmem List.mem_cons_self
  have hbA : b ∉ A := fun hmem => hdisj hmem (List.mem_cons_of_mem a List.mem_cons_self)
  have hab : b ≠ a := fun heq => ha (heq ▸ List.mem_cons_self)
  refine List.isChain_append_cons_cons.mpr ⟨hA.join_other ?_ ?_, ⟨join_next .., join_prev ..⟩,
    hB.join_other ?_ hb⟩
  · rw [List.dropLast_concat]
    exact haA
  · intro hmem
    rcases List.mem_append.mp (List.mem_of_mem_tail hmem) with hmem | hmem
    · exact hbA hmem
    · exact hab (List.mem_singleton.mp hmem)
  · exact fun hmem => ha (List.dropLast_subset _ hmem)

omit [DecidableEq α] in
/-- A chain backwards. -/
theorem Chain.reverse (hc : h.Chain l) (hnext : ∀ x ∈ l.tail, h'.next x = h.prev x)
    (hprev : ∀ x ∈ l.dropLast, h'.prev x = h.next x) : h'.Chain l.reverse := by
  rw [Chain, List.isChain_reverse]
  induction l with
  | nil => exact List.isChain_nil
  | cons x l ih =>
    cases l with
    | nil => exact List.isChain_singleton x
    | cons y l =>
      obtain ⟨⟨hx, hy⟩, hrest⟩ := List.isChain_cons_cons.mp hc
      refine List.isChain_cons_cons.mpr ⟨⟨?_, ?_⟩, ih hrest (fun z hz => ?_) fun z hz => ?_⟩
      · exact (hnext y List.mem_cons_self).trans hy
      · exact (hprev x List.mem_cons_self).trans hx
      · exact hnext z (List.mem_cons_of_mem y hz)
      · exact hprev z (List.mem_cons_of_mem x hz)

end Links

end Pintos.Lib
