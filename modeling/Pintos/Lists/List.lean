import Pintos.Lib.Fallible
import Pintos.Lib.Links

/-!
# Intrusive lists

`lib/kernel/list.c` on a heap of nodes. A `struct list_elem *` is a number, 0 being the null pointer;
to follow a null pointer is a fault, `null`, and so is an assertion that fails. `less` is given two
elements, with its auxiliary data.

The loops have fuel, which counts their rounds. The number of runs in `list_sort` is at most that of the
elements, which are different objects in memory, so it does not overflow.
-/

namespace Pintos.Lists

open Pintos.Lib

inductive ListFault where
  /-- A null pointer that is followed. -/
  | null
  | assertion
  /-- The fuel is not enough. -/
  | notDone
  deriving DecidableEq, Repr

/-- The `prev` and `next` of every `struct list_elem`. -/
abbrev Heap := Links Nat

/-- A `struct list *`: `&list->head` and `&list->tail`. -/
structure ListRef where
  head : Nat
  tail : Nat
  deriving DecidableEq, Repr

abbrev Less := Nat → Nat → Bool

def assert (c : Prop) [Decidable c] : Except ListFault Unit := if c then .ok () else .error .assertion

/-- `e->prev`. -/
def prevOf (e : Nat) (h : Heap) : Except ListFault Nat := if e = 0 then .error .null else .ok (h.prev e)

/-- `e->next`. -/
def nextOf (e : Nat) (h : Heap) : Except ListFault Nat := if e = 0 then .error .null else .ok (h.next e)

/-- `e->prev = v`. -/
def setPrev (e v : Nat) (h : Heap) : Except ListFault Heap :=
  if e = 0 then .error .null else .ok { h with prev := Function.update h.prev e v }

/-- `e->next = v`. -/
def setNext (e v : Nat) (h : Heap) : Except ListFault Heap :=
  if e = 0 then .error .null else .ok { h with next := Function.update h.next e v }

/-! ## Walking -/

def isHead (h : Heap) (elem : Nat) : Prop := elem ≠ 0 ∧ h.prev elem = 0 ∧ h.next elem ≠ 0

def isInterior (h : Heap) (elem : Nat) : Prop := elem ≠ 0 ∧ h.prev elem ≠ 0 ∧ h.next elem ≠ 0

def isTail (h : Heap) (elem : Nat) : Prop := elem ≠ 0 ∧ h.prev elem ≠ 0 ∧ h.next elem = 0

instance (h : Heap) (elem : Nat) : Decidable (isHead h elem) := inferInstanceAs (Decidable (_ ∧ _))

instance (h : Heap) (elem : Nat) : Decidable (isInterior h elem) := inferInstanceAs (Decidable (_ ∧ _))

instance (h : Heap) (elem : Nat) : Decidable (isTail h elem) := inferInstanceAs (Decidable (_ ∧ _))

/-- `list_begin`. -/
def listBegin (list : ListRef) (h : Heap) : Except ListFault Nat := do
  assert (list.head ≠ 0)
  nextOf list.head h

/-- `list_end`. -/
def listEnd (list : ListRef) : Except ListFault Nat := do
  assert (list.head ≠ 0)
  .ok list.tail

/-- `list_next`. -/
def listNext (elem : Nat) (h : Heap) : Except ListFault Nat := do
  assert (isHead h elem ∨ isInterior h elem)
  nextOf elem h

/-- `list_prev`. -/
def listPrev (elem : Nat) (h : Heap) : Except ListFault Nat := do
  assert (isInterior h elem ∨ isTail h elem)
  prevOf elem h

/-- `list_empty`. -/
def listEmpty (list : ListRef) (h : Heap) : Except ListFault Bool := do
  let first ← listBegin list h
  let last ← listEnd list
  .ok (first = last)

/-- `list_front`. -/
def listFront (list : ListRef) (h : Heap) : Except ListFault Nat := do
  let empty ← listEmpty list h
  assert (empty = false)
  nextOf list.head h

/-- `list_back`. -/
def listBack (list : ListRef) (h : Heap) : Except ListFault Nat := do
  let empty ← listEmpty list h
  assert (empty = false)
  prevOf list.tail h

/-! ## Insertion and removal -/

/-- `list_insert`. -/
def listInsert (before elem : Nat) (h : Heap) : Except ListFault Heap := do
  assert (isInterior h before ∨ isTail h before)
  assert (elem ≠ 0)
  let p ← prevOf before h
  let h ← setPrev elem p h
  let h ← setNext elem before h
  let p ← prevOf before h
  let h ← setNext p elem h
  setPrev before elem h

/-- `list_splice`. -/
def listSplice (before first last : Nat) (h : Heap) : Except ListFault Heap := do
  assert (isInterior h before ∨ isTail h before)
  if first = last then .ok h
  else do
    let last ← listPrev last h
    assert (isInterior h first)
    assert (isInterior h last)
    -- remove from the current list
    let p ← prevOf first h
    let n ← nextOf last h
    let h ← setNext p n h
    let n ← nextOf last h
    let p ← prevOf first h
    let h ← setPrev n p h
    -- put into the new list
    let p ← prevOf before h
    let h ← setPrev first p h
    let h ← setNext last before h
    let p ← prevOf before h
    let h ← setNext p first h
    setPrev before last h

/-- `list_push_front`. -/
def listPushFront (list : ListRef) (elem : Nat) (h : Heap) : Except ListFault Heap := do
  let first ← listBegin list h
  listInsert first elem h

/-- `list_push_back`. -/
def listPushBack (list : ListRef) (elem : Nat) (h : Heap) : Except ListFault Heap := do
  let last ← listEnd list
  listInsert last elem h

/-- `list_remove`: the element behind the one that is removed. -/
def listRemove (elem : Nat) (h : Heap) : Except ListFault (Nat × Heap) := do
  assert (isInterior h elem)
  let p ← prevOf elem h
  let n ← nextOf elem h
  let h ← setNext p n h
  let n ← nextOf elem h
  let p ← prevOf elem h
  let h ← setPrev n p h
  let n ← nextOf elem h
  .ok (n, h)

/-- `list_pop_front`. -/
def listPopFront (list : ListRef) (h : Heap) : Except ListFault (Nat × Heap) := do
  let front ← listFront list h
  let r ← listRemove front h
  .ok (front, r.2)

/-- `list_pop_back`. -/
def listPopBack (list : ListRef) (h : Heap) : Except ListFault (Nat × Heap) := do
  let back ← listBack list h
  let r ← listRemove back h
  .ok (back, r.2)

/-! ## `list_reverse` -/

/-- `swap (&e->prev, &e->next)`. -/
def swapLinks (e : Nat) (h : Heap) : Except ListFault Heap := do
  let t ← prevOf e h
  let n ← nextOf e h
  let h ← setPrev e n h
  setNext e t h

/-- `swap (&a->next, &b->prev)`. -/
def swapEnds (a b : Nat) (h : Heap) : Except ListFault Heap := do
  let t ← nextOf a h
  let p ← prevOf b h
  let h ← setNext a p h
  setPrev b t h

/-- The loop over the elements. -/
def reverseLoop (list : ListRef) : Nat → Nat → Heap → Except ListFault Heap
  | 0, _, _ => .error .notDone
  | fuel + 1, e, h => do
    let last ← listEnd list
    if e ≠ last then do
      let h ← swapLinks e h
      let e ← prevOf e h
      reverseLoop list fuel e h
    else .ok h

/-- `list_reverse`. -/
def listReverse (list : ListRef) (fuel : Nat) (h : Heap) : Except ListFault Heap := do
  let empty ← listEmpty list h
  if empty then .ok h
  else do
    let e ← listBegin list h
    let h ← reverseLoop list fuel e h
    let h ← swapEnds list.head list.tail h
    let first ← nextOf list.head h
    let last ← prevOf list.tail h
    -- `swap (&list->head.next->prev, &list->tail.prev->next)`
    let t ← prevOf first h
    let n ← nextOf last h
    let h ← setPrev first n h
    setNext last t h

/-! ## Ordered lists -/

/-- The loop of `list_insert_ordered`. -/
def orderedLoop (list : ListRef) (elem : Nat) (less : Less) (h : Heap) : Nat → Nat → Except ListFault Nat
  | 0, _ => .error .notDone
  | fuel + 1, e => do
    let last ← listEnd list
    if e ≠ last then
      if less elem e then .ok e
      else do
        let e ← listNext e h
        orderedLoop list elem less h fuel e
    else .ok e

/-- `list_insert_ordered`. -/
def listInsertOrdered (list : ListRef) (elem : Nat) (less : Less) (fuel : Nat) (h : Heap) :
    Except ListFault Heap := do
  assert (list.head ≠ 0)
  assert (elem ≠ 0)
  let e ← listBegin list h
  let e ← orderedLoop list elem less h fuel e
  listInsert e elem h

/-- What `list_unique` does with an element that it has removed. -/
def keepDuplicate (duplicates : Option ListRef) (elem : Nat) (h : Heap) : Except ListFault Heap :=
  match duplicates with
  | none => .ok h
  | some duplicates => listPushBack duplicates elem h

/-- The loop of `list_unique`. -/
def uniqueLoop (list : ListRef) (duplicates : Option ListRef) (less : Less) :
    Nat → Nat → Heap → Except ListFault Heap
  | 0, _, _ => .error .notDone
  | fuel + 1, elem, h => do
    let next ← listNext elem h
    let last ← listEnd list
    if next ≠ last then
      if !less elem next && !less next elem then do
        let r ← listRemove next h
        let h ← keepDuplicate duplicates next r.2
        uniqueLoop list duplicates less fuel elem h
      else uniqueLoop list duplicates less fuel next h
    else .ok h

/-- `list_unique`. -/
def listUnique (list : ListRef) (duplicates : Option ListRef) (less : Less) (fuel : Nat) (h : Heap) :
    Except ListFault Heap := do
  assert (list.head ≠ 0)
  let empty ← listEmpty list h
  if empty then .ok h
  else do
    let elem ← listBegin list h
    uniqueLoop list duplicates less fuel elem h

/-! ## `list_sort` -/

/-- The loop of `is_sorted`. -/
def sortedLoop (less : Less) (b : Nat) (h : Heap) : Nat → Nat → Except ListFault Bool
  | 0, _ => .error .notDone
  | fuel + 1, a => do
    let a ← listNext a h
    if a ≠ b then do
      let p ← listPrev a h
      if less a p then .ok false
      else sortedLoop less b h fuel a
    else .ok true

/-- `is_sorted`. -/
def isSorted (a b : Nat) (less : Less) (fuel : Nat) (h : Heap) : Except ListFault Bool :=
  if a ≠ b then sortedLoop less b h fuel a else .ok true

/-- The loop of `find_end_of_run`. -/
def runLoop (less : Less) (b : Nat) (h : Heap) : Nat → Nat → Except ListFault Nat
  | 0, _ => .error .notDone
  | fuel + 1, a => do
    let a ← listNext a h
    if a ≠ b then do
      let p ← listPrev a h
      if less a p then .ok a
      else runLoop less b h fuel a
    else .ok a

/-- `find_end_of_run`. -/
def findEndOfRun (a b : Nat) (less : Less) (fuel : Nat) (h : Heap) : Except ListFault Nat := do
  assert (a ≠ 0)
  assert (b ≠ 0)
  assert (a ≠ b)
  runLoop less b h fuel a

/-- The loop of `inplace_merge`. -/
def mergeLoop (less : Less) (b1 : Nat) : Nat → Nat → Nat → Heap → Except ListFault Heap
  | 0, _, _, _ => .error .notDone
  | fuel + 1, a0, a1b0, h =>
    if a0 ≠ a1b0 ∧ a1b0 ≠ b1 then
      if less a1b0 a0 then do
        let a1b0 ← listNext a1b0 h
        let p ← listPrev a1b0 h
        let h ← listSplice a0 p a1b0 h
        mergeLoop less b1 fuel a0 a1b0 h
      else do
        let a0 ← listNext a0 h
        mergeLoop less b1 fuel a0 a1b0 h
    else .ok h

/-- `inplace_merge`. -/
def inplaceMerge (a0 a1b0 b1 : Nat) (less : Less) (fuel : Nat) (h : Heap) : Except ListFault Heap := do
  assert (a0 ≠ 0)
  assert (a1b0 ≠ 0)
  assert (b1 ≠ 0)
  let sorted ← isSorted a0 a1b0 less fuel h
  assert (sorted = true)
  let sorted ← isSorted a1b0 b1 less fuel h
  assert (sorted = true)
  mergeLoop less b1 fuel a0 a1b0 h

/-- One pass over the list: the runs that are put out, and the heap. The outer fuel counts pairs of
runs. -/
def passLoop (list : ListRef) (less : Less) (fuel : Nat) :
    Nat → Nat → Nat → Heap → Except ListFault (Nat × Heap)
  | 0, _, _, _ => .error .notDone
  | rounds + 1, a0, outputRunCnt, h => do
    let last ← listEnd list
    if a0 ≠ last then do
      let a1b0 ← findEndOfRun a0 last less fuel h
      if a1b0 = last then .ok (outputRunCnt + 1, h)
      else do
        let b1 ← findEndOfRun a1b0 last less fuel h
        let h ← inplaceMerge a0 a1b0 b1 less fuel h
        passLoop list less fuel rounds b1 (outputRunCnt + 1) h
    else .ok (outputRunCnt, h)

/-- The passes. -/
def sortLoop (list : ListRef) (less : Less) (fuel : Nat) : Nat → Heap → Except ListFault Heap
  | 0, _ => .error .notDone
  | rounds + 1, h => do
    let a0 ← listBegin list h
    let pass ← passLoop list less fuel fuel a0 0 h
    if 1 < pass.1 then sortLoop list less fuel rounds pass.2
    else .ok pass.2

/-- `list_sort`. -/
def listSort (list : ListRef) (less : Less) (fuel : Nat) (h : Heap) : Except ListFault Heap := do
  assert (list.head ≠ 0)
  let h ← sortLoop list less fuel fuel h
  let first ← listBegin list h
  let last ← listEnd list
  let sorted ← isSorted first last less fuel h
  assert (sorted = true)
  .ok h

end Pintos.Lists
