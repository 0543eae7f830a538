import Mathlib.Data.List.Range
import Pintos.Lib.Chain
import Pintos.Lib.Fallible

/-!
# The kernel heap

`threads/malloc.c` on a memory of bytes: the headers of arenas, the links of the free lists and the
bytes of the callers are all in it. A call runs to its end before the next; the locks of the
descriptors are left out.

The page allocator is in the environment: a call comes with the page that `palloc_get_multiple` would
return, of pages that it has not handed out. `live` is a ghost that only says what callers may do: the
blocks they hold, with the sizes they asked for.

A write past the end of a block is a fault, `overrun`: what it hits is not followed.
-/

namespace Pintos.Malloc

open Pintos.Lib

/-! ## Descriptors -/

/-- `struct desc`, but for its free list and its lock. -/
structure Desc where
  blockSize : Nat
  blocksPerArena : Nat
  deriving DecidableEq, Repr, Inhabited

/-- The loop of `malloc_init`. -/
def mallocInitLoop : Nat → Nat → List Desc
  | 0, _ => []
  | n + 1, blockSize =>
    if blockSize < 4096 / 2 then
      { blockSize := blockSize, blocksPerArena := (4096 - 12) / blockSize } ::
        mallocInitLoop n (blockSize * 2)
    else []

/-- `descs`, the first `desc_cnt` of them. The block size doubles, so 32 iterations are enough. -/
def descs : List Desc := mallocInitLoop 32 16

/-- `descs[i]`. -/
def desc (i : Nat) : Desc := descs.getD i default

/-- `ARENA_MAGIC`. -/
def arenaMagic : Nat := 0x9a548eed

/-! ## The state -/

inductive Assertion where
  /-- `a != NULL` in `block_to_arena` and `arena_to_block`. -/
  | arenaNull
  /-- `a->magic == ARENA_MAGIC` there. -/
  | arenaMagic
  /-- The two about `pg_ofs (b)` in `block_to_arena`. -/
  | blockOffset
  /-- `idx < a->desc->blocks_per_arena` in `arena_to_block`. -/
  | blockIndex
  /-- `a->free_cnt == d->blocks_per_arena` in `free`. -/
  | freeCnt
  /-- `is_interior (before) || is_tail (before)` in `list_insert`. -/
  | listBefore
  /-- `elem != NULL` there. -/
  | listElem
  /-- `is_interior (elem)` in `list_remove`. -/
  | listInterior
  /-- `!list_empty (list)` in `list_front`. -/
  | listEmpty
  /-- `pg_ofs (pages) == 0` in `palloc_free_multiple`. -/
  | pageOffset
  /-- `bitmap_all` there. -/
  | pagesUsed
  deriving DecidableEq, Repr

inductive Fault where
  | panic (a : Assertion)
  /-- The `desc` of an arena is read that is no descriptor. -/
  | wildDesc
  /-- A block is written past its end. -/
  | overrun
  /-- The step cannot be taken in this state; not a fault of the kernel. -/
  | notEnabled
  deriving DecidableEq, Repr

/-- `ASSERT`. -/
def assert (a : Assertion) (c : Prop) [Decidable c] : Except Fault Unit :=
  if c then .ok () else .error (.panic a)

structure Heap where
  mem : Memory
  /-- Where `descs` is. -/
  descsAddr : Nat
  /-- The pages that the page allocator has handed out to the heap. -/
  pages : List Nat
  live : List (Nat × Nat)

/-- `&descs[i]`; a `struct desc` has 48 bytes. -/
def Heap.descAddr (h : Heap) (i : Nat) : Nat := h.descsAddr + 48 * i

/-- `&descs[i].free_list`. -/
def Heap.freeList (h : Heap) (i : Nat) : Nat := h.descAddr i + 8

/-! ## Lists -/

def isInterior (m : Memory) (elem : Nat) : Prop := elem ≠ 0 ∧ m.prev elem ≠ 0 ∧ m.next elem ≠ 0

def isTail (m : Memory) (elem : Nat) : Prop := elem ≠ 0 ∧ m.prev elem ≠ 0 ∧ m.next elem = 0

instance (m : Memory) (elem : Nat) : Decidable (isInterior m elem) := by
  unfold isInterior
  infer_instance

instance (m : Memory) (elem : Nat) : Decidable (isTail m elem) := by
  unfold isTail
  infer_instance

/-- `list_init`; the head of a list is its first node, and the tail the one behind it. -/
def listInit (list : Nat) (m : Memory) : Memory :=
  let m := m.setPrev list 0
  let m := m.setNext list (list + 8)
  let m := m.setPrev (list + 8) list
  m.setNext (list + 8) 0

/-- `list_empty`. -/
def listEmpty (list : Nat) (m : Memory) : Bool := m.next list == list + 8

/-- `list_insert`. -/
def listInsert (before elem : Nat) (m : Memory) : Except Fault Memory := do
  assert .listBefore (isInterior m before ∨ isTail m before)
  assert .listElem (elem ≠ 0)
  .ok (m.linkIn before elem)

/-- `list_push_front`. -/
def listPushFront (list elem : Nat) (m : Memory) : Except Fault Memory :=
  listInsert (m.next list) elem m

/-- `list_push_back`. -/
def listPushBack (list elem : Nat) (m : Memory) : Except Fault Memory :=
  listInsert (list + 8) elem m

/-- `list_remove`. -/
def listRemove (elem : Nat) (m : Memory) : Except Fault Memory := do
  assert .listInterior (isInterior m elem)
  .ok (m.linkOut elem)

/-- `list_pop_front`. -/
def listPopFront (list : Nat) (m : Memory) : Except Fault (Nat × Memory) := do
  assert .listEmpty (listEmpty list m = false)
  let front := m.next list
  let m ← listRemove front m
  .ok (front, m)

/-! ## Pages -/

/-- What the page allocator may return: pages that it has not handed out. `descs` is in none that it
can hand out. -/
def Heap.Fresh (h : Heap) (page pageCnt : Nat) : Prop :=
  0 < page ∧ page + pageCnt ≤ 2 ^ 20 ∧
    (4096 * (page + pageCnt) ≤ h.descsAddr ∨ h.descsAddr + 480 ≤ 4096 * page) ∧
    ∀ p ∈ h.pages, p < page ∨ page + pageCnt ≤ p

instance (h : Heap) (page pageCnt : Nat) : Decidable (h.Fresh page pageCnt) := by
  unfold Heap.Fresh
  infer_instance

/-- `palloc_get_multiple (0, page_cnt)`; `page` says what there is. -/
def pallocGetMultiple (page : Option Nat) (pageCnt : Nat) (h : Heap) :
    Except Fault (Option Nat × Heap) :=
  if pageCnt = 0 then .ok (none, h)
  else
    match page with
    | none => .ok (none, h)
    | some p =>
      if h.Fresh p pageCnt then
        .ok (some (4096 * p), { h with pages := List.range' p pageCnt ++ h.pages })
      else .error .notEnabled

/-- `bitmap_all` of pages. -/
def Heap.Uses (h : Heap) (page pageCnt : Nat) : Prop := ∀ p ∈ List.range' page pageCnt, p ∈ h.pages

instance (h : Heap) (page pageCnt : Nat) : Decidable (h.Uses page pageCnt) := by
  unfold Heap.Uses
  infer_instance

/-- `palloc_free_multiple`. -/
def pallocFreeMultiple (pages pageCnt : Nat) (h : Heap) : Except Fault Heap := do
  assert .pageOffset (pages % 4096 = 0)
  if pages = 0 ∨ pageCnt = 0 then .ok h
  else do
    assert .pagesUsed (h.Uses (pages / 4096) pageCnt)
    .ok { h with
      mem := h.mem.fill pages (4096 * pageCnt % 2 ^ 32) 0xcc
      pages := h.pages.filter (· ∉ List.range' (pages / 4096) pageCnt) }

/-! ## Arenas -/

/-- `a->desc`. -/
def arenaDesc (a : Nat) (h : Heap) : Except Fault (Option Nat) :=
  let d := h.mem.load (a + 4)
  if d = 0 then .ok none
  else
    match (List.range descs.length).find? fun i => h.descAddr i == d with
    | some i => .ok (some i)
    | none => .error .wildDesc

/-- `a->free_cnt`. -/
def Heap.freeCnt (h : Heap) (a : Nat) : Nat := h.mem.load (a + 8)

/-- The three fields of an arena. -/
def setArena (a d freeCnt : Nat) (m : Memory) : Memory :=
  let m := m.store a arenaMagic
  let m := m.store (a + 4) d
  m.store (a + 8) freeCnt

/-- `block_to_arena`, with the descriptor of the arena. -/
def blockToArena (b : Nat) (h : Heap) : Except Fault (Nat × Option Nat) := do
  let a := b / 4096 * 4096
  assert .arenaNull (a ≠ 0)
  assert .arenaMagic (h.mem.load a = arenaMagic)
  match ← arenaDesc a h with
  | some i => do
    assert .blockOffset ((b % 4096 + (2 ^ 32 - 12)) % 2 ^ 32 % (desc i).blockSize = 0)
    .ok (a, some i)
  | none => do
    assert .blockOffset (b % 4096 = 12)
    .ok (a, none)

/-- `arena_to_block`, in an arena of the descriptor `i`. -/
def arenaToBlock (i a idx : Nat) (h : Heap) : Except Fault Nat := do
  assert .arenaNull (a ≠ 0)
  assert .arenaMagic (h.mem.load a = arenaMagic)
  assert .blockIndex (idx < (desc i).blocksPerArena)
  .ok (a + 12 + idx * (desc i).blockSize)

/-- `block_size`. -/
def blockSize (b : Nat) (h : Heap) : Except Fault Nat := do
  let (a, d) ← blockToArena b h
  match d with
  | some i => .ok (desc i).blockSize
  | none => .ok ((4096 * h.freeCnt a + (2 ^ 32 - b % 4096)) % 2 ^ 32)

/-! ## `malloc` -/

/-- The loop of `malloc` that adds the blocks of a new arena to the free list. -/
def addBlocks (i a : Nat) : List Nat → Heap → Except Fault Heap
  | [], h => .ok h
  | k :: ks, h => do
    let b ← arenaToBlock i a k h
    let mem ← listPushBack (h.freeList i) b h.mem
    addBlocks i a ks { h with mem := mem }

/-- The end of `malloc`: a block from the free list. -/
def takeBlock (i : Nat) (h : Heap) : Except Fault (Nat × Heap) := do
  let (b, mem) ← listPopFront (h.freeList i) h.mem
  let h := { h with mem := mem }
  let (a, _) ← blockToArena b h
  .ok (b, { h with mem := h.mem.store (a + 8) ((h.freeCnt a + (2 ^ 32 - 1)) % 2 ^ 32) })

/-- `malloc` of a block that a descriptor has. -/
def mallocSmall (i : Nat) (page : Option Nat) (h : Heap) : Except Fault (Option Nat × Heap) :=
  if listEmpty (h.freeList i) h.mem then do
    match ← pallocGetMultiple page 1 h with
    | (none, h) => .ok (none, h)
    | (some a, h) => do
      let h := { h with mem := setArena a (h.descAddr i) (desc i).blocksPerArena h.mem }
      let h ← addBlocks i a (List.range (desc i).blocksPerArena) h
      let (b, h) ← takeBlock i h
      .ok (some b, h)
  else do
    let (b, h) ← takeBlock i h
    .ok (some b, h)

/-- `DIV_ROUND_UP (size + sizeof *a, PGSIZE)`, in 32 bits. -/
def pageCount (size : Nat) : Nat := ((size + 12) % 2 ^ 32 + 4095) % 2 ^ 32 / 4096

/-- `malloc` of a block with pages of its own. -/
def mallocBig (size : Nat) (page : Option Nat) (h : Heap) : Except Fault (Option Nat × Heap) := do
  match ← pallocGetMultiple page (pageCount size) h with
  | (none, h) => .ok (none, h)
  | (some a, h) => .ok (some (a + 12), { h with mem := setArena a 0 (pageCount size) h.mem })

/-- The smallest descriptor for a size. -/
def findDesc (size : Nat) : Option Nat :=
  (List.range descs.length).find? fun i => size ≤ (desc i).blockSize

/-- `malloc`. -/
def malloc (size : Nat) (page : Option Nat) (h : Heap) : Except Fault (Option Nat × Heap) :=
  if size = 0 then .ok (none, h)
  else do
    let (b, h) ← match findDesc size with
      | none => mallocBig size page h
      | some i => mallocSmall i page h
    .ok (b, { h with live := (b.map fun b => (b, size)).toList ++ h.live })

/-! ## `free` -/

/-- The loop of `free` that takes the blocks of an arena off the free list. -/
def removeBlocks (i a : Nat) : List Nat → Heap → Except Fault Heap
  | [], h => .ok h
  | k :: ks, h => do
    let b ← arenaToBlock i a k h
    let mem ← listRemove b h.mem
    removeBlocks i a ks { h with mem := mem }

/-- `free` of a block of the descriptor `i`. -/
def freeSmall (i a b : Nat) (h : Heap) : Except Fault Heap := do
  let mem ← listPushFront (h.freeList i) b (h.mem.fill b (desc i).blockSize 0xcc)
  let h := { h with mem := mem.store (a + 8) ((mem.load (a + 8) + 1) % 2 ^ 32) }
  if (desc i).blocksPerArena ≤ h.freeCnt a then do
    assert .freeCnt (h.freeCnt a = (desc i).blocksPerArena)
    let h ← removeBlocks i a (List.range (desc i).blocksPerArena) h
    pallocFreeMultiple a 1 h
  else .ok h

/-- `free`. -/
def free (p : Option Nat) (h : Heap) : Except Fault Heap :=
  match p with
  | none => .ok h
  | some b => do
    let (a, d) ← blockToArena b h
    let h ← match d with
      | some i => freeSmall i a b h
      | none => pallocFreeMultiple a (h.freeCnt a) h
    .ok { h with live := h.live.filter (·.1 ≠ b) }

/-! ## `calloc` and `realloc` -/

/-- The fault of a write of `n` bytes to a block, if it has fewer. -/
def checkBlock (b n : Nat) (h : Heap) : Except Fault Unit := do
  let size ← blockSize b h
  if n ≤ size then .ok () else .error .overrun

/-- `calloc`. -/
def calloc (a b : Nat) (page : Option Nat) (h : Heap) : Except Fault (Option Nat × Heap) := do
  let size := a * b % 2 ^ 32
  if size < a ∨ size < b then .ok (none, h)
  else do
    match ← malloc size page h with
    | (none, h) => .ok (none, h)
    | (some p, h) => do
      checkBlock p size h
      .ok (some p, { h with mem := h.mem.fill p size 0 })

/-- `realloc`. -/
def realloc (oldBlock : Option Nat) (newSize : Nat) (page : Option Nat) (h : Heap) :
    Except Fault (Option Nat × Heap) :=
  if newSize = 0 then do
    let h ← free oldBlock h
    .ok (none, h)
  else do
    let (newBlock, h) ← malloc newSize page h
    match oldBlock, newBlock with
    | some old, some new => do
      let oldSize ← blockSize old h
      let minSize := if newSize < oldSize then newSize else oldSize
      checkBlock new minSize h
      let h ← free (some old) { h with mem := h.mem.copy new old minSize }
      .ok (some new, h)
    | _, newBlock => .ok (newBlock, h)

/-! ## Runs -/

/-- A call, or a write to a block by who holds it. -/
inductive Event where
  | malloc (size : Nat) (page : Option Nat)
  | calloc (a b : Nat) (page : Option Nat)
  | realloc (oldBlock : Option Nat) (newSize : Nat) (page : Option Nat)
  | free (p : Option Nat)
  /-- The byte `i` of the block `b` is set. -/
  | write (b i : Nat) (c : UInt8)
  deriving DecidableEq

/-- The pointer is null, or a block that is held. -/
def Heap.Holds (h : Heap) (p : Option Nat) : Prop := ∀ b ∈ p, b ∈ h.live.map Prod.fst

instance (h : Heap) (p : Option Nat) : Decidable (h.Holds p) := by
  unfold Heap.Holds
  infer_instance

/-- One event. Arguments are 32-bit numbers. -/
def step (e : Event) (h : Heap) : Except Fault Heap :=
  match e with
  | .malloc size page =>
    if size < 2 ^ 32 then do
      let (_, h) ← malloc size page h
      .ok h
    else .error .notEnabled
  | .calloc a b page =>
    if a < 2 ^ 32 ∧ b < 2 ^ 32 then do
      let (_, h) ← calloc a b page h
      .ok h
    else .error .notEnabled
  | .realloc oldBlock newSize page =>
    if newSize < 2 ^ 32 ∧ h.Holds oldBlock then do
      let (_, h) ← realloc oldBlock newSize page h
      .ok h
    else .error .notEnabled
  | .free p => if h.Holds p then free p h else .error .notEnabled
  | .write b i c =>
    if ∃ x ∈ h.live, x.1 = b ∧ i < x.2 then do
      checkBlock b (i + 1) h
      .ok { h with mem := h.mem.fill (b + i) 1 c }
    else .error .notEnabled

/-- `malloc_init`: the free lists are empty. -/
def mallocInit (descsAddr : Nat) (m : Memory) : Heap where
  mem := (List.range descs.length).foldl (fun m i => listInit (descsAddr + 48 * i + 8) m) m
  descsAddr := descsAddr
  pages := []
  live := []

end Pintos.Malloc
