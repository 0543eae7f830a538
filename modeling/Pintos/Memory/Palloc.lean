import Mathlib.Logic.Function.Basic
import Pintos.Lib.Fallible

/-!
# The page allocator

`threads/palloc.c` with the bitmap of `lib/kernel/bitmap.c`. A page is its number. One step of a
thread is one access to one bit: `bitmap_test`, `bitmap_mark` and `bitmap_reset` are single
instructions, and between any two of them another thread may run. `palloc_get_multiple` scans and
flips under the lock of the pool, `palloc_free_multiple` checks and clears without it.

Three fields of the state are ghosts, which no definition reads: `live`, the groups handed out that
have not been given back (but for the rule that only these are freed), `writes`, what the call a
thread is in has written, and `clears`, how many bits frees have cleared in a pool.

What `memset` puts into the pages themselves is left out.
-/

namespace Pintos.Memory

open Pintos.Lib

abbrev ThreadRef := Nat

/-- `kernel_pool` and `user_pool`. -/
inductive PoolRef where
  | kernel
  | user
  deriving DecidableEq, Repr

/-- `struct pool`, but for its lock and its bits. -/
structure Pool where
  /-- The page `used_map` starts in. -/
  usedMap : Nat
  base : Nat
  /-- `bit_cnt` of `used_map`. -/
  bitCnt : Nat
  deriving DecidableEq, Repr

abbrev Pools := PoolRef → Pool

/-- The `ASSERT`s and `PANIC`s. -/
inductive Assertion where
  /-- "Not enough memory in %s for bitmap." -/
  | noBitmap
  /-- "palloc_get: out of pages" -/
  | outOfPages
  /-- The bounds in the functions of a bitmap. -/
  | bitmapRange
  /-- `bitmap_all` in `palloc_free_multiple`. -/
  | bitmapAll
  /-- `NOT_REACHED` in `palloc_free_multiple`. -/
  | notReached
  /-- `lock_held_by_current_thread` in `lock_release`. -/
  | lockHeld
  deriving DecidableEq, Repr

inductive Fault where
  | panic (a : Assertion)
  /-- The step cannot be taken in this state; not a fault of the kernel. -/
  | notEnabled
  deriving DecidableEq, Repr

/-- `ASSERT`. -/
def assert (a : Assertion) (c : Prop) [Decidable c] : Except Fault Unit :=
  if c then .ok () else .error (.panic a)

/-! ## The pools -/

/-- `bitmap_buf_size`: a `struct bitmap` and its elements. -/
def bitmapBufSize (bitCnt : Nat) : Nat := 8 + 4 * ((bitCnt + 31) / 32)

/-- `init_pool`. -/
def initPool (base : Nat) (pageCnt : Nat) : Except Fault Pool :=
  let bmPages := (bitmapBufSize pageCnt + 4095) / 4096
  if bmPages > pageCnt then .error (.panic .noBitmap)
  else .ok { usedMap := base, base := base + bmPages, bitCnt := pageCnt - bmPages }

/-- `pg_no (ptov (1024 * 1024))`. -/
def freeStart : Nat := 0xc0000 + 256

/-- `palloc_init`. `init_ram_pages` counts the first megabyte, so it is 256 at least. -/
def pallocInit (userPageLimit initRamPages : Nat) : Except Fault Pools := do
  let freePages := initRamPages - 256
  let userPages := if freePages / 2 > userPageLimit then userPageLimit else freePages / 2
  let kernelPages := freePages - userPages
  let kernelPool ← initPool freeStart kernelPages
  let userPool ← initPool (freeStart + kernelPages) userPages
  .ok fun
    | .kernel => kernelPool
    | .user => userPool

/-- `page_from_pool`. -/
def pageFromPool (p : Pool) (page : Nat) : Bool := p.base ≤ page && page < p.base + p.bitCnt

/-! ## The state -/

/-- A group of pages handed out, with the pool it was asked from. -/
structure Group where
  pool : PoolRef
  pages : Nat
  pageCnt : Nat
  deriving DecidableEq, Repr

/-- A call of `palloc_get_multiple`; `since` is the ghost `clears` at the call. -/
structure Request where
  pool : PoolRef
  pageCnt : Nat
  /-- `PAL_ASSERT`. -/
  palAssert : Bool
  since : Nat
  deriving DecidableEq, Repr

/-- A call of `palloc_free_multiple` that has found the pool; `group` is a ghost. -/
structure Freeing where
  group : Group
  pool : PoolRef
  pageIdx : Nat
  pageCnt : Nat
  deriving DecidableEq, Repr

/-- What a thread does next in the call it is in. -/
inductive Place where
  | out
  | lockAcquire (r : Request)
  /-- `bitmap_test` of bit `i + j` in `bitmap_scan`. -/
  | scan (r : Request) (i j : Nat)
  /-- `bitmap_mark` of bit `idx + j` in `bitmap_set_multiple`. -/
  | flip (r : Request) (idx j : Nat)
  | lockRelease (r : Request) (pageIdx : Option Nat)
  /-- `bitmap_test` of bit `page_idx + j` in `bitmap_all`. -/
  | check (f : Freeing) (j : Nat)
  /-- `bitmap_reset` of bit `page_idx + j` in `bitmap_set_multiple`. -/
  | clear (f : Freeing) (j : Nat)
  deriving DecidableEq, Repr

structure State where
  /-- The bits of the two `used_map`s. -/
  used : PoolRef × Nat → Bool
  /-- The holders of the two locks. -/
  holder : PoolRef → Option ThreadRef
  place : ThreadRef → Place
  live : List Group
  writes : ThreadRef → List ((PoolRef × Nat) × Bool)
  clears : PoolRef → Nat

namespace State

variable (s : State)

def goto (t : ThreadRef) (x : Place) : State := { s with place := Function.update s.place t x }

/-- `bitmap_mark` or `bitmap_reset` by a thread. -/
def write (t : ThreadRef) (b : PoolRef × Nat) (value : Bool) : State :=
  { s with
    used := Function.update s.used b value
    writes := Function.update s.writes t (s.writes t ++ [(b, value)]) }

def setHolder (p : PoolRef) (t : Option ThreadRef) : State :=
  { s with holder := Function.update s.holder p t }

/-- A call begins. -/
def enter (t : ThreadRef) (x : Place) : State :=
  { s.goto t x with writes := Function.update s.writes t [] }

end State

/-! ## Calls -/

variable (pools : Pools)

/-- `palloc_get_multiple`, to its `lock_acquire`. -/
def pallocGetMultiple (t : ThreadRef) (p : PoolRef) (pageCnt : Nat) (palAssert : Bool)
    (s : State) : State :=
  if pageCnt = 0 then s.enter t .out
  else s.enter t (.lockAcquire
    { pool := p, pageCnt := pageCnt, palAssert := palAssert, since := s.clears p })

/-- The head of `bitmap_scan`. -/
def bitmapScan (r : Request) : Place :=
  if r.pageCnt ≤ (pools r.pool).bitCnt then .scan r 0 0 else .lockRelease r none

/-- The loop of `bitmap_scan` goes on to its next start. -/
def scanNext (r : Request) (i : Nat) : Place :=
  if i + 1 ≤ (pools r.pool).bitCnt - r.pageCnt then .scan r (i + 1) 0 else .lockRelease r none

/-- `palloc_free_multiple`, to its `bitmap_all`. -/
def pallocFreeMultiple (t : ThreadRef) (g : Group) (s : State) : Except Fault State :=
  if g.pages = 0 ∨ g.pageCnt = 0 then .ok (s.enter t .out)
  else
    let enter (p : PoolRef) : State := s.enter t (.check
      { group := g, pool := p, pageIdx := g.pages - (pools p).base, pageCnt := g.pageCnt } 0)
    if pageFromPool (pools .kernel) g.pages then .ok (enter .kernel)
    else if pageFromPool (pools .user) g.pages then .ok (enter .user)
    else .error (.panic .notReached)

/-- The assertions of a function that goes over `cnt` bits from `start` on, at bit `start + i`. -/
def checkRange (p : Pool) (start cnt i : Nat) : Except Fault Unit :=
  assert .bitmapRange (start + cnt ≤ p.bitCnt ∧ start + i < p.bitCnt)

/-- A thread in a call goes on. -/
def run (t : ThreadRef) (s : State) : Except Fault State :=
  match s.place t with
  | .out => .error .notEnabled
  | .lockAcquire r =>
    if (s.holder r.pool).isSome then .error .notEnabled
    else .ok ((s.setHolder r.pool (some t)).goto t (bitmapScan pools r))
  | .scan r i j => do
    checkRange (pools r.pool) i r.pageCnt j
    if s.used (r.pool, i + j) then .ok (s.goto t (scanNext pools r i))
    else .ok (s.goto t (if j + 1 < r.pageCnt then .scan r i (j + 1) else .flip r i 0))
  | .flip r idx j => do
    checkRange (pools r.pool) idx r.pageCnt j
    .ok ((s.write t (r.pool, idx + j) true).goto t
      (if j + 1 < r.pageCnt then .flip r idx (j + 1) else .lockRelease r (some idx)))
  | .lockRelease r result => do
    assert .lockHeld (s.holder r.pool = some t)
    let s := (s.setHolder r.pool none).goto t .out
    match result with
    | some idx => .ok { s with live :=
        { pool := r.pool, pages := (pools r.pool).base + idx, pageCnt := r.pageCnt } :: s.live }
    | none => if r.palAssert then .error (.panic .outOfPages) else .ok s
  | .check f j => do
    checkRange (pools f.pool) f.pageIdx f.pageCnt j
    assert .bitmapAll (s.used (f.pool, f.pageIdx + j) = true)
    .ok (s.goto t (if j + 1 < f.pageCnt then .check f (j + 1) else .clear f 0))
  | .clear f j => do
    checkRange (pools f.pool) f.pageIdx f.pageCnt j
    let s := { s.write t (f.pool, f.pageIdx + j) false with
      clears := Function.update s.clears f.pool (s.clears f.pool + 1) }
    .ok (s.goto t (if j + 1 < f.pageCnt then .clear f (j + 1) else .out))

/-! ## Steps -/

/-- What can happen next. -/
inductive Event where
  | getMultiple (t : ThreadRef) (p : PoolRef) (pageCnt : Nat) (palAssert : Bool)
  | freeMultiple (t : ThreadRef) (g : Group)
  | run (t : ThreadRef)
  deriving DecidableEq, Repr

/-- One event. A group is freed by whoever owns it, so it is one that is handed out. -/
def step (e : Event) (s : State) : Except Fault State :=
  match e with
  | .getMultiple t p pageCnt palAssert =>
    if s.place t = .out then .ok (pallocGetMultiple t p pageCnt palAssert s)
    else .error .notEnabled
  | .freeMultiple t g =>
    if s.place t = .out ∧ g ∈ s.live then
      pallocFreeMultiple pools t g { s with live := s.live.erase g }
    else .error .notEnabled
  | .run t => run pools t s

/-- After `palloc_init`. -/
def initial : State where
  used := fun _ => false
  holder := fun _ => none
  place := fun _ => .out
  live := []
  writes := fun _ => []
  clears := fun _ => 0

end Pintos.Memory
