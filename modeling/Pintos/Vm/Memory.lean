import Mathlib.Algebra.Order.Ring.Int
import Mathlib.Logic.Function.Basic
import Mathlib.Data.List.Basic
import Pintos.Lib.Fallible
import Pintos.Lib.Run

/-!
# Virtual memory

The memory of user processes: the user pool of `threads/palloc.c`, the page directories of
`userprog/pagedir.c`, and the frame table, the supplementary page tables and the swap of `vm/`,
with the code that works on them in `load_segment`, `setup_stack`, `page_fault` and
`process_exit`. A frame is a page of the user pool, by its index; a user page is an address
divided by `PGSIZE`. A page directory is the list of its present user mappings. `malloc` is taken to
succeed.

The operations are atomic, except that `load_segment` is one step for each page and `setup_stack`
is two, one for each page it takes. Each answers what the code answers and the new state, or a
fault: a failed assertion, or a lock that will never be released.
-/

namespace Pintos.Vm

open Pintos.Lib

/-- A process, by the page of its `struct thread`. -/
abbrev ProcRef := Nat

abbrev Frame := Nat

abbrev UPage := Nat

/-- A pointer to a `struct sup_page_table_entry`. -/
abbrev SupRef := Nat

/-- The bytes of a page. -/
abbrev Content := Fin 4096 → UInt8

/-- The bytes of a sector. -/
abbrev Sector := Fin 512 → UInt8

/-- `PHYS_BASE`, in pages. -/
def physBase : UPage := 0xC0000

/-- The first address `page_fault` will bring in, `0x08048000`, in pages. -/
def codeBase : UPage := 0x8048

/-- A present entry of a page directory. -/
structure Mapping where
  upage : UPage
  frame : Frame
  writable : Bool
  deriving DecidableEq, Repr

/-- `struct sup_page_table_entry`. Nothing reads `dirty` and `accessed`. -/
structure SupPage where
  uservaddr : UPage
  accessTime : Nat
  blockIndex : Int
  deriving DecidableEq, Repr

/-- `struct frame_table_entry`. -/
structure FrameEntry where
  frame : Frame
  owner : ProcRef
  aux : SupRef
  deriving DecidableEq, Repr

inductive Fault where
  /-- A failed `ASSERT`, a `PANIC`, or a page fault the kernel cannot handle. -/
  | panic
  /-- The step cannot be taken, or its caller is blocked for ever. -/
  | notEnabled
  deriving DecidableEq, Repr

structure Memory where
  /-- The number of pages of the user pool. -/
  poolSize : Nat
  /-- The number of sectors of the swap device. -/
  swapSize : Nat
  /-- The `used_map` of the user pool. -/
  used : Frame → Bool
  mem : Frame → Content
  pagedir : ProcRef → Option (List Mapping)
  /-- `page_table` of a process. -/
  pageTable : ProcRef → List SupRef
  sup : SupRef → SupPage
  nextSup : SupRef
  frameTable : List FrameEntry
  swap : Nat → Sector
  currIndex : Int
  /-- The holder of `swap_IO_lock`. -/
  swapLock : Option ProcRef
  /-- `timer_ticks ()`. -/
  ticks : Nat

/-! ## The user pool -/

/-- `palloc_get_page (PAL_USER)`, with `PAL_ZERO` if `zero`. -/
def pallocGetPage (zero : Bool) (s : Memory) : Option (Frame × Memory) :=
  match (List.range s.poolSize).find? (fun f => !s.used f) with
  | none => none
  | some f => some (f, { s with
      used := Function.update s.used f true
      mem := if zero then Function.update s.mem f (fun _ => 0) else s.mem })

/-- `palloc_free_page`. -/
def pallocFreePage (f : Frame) (s : Memory) : Except Fault Memory :=
  if s.used f then .ok { s with
    used := Function.update s.used f false
    mem := Function.update s.mem f (fun _ => 0xcc) }
  else .error .panic

/-! ## Page directories -/

/-- `pagedir_clear_page (cur->pagedir, upage)`. -/
def pagedirClearPage (p : ProcRef) (u : UPage) (s : Memory) : Except Fault Memory :=
  match s.pagedir p with
  | none => .error .panic
  | some pd =>
    if u < physBase then
      .ok { s with pagedir := Function.update s.pagedir p (some (pd.filter (·.upage != u))) }
    else .error .panic

/-- `install_page`; `table` says whether `pagedir_set_page` has, or gets, a page table for the
page. -/
def installPage (p : ProcRef) (u : UPage) (f : Frame) (writable table : Bool) (s : Memory) :
    Except Fault (Bool × Memory) :=
  match s.pagedir p with
  | none => .error .panic
  | some pd =>
    if u < physBase then
      if pd.any (·.upage == u) then .ok (false, s)
      else if table then .ok (true, { s with
        pagedir := Function.update s.pagedir p
          (some ({ upage := u, frame := f, writable := writable } :: pd)) })
      else .ok (false, s)
    else .error .panic

/-- The loops of `pagedir_destroy` over the pages of the process. -/
def pagedirDestroy : List Mapping → Memory → Except Fault Memory
  | [], s => .ok s
  | m :: rest, s => do
    let s ← pallocFreePage m.frame s
    pagedirDestroy rest s

/-! ## The tables of `vm/` -/

/-- `sup_page_table_insert`, by the running process. -/
def supPageTableInsert (p : ProcRef) (u : UPage) (blockIndex : Int) (s : Memory) : SupRef × Memory :=
  (s.nextSup, { s with
    sup := Function.update s.sup s.nextSup
      { uservaddr := u, accessTime := s.ticks % 2 ^ 64, blockIndex := blockIndex }
    nextSup := s.nextSup + 1
    pageTable := Function.update s.pageTable p (s.pageTable p ++ [s.nextSup]) })

/-- `frame_table_insert`. -/
def frameTableInsert (f : Frame) (p : ProcRef) (aux : SupRef) (s : Memory) : Memory :=
  { s with frameTable := s.frameTable ++ [{ frame := f, owner := p, aux := aux }] }

/-! ## Swap -/

/-- One sector of a page. -/
def Content.sector (c : Content) (i : Fin 8) : Sector := fun j => c ⟨i * 512 + j, by omega⟩

/-- A page from its sectors. -/
def Content.ofSectors (f : Fin 8 → Sector) : Content :=
  fun j => f ⟨j / 512, by omega⟩ ⟨j % 512, by omega⟩

/-- Whether `block_read` and `block_write` accept the eight sectors from `index` on. -/
def Memory.onDevice (s : Memory) (index : Int) : Bool := 0 ≤ index && index + 8 ≤ s.swapSize

/-- `write_frame_to_block`. `curr_index` is an `int`. -/
def writeFrameToBlock (f : Frame) (index : Int) (s : Memory) : Except Fault Memory :=
  if s.onDevice index then .ok { s with
    swap := fun n => if h : index.toNat ≤ n ∧ n < index.toNat + 8
      then (s.mem f).sector ⟨n - index.toNat, by omega⟩ else s.swap n
    currIndex := Int.bmod (s.currIndex + 8) (2 ^ 32) }
  else .error .panic

/-- The `lock_acquire (&swap_IO_lock)` of an operation that releases it again. -/
def takeSwapLock (p : ProcRef) (s : Memory) : Except Fault Unit :=
  match s.swapLock with
  | none => .ok ()
  | some q => if q = p then .error .panic else .error .notEnabled

/-- `load_frame_from_block`. -/
def loadFrameFromBlock (p : ProcRef) (f : Frame) (index : Int) (s : Memory) : Except Fault Memory := do
  takeSwapLock p s
  if s.onDevice index then .ok { s with
    mem := Function.update s.mem f (Content.ofSectors fun i => s.swap (index.toNat + i)) }
  else .error .panic

/-- The loop of `evict_frame`: the first entry with the least access time. -/
def scanFrames (sup : SupRef → SupPage) :
    List FrameEntry → Nat → Option FrameEntry → Option FrameEntry
  | [], _, maxFrame => maxFrame
  | e :: rest, maxTime, maxFrame =>
    if (sup e.aux).accessTime < maxTime then
      scanFrames sup rest (sup e.aux).accessTime (some e)
    else scanFrames sup rest maxTime maxFrame

/-- The entry `evict_frame` picks. -/
def Memory.victim (s : Memory) : Option FrameEntry := scanFrames s.sup s.frameTable (2 ^ 64 - 1) none

/-- `evict_frame`, called by `p`. With nothing to evict it answers false and keeps the lock. -/
def evictFrame (p : ProcRef) (s : Memory) : Except Fault (Bool × Memory) := do
  takeSwapLock p s
  match s.victim with
  | none => .ok (false, { s with swapLock := some p })
  | some e => do
    let aux := s.sup e.aux
    let s ← pagedirClearPage p aux.uservaddr s
    let index := if aux.blockIndex = -1 then s.currIndex else aux.blockIndex
    let s := { s with sup := Function.update s.sup e.aux { aux with blockIndex := index } }
    let s ← writeFrameToBlock e.frame index s
    let s ← pallocFreePage e.frame s
    .ok (true, { s with frameTable := s.frameTable.erase e })

/-! ## Loading -/

/-- The part of an iteration of `load_segment` that has a page: `content` is what `file_read` and
`memset` put in it, if the file is long enough. -/
def loadInto (p : ProcRef) (u : UPage) (f : Frame) (content : Option Content)
    (writable table : Bool) (s : Memory) : Except Fault (Bool × Memory) :=
  match content with
  | none => do
    let s ← pallocFreePage f s
    .ok (false, s)
  | some c => do
    let s := { s with mem := Function.update s.mem f c }
    let (ok, s) ← installPage p u f writable table s
    if ok then
      let (aux, s) := supPageTableInsert p u (-1) s
      .ok (true, frameTableInsert f p aux s)
    else
      let s ← pallocFreePage f s
      .ok (false, s)

/-- One iteration of the loop of `load_segment`. -/
def loadSegmentPage (p : ProcRef) (u : UPage) (content : Option Content) (writable table : Bool)
    (s : Memory) : Except Fault (Bool × Memory) :=
  match pallocGetPage false s with
  | some (f, s) => loadInto p u f content writable table s
  | none => do
    let (evicted, s) ← evictFrame p s
    if evicted then
      match pallocGetPage false s with
      | some (f, s) => loadInto p u f content writable table s
      | none => .ok (false, s)
    else .ok (false, s)

/-- Mapping the stack page, which gets no entry in the tables of `vm/`. -/
def installStack (p : ProcRef) (f : Frame) (table : Bool) (s : Memory) : Except Fault (Bool × Memory) := do
  let (ok, s) ← installPage p (physBase - 1) f true table s
  if ok then .ok (true, s)
  else
    let s ← pallocFreePage f s
    .ok (false, s)

/-- The first half of `setup_stack`: the stack page. -/
def setupStackPage (p : ProcRef) (table : Bool) (s : Memory) : Except Fault (Bool × Memory) :=
  match pallocGetPage true s with
  | some (f, s) => installStack p f table s
  | none => do
    let (evicted, s) ← evictFrame p s
    if evicted then
      match pallocGetPage true s with
      | some (f, s) => installStack p f table s
      | none => .ok (false, s)
    else .ok (false, s)

/-- The second half of `setup_stack`: the page for `fn_copy`, which nobody frees. It is answered
without when there is nothing to evict, and `strlcpy` to a null pointer is a fault. -/
def setupStackCopy (p : ProcRef) (s : Memory) : Except Fault Memory :=
  match pallocGetPage false s with
  | some (_, s) => .ok s
  | none => do
    let (evicted, s) ← evictFrame p s
    if evicted then
      match pallocGetPage false s with
      | some (_, s) => .ok s
      | none => .error .panic
    else .ok s

/-! ## Page faults -/

/-- The loop of `page_fault` over the page table: the last entry for the page. -/
def Memory.findPage (s : Memory) (p : ProcRef) (u : UPage) : Option SupRef :=
  (s.pageTable p).foldl (fun found r => if (s.sup r).uservaddr = u then some r else found) none

/-- The part of `page_fault` that has a page. -/
def faultInto (p : ProcRef) (u : UPage) (f : Frame) (table : Bool) (s : Memory) : Except Fault Memory := do
  let currPage := s.findPage p u
  let (ok, s) ← installPage p u f true table s
  if ok then
    match currPage with
    | none =>
      let (aux, s) := supPageTableInsert p u (-1) s
      .ok (frameTableInsert f p aux s)
    | some r => do
      let s := { s with
        sup := Function.update s.sup r { s.sup r with accessTime := s.ticks % 2 ^ 64 } }
      let s ← loadFrameFromBlock p f (s.sup r).blockIndex s
      .ok (frameTableInsert f p r s)
  else .error .panic

/-- `page_fault` on a page that is not present and that it brings in. -/
def pageFault (p : ProcRef) (u : UPage) (table : Bool) (s : Memory) : Except Fault Memory :=
  match pallocGetPage true s with
  | some (f, s) => faultInto p u f table s
  | none => do
    let (_, s) ← evictFrame p s
    match pallocGetPage true s with
    | some (f, s) => faultInto p u f table s
    | none => .error .panic

/-! ## Exit -/

/-- The part of `process_exit` that gives up the page directory. -/
def dropPagedir (p : ProcRef) (s : Memory) : Except Fault Memory :=
  match s.pagedir p with
  | none => .ok s
  | some pd => pagedirDestroy pd { s with pagedir := Function.update s.pagedir p none }

/-- `process_exit`. -/
def processExit (p : ProcRef) (s : Memory) : Except Fault Memory := do
  let s ← dropPagedir p s
  .ok { s with frameTable := s.frameTable.filter (·.owner != p) }

/-! ## Steps -/

/-- A process has a present page at `u`. -/
def Memory.present (s : Memory) (p : ProcRef) (u : UPage) : Bool :=
  match s.pagedir p with
  | none => false
  | some pd => pd.any (·.upage == u)

inductive Event where
  /-- A new process gets its page directory in `load`. -/
  | start (p : ProcRef)
  | loadPage (p : ProcRef) (u : UPage) (content : Option Content) (writable table : Bool)
  | stackPage (p : ProcRef) (table : Bool)
  | stackCopy (p : ProcRef)
  | pageFault (p : ProcRef) (u : UPage) (table : Bool)
  | exit (p : ProcRef)
  /-- A byte is stored through a user address, by the process or by the kernel for it. -/
  | store (p : ProcRef) (u : UPage) (i : Fin 4096) (b : UInt8)
  | tick

/-- A store to a writable page. -/
def storeByte (p : ProcRef) (u : UPage) (i : Fin 4096) (b : UInt8) (s : Memory) : Except Fault Memory :=
  match s.pagedir p with
  | none => .error .notEnabled
  | some pd => match pd.find? (·.upage == u) with
    | none => .error .notEnabled
    | some m =>
      if m.writable then .ok { s with
        mem := Function.update s.mem m.frame (Function.update (s.mem m.frame) i b) }
      else .error .notEnabled

/-- One operation. A process that has no page directory is not there. -/
def step (e : Event) (s : Memory) : Except Fault Memory :=
  match e with
  | .start p =>
    if (s.pagedir p).isSome then .error .notEnabled
    else .ok { s with
      pagedir := Function.update s.pagedir p (some [])
      pageTable := Function.update s.pageTable p [] }
  | .loadPage p u content writable table => do
    let (_, s) ← loadSegmentPage p u content writable table s
    .ok s
  | .stackPage p table => do
    let (_, s) ← setupStackPage p table s
    .ok s
  | .stackCopy p => if (s.pagedir p).isSome then setupStackCopy p s else .error .notEnabled
  | .pageFault p u table =>
    if codeBase ≤ u ∧ s.present p u = false then pageFault p u table s else .error .notEnabled
  | .exit p => processExit p s
  | .store p u i b => storeByte p u i b s
  | .tick => .ok { s with ticks := s.ticks + 1 }

/-- The state after `swap_init`. -/
def initial (poolSize swapSize : Nat) : Memory where
  poolSize := poolSize
  swapSize := swapSize
  used := fun _ => false
  mem := fun _ _ => 0
  pagedir := fun _ => none
  pageTable := fun _ => []
  sup := fun _ => { uservaddr := 0, accessTime := 0, blockIndex := -1 }
  nextSup := 0
  frameTable := []
  swap := fun _ _ => 0
  currIndex := 0
  swapLock := none
  ticks := 0

end Pintos.Vm
