import Mathlib.Logic.Function.Basic
import Pintos.Filesys.Directory
import Pintos.Filesys.Format

/-!
# Processes and their files

The files of a process: the list of its descriptors with the system calls of `userprog/syscall.c`
that use it, the executable from `load` in `userprog/process.c` to `thread_exit`, and the process
that closes its descriptors in `SYS_EXIT`. A file operation is one step, as are the steps between
two of them.

A call runs with `IOLock` down, and is one step. `Kernel.ioLock` is what the semaphore is between
two calls: some of the paths that end the process do not put it up again (`Outcome.terminatedLocked`),
and then every call that comes to `sema_down (&IOLock)` waits for ever. `SYS_EXIT` closes the
descriptors without `IOLock`; each of its closes comes between two calls here.

What a process does depends on its own data and on the file system only, so `act` is about these;
`step` puts the result back.
-/

namespace Pintos.Syscall

open Pintos.Lib Pintos.Filesys

/-- A pointer to the `struct thread` of a process. -/
abbrev ProcRef := Nat

/-- `struct fileListElem`. -/
structure FileListElem where
  mFile : FileRef
  fd : Int
  deriving DecidableEq, Repr

/-- Where a process is. -/
inductive Stage where
  /-- In `load`, after `filesys_open`. -/
  | loading (file : Option FileRef)
  | user
  /-- In the loop of `SYS_EXIT`. -/
  | closing
  /-- On the way to the end of `thread_exit`. -/
  | exiting
  deriving DecidableEq, Repr

/-- The fields of `struct thread` about files. -/
structure Proc where
  fileList : List FileListElem
  fdCounter : Int
  mFile : Option FileRef
  stage : Stage
  deriving DecidableEq, Repr

structure Kernel where
  files : Files
  /-- The live processes. -/
  proc : ProcRef → Option Proc
  /-- `IOLock` is up. -/
  ioLock : Bool

/-- `init_thread`, and `load` up to `file`. -/
def Proc.init (file : Option FileRef) : Proc where
  fileList := []
  fdCounter := 5
  mFile := none
  stage := .loading file

/-- `thread_exit` is called. -/
def Proc.exit (x : Proc) : Proc := { x with stage := .exiting }

/-- `getFileWithFd`. -/
def getFileWithFd (fd : Int) (x : Proc) : Option FileListElem := x.fileList.find? (·.fd == fd)

/-- A word as an `off_t`. -/
def offT (n : Nat) : Int := Int.bmod n (2 ^ 32)

/-- The buffer of a call. -/
structure Buffer where
  /-- It passes the check of its address. -/
  checked : Bool := true
  /-- The first byte that the kernel cannot have. -/
  fatal : Option Nat := none
  /-- `page_fault` ends the process for that byte: it is on a page the process may only read, and
  is written. For any other, as one below `0x08048000` on a page that is not there, the kernel
  panics. A `SYS_READ` that goes on into the memory of the kernel is taken to panic too. -/
  dies : Bool := false
  bytes : Nat → UInt8 := fun _ => 0

/-- The first `n` bytes have one that the kernel cannot have. -/
def Buffer.faults (b : Buffer) (n : Nat) : Bool := b.fatal.any (· < n)

/-- The file name of a call. -/
inductive FileName where
  /-- It fails the check of its address. -/
  | refused
  /-- The kernel panics at a byte of it that the file system reads: the byte is below `0x08048000`,
  on a page that is not there. -/
  | fatal
  | bytes (name : CString)
  deriving DecidableEq

/-- The system calls about files. -/
inductive FileCall where
  | sysExit
  | sysCreate (name : FileName) (size : Int32) (m : Mallocs)
  | sysRemove (name : FileName) (m : Mallocs)
  | sysOpen (name : FileName) (m : Mallocs)
  | sysFilesize (fd : Int)
  /-- `key` is what `input_getc` answers. -/
  | sysRead (fd : Int) (buffer : Buffer) (size : Nat) (key : Int)
  | sysWrite (fd : Int) (buffer : Buffer) (size : Nat)
  | sysSeek (fd : Int) (position : Nat)
  | sysTell (fd : Int)
  | sysClose (fd : Int)
  /-- With the allocation of the new `struct file`, and whether the rest ends the process. -/
  | sysMmap (fd : Int) (alloc : Bool) (dies : Bool)

inductive Outcome where
  /-- The call returns, and leaves `eax`. -/
  | done
  | eax (n : Int)
  /-- The call puts these bytes into the buffer, and their number in `eax`. -/
  | bytes (l : List UInt8)
  /-- The process ends. -/
  | terminated
  /-- It ends, and `IOLock` stays down. -/
  | terminatedLocked
  deriving DecidableEq, Repr

/-- `write`, of a file. -/
def writeFile (e : FileListElem) (buffer : Buffer) (size : Nat) (x : Proc) (s : Files) :
    Except Assertion (Proc × Files × Outcome) := do
  let y ← s.getFile e.mFile
  if y.denyWrite then .ok (x.exit, s, .terminatedLocked)
  else
    let written := (inodeWriteAt y.inode buffer.bytes (offT size) y.pos s).1
    if buffer.faults written.toNat then .error .panic
    else do
      let (written, s) ← fileWrite e.mFile buffer.bytes (offT size) s
      .ok (x, s, .eax written)

/-- A call by a process in user mode: what becomes of the process and the file system. -/
def fileCall (c : FileCall) (x : Proc) (s : Files) : Except Assertion (Proc × Files × Outcome) :=
  match c with
  | .sysExit => .ok ({ x with stage := .closing }, s, .done)
  | .sysCreate .refused _ _ => .ok (x.exit, s, .terminated)
  | .sysCreate .fatal size m => do
    let (panics, s) ← filesysCreateFatal size.toInt m s
    if panics then .error .panic else .ok (x, s, .eax 0)
  | .sysCreate (.bytes name) size m => do
    let (success, s) ← filesysCreate name.1 size.toInt m s
    .ok (x, s, .eax (if success then 1 else 0))
  | .sysRemove .refused _ => .ok (x.exit, s, .terminated)
  | .sysRemove .fatal m => do
    let (dir, s) ← dirOpenRoot m s
    if dir.isSome then .error .panic else .ok (x, s, .eax 0)
  | .sysRemove (.bytes name) m => do
    let (success, s) ← filesysRemove name.1 m s
    .ok (x, s, .eax (if success then 1 else 0))
  | .sysOpen .refused _ => .ok (x.exit, s, .terminated)
  | .sysOpen .fatal m => do
    let (dir, s) ← dirOpenRoot m s
    if dir.isSome then .error .panic else .ok (x, s, .eax (-1))
  | .sysOpen (.bytes name) m => do
    let (newfile, s) ← filesysOpen name.1 m s
    match newfile with
    | none => .ok (x, s, .eax (-1))
    | some f =>
      .ok ({ x with
        fileList := x.fileList ++ [{ mFile := f, fd := x.fdCounter }]
        fdCounter := Int.bmod (x.fdCounter + 1) (2 ^ 32) }, s, .eax x.fdCounter)
  | .sysFilesize fd =>
    match getFileWithFd fd x with
    | none => .ok (x.exit, s, .terminated)
    | some e => do
      let n ← fileLength e.mFile s
      .ok (x, s, .eax n)
  | .sysRead fd buffer size key =>
    if buffer.checked then
      match getFileWithFd fd x with
      | none => .ok (x.exit, s, .terminated)
      | some e =>
        if fd = 0 then .ok (x, s, .eax key)
        else do
          let (bytes, s') ← fileRead e.mFile (offT size) s
          if buffer.faults bytes.length then
            if buffer.dies then .ok (x.exit, s, .terminatedLocked) else .error .panic
          else .ok (x, s', .bytes bytes)
    else .ok (x.exit, s, .terminatedLocked)
  | .sysWrite fd buffer size =>
    if buffer.checked then
      match getFileWithFd fd x with
      | none =>
        if fd = 1 then if buffer.faults size then .error .panic else .ok (x, s, .eax size)
        else .ok (x.exit, s, .terminated)
      | some e =>
        if fd = 1 then if buffer.faults size then .error .panic else .ok (x, s, .eax size)
        else if fd = 0 then .ok (x.exit, s, .terminatedLocked)
        else writeFile e buffer size x s
    else .ok (x.exit, s, .terminated)
  | .sysSeek fd position =>
    match getFileWithFd fd x with
    | none => .ok (x.exit, s, .terminated)
    | some e => do
      let s ← fileSeek e.mFile (offT position) s
      .ok (x, s, .done)
  | .sysTell fd =>
    match getFileWithFd fd x with
    | none => .ok (x.exit, s, .terminated)
    | some e => do
      let n ← fileTell e.mFile s
      .ok (x, s, .eax n)
  | .sysClose fd =>
    match getFileWithFd fd x with
    | none => .ok (x.exit, s, .terminated)
    | some e => do
      let s ← fileClose e.mFile s
      .ok ({ x with fileList := x.fileList.erase e }, s, .done)
  | .sysMmap fd alloc dies =>
    match getFileWithFd fd x with
    | none => .ok (x.exit, s, .terminated)
    | some e => do
      let (freshFile, s) ← fileReopen e.mFile alloc s
      -- the pages are read through `fresh_file`, which nothing else uses
      if freshFile.isNone ∨ dies then .ok (x.exit, s, .terminated) else .ok (x, s, .done)

/-! ## The steps of a process -/

inductive FileEvent where
  /-- A process begins, and `load` opens its executable; with no name, before that it has failed. -/
  | exec (p : ProcRef) (name : Option CString) (m : Mallocs)
  /-- `file_read` and `file_seek` in `load`. -/
  | loadRead (p : ProcRef) (size : Int32)
  | loadSeek (p : ProcRef) (ofs : Int32)
  /-- `load` is at `done`. If it has failed `thread_exit` is called. -/
  | loaded (p : ProcRef) (success : Bool)
  | call (p : ProcRef) (c : FileCall)
  /-- The next iteration of the loop of `SYS_EXIT`, or its end. -/
  | closeNext (p : ProcRef)
  /-- `thread_exit` is called on any other path. -/
  | kill (p : ProcRef)
  /-- The end of `thread_exit`. -/
  | die (p : ProcRef)

/-- The process that takes the step. -/
def FileEvent.proc : FileEvent → ProcRef
  | .exec p _ _ | .loadRead p _ | .loadSeek p _ | .loaded p _ | .call p _ | .closeNext p | .kill p
  | .die p => p

/-- `file_close`, of a file that may be null. -/
def closeFile : Option FileRef → Files → Except Assertion Files
  | none, s => .ok s
  | some f, s => fileClose f s

/-- A step of a process that is there. -/
def procStep (ev : FileEvent) (x : Proc) (s : Files) :
    Except Assertion (Option Proc × Files × Outcome) :=
  match ev, x.stage with
  | .loadRead _ size, .loading (some f) => do
    let (_, s) ← fileRead f size.toInt s
    .ok (some x, s, .done)
  | .loadSeek _ ofs, .loading (some f) => do
    let s ← fileSeek f ofs.toInt s
    .ok (some x, s, .done)
  | .loaded _ true, .loading (some f) => do
    let s ← fileDenyWrite f s
    .ok (some { x with mFile := some f, stage := .user }, s, .done)
  | .loaded _ false, .loading file => do
    let s ← closeFile file s
    .ok (some { x with mFile := none, stage := .exiting }, s, .done)
  | .call _ c, .user => do
    let (x, s, out) ← fileCall c x s
    .ok (some x, s, out)
  | .closeNext _, .closing =>
    match x.fileList with
    | [] => .ok (some x.exit, s, .done)
    | e :: rest => do
      let s ← fileClose e.mFile s
      .ok (some { x with fileList := rest }, s, .done)
  | .kill _, .loading _ | .kill _, .user => .ok (some x.exit, s, .done)
  | .die _, .exiting =>
    match x.mFile with
    | none => .ok (none, s, .done)
    | some f => do
      let s ← fileAllowWrite f s
      .ok (none, s, .done)
  | _, _ => .error .notEnabled

/-- A step: what becomes of the process that takes it and of the file system. -/
def act (ev : FileEvent) (y : Option Proc) (s : Files) :
    Except Assertion (Option Proc × Files × Outcome) :=
  match ev, y with
  | .exec _ none _, none => .ok (some (.init none), s, .done)
  | .exec _ (some name) m, none => do
    let (file, s) ← filesysOpen name.1 m s
    .ok (some (.init file), s, .done)
  | ev, some x => procStep ev x s
  | _, none => .error .notEnabled

/-- The call comes to `sema_down (&IOLock)`. -/
def FileCall.downs (x : Proc) : FileCall → Bool
  | .sysExit => false
  | .sysWrite fd buffer _ => buffer.checked && (fd == 1 || (getFileWithFd fd x).isSome)
  | _ => true

/-- The step has to wait for `IOLock`. -/
def FileEvent.waits (ev : FileEvent) (k : Kernel) : Bool :=
  match ev with
  | .call p c => !k.ioLock && (k.proc p).any c.downs
  | _ => false

def step (ev : FileEvent) (k : Kernel) : Except Assertion (Kernel × Outcome) :=
  if ev.waits k then .error .notEnabled
  else do
    let (y, s, out) ← act ev (k.proc ev.proc) k.files
    .ok ({ files := s, proc := Function.update k.proc ev.proc y
           ioLock := k.ioLock && out != .terminatedLocked }, out)

/-- And what the kernel becomes. -/
def kernelStep (ev : FileEvent) (k : Kernel) : Except Assertion Kernel := do
  let (k, _) ← step ev k
  .ok k

/-- The file system before the first process. It has been formatted, or the file of the free map has
been opened on any device, and anything has been read from it. -/
inductive Boots : Files → Prop
  | formatted {size entryCnt : Nat} {junk : Nat → Bool} {device : SectorNo → Sector} {s : Files} :
      2 ≤ size → size < 2 ^ 32 → filesysFormat size junk entryCnt device = .ok s → Boots s
  | mounted {device : SectorNo → Sector} {f : FileRef} {s : Files} (freeMap pad : List Bool) :
      openFreeMapFile (bootFiles device) = .ok (f, s) →
      Boots { s with freeMap := freeMap, pad := pad }

/-- A file system with the one file `a`, of ten bytes. -/
def oneFile : SectorNo → Sector
  | 1 => inodeDisk 3 20
  | 2 => inodeDisk 4 10
  | 3 => fun j =>
    (DirEntry.bytes { inodeSector := 2, name := [97], inUse := true }).getD j 0
  | _ => fun _ => 0

end Pintos.Syscall
