import Pintos.Filesys.Inode

/-!
# Files and the root directory

`filesys/file.c`, `filesys/directory.c` and `filesys/filesys.c`. Of the memory allocations those of
`struct inode`, `struct dir` and `struct file` may fail, as `Mallocs` says. Those inside
`inode_create`, `inode_read_at` and `inode_write_at` succeed.
-/

namespace Pintos.Filesys

open Pintos.Lib

/-! ## Files -/

def Files.setFile (f : FileRef) (x : Option File) (s : Files) : Files :=
  { s with file := Function.update s.file f x }

/-- The `struct file` behind a pointer. -/
def Files.getFile (f : FileRef) (s : Files) : Except Assertion File :=
  match s.file f with
  | some x => .ok x
  | none => .error .freed

/-- `file_open`; `alloc` says whether `calloc` succeeds. -/
def fileOpen (r : Option InodeRef) (alloc : Bool) (s : Files) :
    Except Assertion (Option FileRef × Files) :=
  match r, alloc with
  | some r, true =>
    .ok (some s.nextFile, { s.setFile s.nextFile (some { inode := r, pos := 0, denyWrite := false })
      with nextFile := s.nextFile + 1 })
  | r, _ => do
    let s ← inodeClose r s
    .ok (none, s)

/-- `file_reopen`. -/
def fileReopen (f : FileRef) (alloc : Bool) (s : Files) :
    Except Assertion (Option FileRef × Files) := do
  let x ← s.getFile f
  fileOpen (some x.inode) alloc (inodeReopen x.inode s)

/-- `file_deny_write`. -/
def fileDenyWrite (f : FileRef) (s : Files) : Except Assertion Files := do
  let x ← s.getFile f
  if x.denyWrite then .ok s
  else inodeDenyWrite x.inode (s.setFile f (some { x with denyWrite := true }))

/-- `file_allow_write`. -/
def fileAllowWrite (f : FileRef) (s : Files) : Except Assertion Files := do
  let x ← s.getFile f
  if x.denyWrite then inodeAllowWrite x.inode (s.setFile f (some { x with denyWrite := false }))
  else .ok s

/-- `file_close`, of a file that is not null. -/
def fileClose (f : FileRef) (s : Files) : Except Assertion Files := do
  let x ← s.getFile f
  let s ← fileAllowWrite f s
  let s ← inodeClose (some x.inode) s
  .ok (s.setFile f none)

/-- `file_read`: the bytes read. -/
def fileRead (f : FileRef) (size : Int) (s : Files) : Except Assertion (List UInt8 × Files) := do
  let x ← s.getFile f
  let bytes := inodeReadAt x.inode size x.pos s
  .ok (bytes, s.setFile f (some { x with pos := x.pos + bytes.length }))

/-- `file_write`. -/
def fileWrite (f : FileRef) (buffer : Nat → UInt8) (size : Int) (s : Files) :
    Except Assertion (Int × Files) := do
  let x ← s.getFile f
  let (written, s) := inodeWriteAt x.inode buffer size x.pos s
  .ok (written, s.setFile f (some { x with pos := x.pos + written }))

/-- `file_read_at`. -/
def fileReadAt (f : FileRef) (size fileOfs : Int) (s : Files) : Except Assertion (List UInt8) := do
  let x ← s.getFile f
  .ok (inodeReadAt x.inode size fileOfs s)

/-- `file_write_at`. -/
def fileWriteAt (f : FileRef) (buffer : Nat → UInt8) (size fileOfs : Int) (s : Files) :
    Except Assertion (Int × Files) := do
  let x ← s.getFile f
  .ok (inodeWriteAt x.inode buffer size fileOfs s)

/-- `file_length`. -/
def fileLength (f : FileRef) (s : Files) : Except Assertion Int := do
  let x ← s.getFile f
  .ok (s.inode x.inode).length

/-- `file_seek`. -/
def fileSeek (f : FileRef) (newPos : Int) (s : Files) : Except Assertion Files := do
  let x ← s.getFile f
  if 0 ≤ newPos then .ok (s.setFile f (some { x with pos := newPos })) else .error .newPos

/-- `file_tell`. -/
def fileTell (f : FileRef) (s : Files) : Except Assertion Int := do
  let x ← s.getFile f
  .ok x.pos

/-! ## The root directory -/

/-- `struct dir_entry`, of 20 bytes. The name ends at its first zero. -/
structure DirEntry where
  inodeSector : SectorNo
  name : List UInt8
  inUse : Bool
  deriving DecidableEq, Repr

def DirEntry.ofBytes (b : List UInt8) : DirEntry where
  inodeSector := word (fun i => b.getD i 0) 0
  name := ((b.drop 4).take 15).takeWhile (· != 0)
  inUse := b.getD 19 0 != 0

def DirEntry.bytes (e : DirEntry) : List UInt8 :=
  wordBytes e.inodeSector ++ e.name ++ List.replicate (15 - e.name.length) 0 ++
    [if e.inUse then 1 else 0]

/-- Reading the entry at `ofs`. -/
def readEntry (dir : InodeRef) (ofs : Int) (s : Files) : Option DirEntry :=
  let bytes := inodeReadAt dir 20 ofs s
  if bytes.length = 20 then some (.ofBytes bytes) else none

/-- A loop over the entries of a directory, to the first that meets the condition. The other result
is where it ends. -/
def scanDir (dir : InodeRef) (s : Files) (p : DirEntry → Bool) : Nat → Int → Option DirEntry × Int
  | 0, ofs => (none, ofs)
  | n + 1, ofs =>
    match readEntry dir ofs s with
    | none => (none, ofs)
    | some e => if p e then (some e, ofs) else scanDir dir s p n (ofs + 20)

/-- The entries there is room for, and one. -/
def entryCount (dir : InodeRef) (s : Files) : Nat := (s.inode dir).length.toNat / 20 + 1

/-- `lookup`. -/
def lookup (dir : InodeRef) (name : List UInt8) (s : Files) : Option (DirEntry × Int) :=
  match scanDir dir s (fun e => e.inUse && e.name == name) (entryCount dir s) 0 with
  | (some e, ofs) => some (e, ofs)
  | (none, _) => none

/-- Which allocations succeed: of the `struct inode` and the `struct dir` of the root directory, and
of the `struct inode` and the `struct file` of a file. -/
structure Mallocs where
  dirInode : Bool := true
  dir : Bool := true
  inode : Bool := true
  file : Bool := true
  deriving DecidableEq, Repr

/-- `dir_open_root`; a `struct dir` is its inode. -/
def dirOpenRoot (m : Mallocs) (s : Files) : Except Assertion (Option InodeRef × Files) :=
  match inodeOpen rootDirSector m.dirInode s with
  | (some r, s) =>
    if m.dir then .ok (some r, s)
    else do
      let s ← inodeClose (some r) s
      .ok (none, s)
  | (none, s) => .ok (none, s)

/-- `dir_lookup`. -/
def dirLookup (dir : InodeRef) (name : List UInt8) (m : Mallocs) (s : Files) :
    Option InodeRef × Files :=
  match lookup dir name s with
  | some (e, _) => inodeOpen e.inodeSector m.inode s
  | none => (none, s)

/-- `dir_add`. What the stack leaves behind the end of the name is taken to be zero. -/
def dirAdd (dir : InodeRef) (name : List UInt8) (inodeSector : SectorNo) (s : Files) : Bool × Files :=
  if name = [] ∨ 14 < name.length then (false, s)
  else if (lookup dir name s).isSome then (false, s)
  else
    let ofs := (scanDir dir s (fun e => !e.inUse) (entryCount dir s) 0).2
    let bytes := DirEntry.bytes { inodeSector := inodeSector, name := name, inUse := true }
    let (written, s) := inodeWriteAt dir (fun j => bytes.getD j 0) 20 ofs s
    (written == 20, s)

/-- `dir_remove`. -/
def dirRemove (dir : InodeRef) (name : List UInt8) (m : Mallocs) (s : Files) :
    Except Assertion (Bool × Files) :=
  match lookup dir name s with
  | none => .ok (false, s)
  | some (e, ofs) =>
    -- `e` with `in_use` false
    let bytes := (inodeReadAt dir 20 ofs s).set 19 0
    match inodeOpen e.inodeSector m.inode s with
    | (none, s) => .ok (false, s)
    | (some r, s) => do
      let (written, s) := inodeWriteAt dir (fun j => bytes.getD j 0) 20 ofs s
      if written = 20 then
        let s ← inodeClose (some r) (inodeRemove r s)
        .ok (true, s)
      else
        let s ← inodeClose (some r) s
        .ok (false, s)

/-- `filesys_create`. -/
def filesysCreate (name : List UInt8) (initialSize : Int) (m : Mallocs) (s : Files) :
    Except Assertion (Bool × Files) := do
  let (dir, s) ← dirOpenRoot m s
  match dir with
  | none => .ok (false, s)
  | some dir =>
    match freeMapAllocate 1 s with
    | (none, s) => do
      let s ← inodeClose (some dir) s
      .ok (false, s)
    | (some sector, s) => do
      let (created, s) ← inodeCreate sector initialSize s
      let (success, s) := if created then dirAdd dir name sector s else (false, s)
      let s ← if success = false ∧ sector ≠ 0 then freeMapRelease sector 1 s else .ok s
      let s ← inodeClose (some dir) s
      .ok (success, s)

/-- `filesys_create` of a name that cannot be read, which `dir_add` is the first to do. The result
says whether it comes to that. -/
def filesysCreateFatal (initialSize : Int) (m : Mallocs) (s : Files) :
    Except Assertion (Bool × Files) := do
  let (dir, s) ← dirOpenRoot m s
  match dir with
  | none => .ok (false, s)
  | some dir =>
    match freeMapAllocate 1 s with
    | (none, s) => do
      let s ← inodeClose (some dir) s
      .ok (false, s)
    | (some sector, s) => do
      let (created, s) ← inodeCreate sector initialSize s
      if created then .ok (true, s)
      else do
        let s ← if sector ≠ 0 then freeMapRelease sector 1 s else .ok s
        let s ← inodeClose (some dir) s
        .ok (false, s)

/-- `filesys_open`. -/
def filesysOpen (name : List UInt8) (m : Mallocs) (s : Files) :
    Except Assertion (Option FileRef × Files) := do
  let (dir, s) ← dirOpenRoot m s
  match dir with
  | none => fileOpen none m.file s
  | some dir => do
    let (r, s) := dirLookup dir name m s
    let s ← inodeClose (some dir) s
    fileOpen r m.file s

/-- `filesys_remove`. -/
def filesysRemove (name : List UInt8) (m : Mallocs) (s : Files) :
    Except Assertion (Bool × Files) := do
  let (dir, s) ← dirOpenRoot m s
  match dir with
  | none => .ok (false, s)
  | some dir => do
    let (success, s) ← dirRemove dir name m s
    let s ← inodeClose (some dir) s
    .ok (success, s)

end Pintos.Filesys
