import Mathlib.Algebra.Order.Ring.Int
import Mathlib.Logic.Function.Basic
import Mathlib.Data.List.Basic
import Pintos.Lib.Fallible

/-!
# Inodes

`filesys/inode.c` with the free map of `filesys/free-map.c`. An inode in memory is a number, as is
a `struct file`; both come from `malloc`, which never gives an address again here. An `off_t` is an
integer, taken modulo `2 ^ 32` only where the code's values can leave its range. The counts of
openers do not: each opener holds a block of its own in kernel memory.

The block that `inode_create` allocates, and the bounce buffers of `inode_read_at` and
`inode_write_at`, are there: the code leaves off where one of them is not, and that is left out.

The device is a map from sectors to bytes. Every sector the code reads or writes is the sector of an
inode or comes from the free map, so it is on the device.
-/

namespace Pintos.Filesys

open Pintos.Lib

abbrev SectorNo := Nat

/-- A pointer to a `struct inode`. -/
abbrev InodeRef := Nat

/-- A pointer to a `struct file`. -/
abbrev FileRef := Nat

/-- The bytes of a sector. -/
abbrev Sector := Fin 512 → UInt8

/-- `FREE_MAP_SECTOR`. -/
def freeMapSector : SectorNo := 0

/-- `ROOT_DIR_SECTOR`. -/
def rootDirSector : SectorNo := 1

/-- `struct inode`, with the `start` and `length` of its `data`. -/
structure Inode where
  sector : SectorNo
  openCnt : Int
  removed : Bool
  denyWriteCnt : Int
  start : SectorNo
  length : Int
  deriving DecidableEq, Repr

/-- `struct file`. -/
structure File where
  inode : InodeRef
  pos : Int
  denyWrite : Bool
  deriving DecidableEq, Repr

/-- An `ASSERT` that fails. -/
inductive Assertion where
  /-- In `inode_deny_write` or `inode_allow_write`. -/
  | denyWriteCnt
  /-- `bitmap_all` in `free_map_release`. -/
  | freeMap
  /-- `length >= 0` in `inode_create`. -/
  | length
  /-- `new_pos >= 0` in `file_seek`. -/
  | newPos
  /-- No assertion of the code: a `PANIC` of `free-map.c` or `filesys.c`. -/
  | panic
  /-- No assertion of the code: a `struct file` is used that has been freed. -/
  | freed
  /-- The step cannot be taken. -/
  | notEnabled
  deriving DecidableEq, Repr

structure Files where
  /-- `fs_device`. -/
  device : SectorNo → Sector
  /-- `free_map`. -/
  freeMap : List Bool
  /-- The bits behind the last of `free_map`, up to the end of its last word. `malloc` leaves
  anything there. -/
  pad : List Bool := []
  /-- `free_map_file`. -/
  freeMapFile : Option FileRef
  /-- `open_inodes`. -/
  openInodes : List InodeRef
  inode : InodeRef → Inode
  nextInode : InodeRef
  file : FileRef → Option File
  nextFile : FileRef

/-! ## Bytes -/

/-- A byte of a sector. -/
def Sector.byte (b : Sector) (i : Nat) : UInt8 := if h : i < 512 then b ⟨i, h⟩ else 0

/-- Four bytes, least significant first. -/
def word (b : Nat → UInt8) (i : Nat) : Nat :=
  (b i).toNat + 256 * (b (i + 1)).toNat + 65536 * (b (i + 2)).toNat + 16777216 * (b (i + 3)).toNat

/-- The bytes of a word. -/
def wordBytes (n : Nat) : List UInt8 :=
  [UInt8.ofNat n, UInt8.ofNat (n / 256), UInt8.ofNat (n / 65536), UInt8.ofNat (n / 16777216)]

/-- `struct inode_disk` in a sector: `start`, `length`, `magic` and zeros. -/
def inodeDisk (start : SectorNo) (length : Int) : Sector := fun j =>
  (wordBytes start ++ wordBytes (length % 2 ^ 32).toNat ++ wordBytes 0x494e4f44).getD j 0

/-- `DIV_ROUND_UP (size, BLOCK_SECTOR_SIZE)`, a `size_t`. -/
def bytesToSectors (size : Int) : Nat :=
  ((Int.bmod (size + 511) (2 ^ 32)).tdiv 512 % 2 ^ 32).toNat

/-! ## Reading and writing -/

/-- `chunk_size`: the bytes to copy out of, or into, the sector that has `offset`. -/
def chunkSize (ino : Inode) (size offset : Int) : Int :=
  let sectorOfs := offset % 512
  let inodeLeft := ino.length - offset
  let sectorLeft := 512 - sectorOfs
  let minLeft := if inodeLeft < sectorLeft then inodeLeft else sectorLeft
  if size < minLeft then size else minLeft

/-- `byte_to_sector`, of an offset inside the inode. -/
def byteToSector (ino : Inode) (offset : Int) : SectorNo := ino.start + (offset / 512).toNat

/-- The loop of `inode_read_at`. Each iteration takes a byte at least, so `size` of them do. -/
def readLoop (ino : Inode) (device : SectorNo → Sector) : Nat → Int → Int → List UInt8
  | 0, _, _ => []
  | n + 1, size, offset =>
    if size ≤ 0 then []
    else
      let chunk := chunkSize ino size offset
      if chunk ≤ 0 then []
      else
        (List.range chunk.toNat).map
            (fun j => (device (byteToSector ino offset)).byte ((offset % 512).toNat + j)) ++
          readLoop ino device n (size - chunk) (offset + chunk)

/-- `inode_read_at`: the bytes read. -/
def inodeReadAt (r : InodeRef) (size offset : Int) (s : Files) : List UInt8 :=
  readLoop (s.inode r) s.device size.toNat size offset

/-- A sector with `chunk` bytes from the buffer put in at `ofs`. -/
def Sector.patch (b : Sector) (ofs chunk : Nat) (bytes : Nat → UInt8) : Sector := fun j =>
  if ofs ≤ j ∧ j < ofs + chunk then bytes (j - ofs) else b j

/-- The loop of `inode_write_at`. A whole sector is written from the buffer, part of one through
the bounce buffer that has been read in before; in both cases the other bytes stay. -/
def writeLoop (ino : Inode) (buffer : Nat → UInt8) :
    Nat → Int → Int → Nat → (SectorNo → Sector) → Nat × (SectorNo → Sector)
  | 0, _, _, written, device => (written, device)
  | n + 1, size, offset, written, device =>
    if size ≤ 0 then (written, device)
    else
      let chunk := chunkSize ino size offset
      if chunk ≤ 0 then (written, device)
      else
        let sector := byteToSector ino offset
        writeLoop ino buffer n (size - chunk) (offset + chunk) (written + chunk.toNat)
          (Function.update device sector ((device sector).patch (offset % 512).toNat chunk.toNat
            fun j => buffer (written + j)))

/-- `inode_write_at`. -/
def inodeWriteAt (r : InodeRef) (buffer : Nat → UInt8) (size offset : Int) (s : Files) :
    Int × Files :=
  if (s.inode r).denyWriteCnt ≠ 0 then (0, s)
  else
    let (written, device) := writeLoop (s.inode r) buffer size.toNat size offset 0 s.device
    (written, { s with device := device })

/-! ## The free map -/

/-- The bits of a bitmap, in words of 32. -/
def bitmapBytes (m : List Bool) : List UInt8 :=
  (List.range (4 * ((m.length + 31) / 32))).map fun k =>
    UInt8.ofNat ((List.range 8).foldl
      (fun n j => n + if m.getD (8 * k + j) false then 2 ^ j else 0) 0)

/-- `bitmap_write` to `free_map_file`. Where there is no such file the code follows a pointer that is
NULL or has been freed. It does not come to that: the map is written when the file has been opened, and
not after `free_map_close`. -/
def bitmapWrite (s : Files) : Bool × Files :=
  match s.freeMapFile.bind s.file with
  | none => (false, s)
  | some f =>
    let bytes := bitmapBytes (s.freeMap ++ s.pad)
    let (written, s) := inodeWriteAt f.inode (fun j => bytes.getD j 0) bytes.length 0 s
    (written == bytes.length, s)

/-- `bitmap_set_multiple`. -/
def setMultiple (m : List Bool) (start cnt : Nat) (value : Bool) : List Bool :=
  m.mapIdx fun i b => if start ≤ i ∧ i < start + cnt then value else b

/-- `bitmap_scan` for `cnt` bits that are false. -/
def bitmapScan (m : List Bool) (cnt : Nat) : Option Nat :=
  (List.range (m.length + 1 - cnt)).find? fun i => ((m.drop i).take cnt).all (!·)

/-- `free_map_allocate`. -/
def freeMapAllocate (cnt : Nat) (s : Files) : Option SectorNo × Files :=
  match bitmapScan s.freeMap cnt with
  | none => (none, s)
  | some sector =>
    let s := { s with freeMap := setMultiple s.freeMap sector cnt true }
    if s.freeMapFile.isSome then
      let (ok, s) := bitmapWrite s
      if ok then (some sector, s)
      else (none, { s with freeMap := setMultiple s.freeMap sector cnt false })
    else (some sector, s)

/-- `free_map_release`, called only while the file of the free map is open. -/
def freeMapRelease (sector : SectorNo) (cnt : Nat) (s : Files) : Except Assertion Files :=
  if sector + cnt ≤ s.freeMap.length ∧ ((s.freeMap.drop sector).take cnt).all id then
    .ok (bitmapWrite { s with freeMap := setMultiple s.freeMap sector cnt false }).2
  else .error .freeMap

/-! ## Inodes in memory -/

def Files.setInode (r : InodeRef) (ino : Inode) (s : Files) : Files :=
  { s with inode := Function.update s.inode r ino }

/-- `inode_create`. -/
def inodeCreate (sector : SectorNo) (length : Int) (s : Files) : Except Assertion (Bool × Files) :=
  if length < 0 then .error .length
  else
    let sectors := bytesToSectors length
    match freeMapAllocate sectors s with
    | (none, s) => .ok (false, s)
    | (some start, s) =>
      let device := Function.update s.device sector (inodeDisk start length)
      .ok (true, { s with
        device := fun i => if start ≤ i ∧ i < start + sectors then fun _ => 0 else device i })

/-- `inode_reopen`. -/
def inodeReopen (r : InodeRef) (s : Files) : Files :=
  s.setInode r { s.inode r with openCnt := (s.inode r).openCnt + 1 }

/-- `inode_open`; `alloc` says whether `malloc` succeeds. -/
def inodeOpen (sector : SectorNo) (alloc : Bool) (s : Files) : Option InodeRef × Files :=
  match s.openInodes.find? fun r => (s.inode r).sector == sector with
  | some r => (some r, inodeReopen r s)
  | none =>
    if alloc then
      let data := (s.device sector).byte
      (some s.nextInode, { s with
        openInodes := s.nextInode :: s.openInodes
        nextInode := s.nextInode + 1
        inode := Function.update s.inode s.nextInode
          { sector := sector, openCnt := 1, removed := false, denyWriteCnt := 0
            start := word data 0, length := Int.bmod (word data 4) (2 ^ 32) } })
    else (none, s)

/-- `inode_close`. -/
def inodeClose (r : Option InodeRef) (s : Files) : Except Assertion Files :=
  match r with
  | none => .ok s
  | some r =>
    let ino := s.inode r
    let s := s.setInode r { ino with openCnt := ino.openCnt - 1 }
    if ino.openCnt - 1 = 0 then
      let s := { s with openInodes := s.openInodes.erase r }
      if ino.removed then do
        let s ← freeMapRelease ino.sector 1 s
        freeMapRelease ino.start (bytesToSectors ino.length) s
      else .ok s
    else .ok s

/-- `inode_remove`. -/
def inodeRemove (r : InodeRef) (s : Files) : Files :=
  s.setInode r { s.inode r with removed := true }

/-- `inode_deny_write`. -/
def inodeDenyWrite (r : InodeRef) (s : Files) : Except Assertion Files :=
  let ino := s.inode r
  if ino.denyWriteCnt + 1 ≤ ino.openCnt then
    .ok (s.setInode r { ino with denyWriteCnt := ino.denyWriteCnt + 1 })
  else .error .denyWriteCnt

/-- `inode_allow_write`. -/
def inodeAllowWrite (r : InodeRef) (s : Files) : Except Assertion Files :=
  let ino := s.inode r
  if 0 < ino.denyWriteCnt ∧ ino.denyWriteCnt ≤ ino.openCnt then
    .ok (s.setInode r { ino with denyWriteCnt := ino.denyWriteCnt - 1 })
  else .error .denyWriteCnt

end Pintos.Filesys
