import Pintos.Filesys.References

/-!
# Starting and stopping the file system

`filesys_init`, `filesys_done` and `do_format` of `filesys/filesys.c`, with what `filesys/free-map.c`
does for them. Allocations of memory succeed here; where one does not the kernel panics. The root
directory is created with any number of entries; the source asks for 16.
-/

namespace Pintos.Filesys

open Pintos.Lib

/-- Before `filesys_init`: what is on the device, and nothing in memory. -/
def bootFiles (device : SectorNo → Sector) : Files := (initUsers device []).fs

/-! ## The free map -/

/-- `bitmap_file_size`. -/
def bitmapFileSize (m : List Bool) : Nat := 4 * ((m.length + 31) / 32)

/-- `free_map_init` on a device of `size` sectors; `junk` is what `malloc` leaves behind the last
bit. A device of less than two sectors, of which one of the marks would be outside, is never
formatted. -/
def freeMapInit (size : Nat) (junk : Nat → Bool) (s : Files) : Files :=
  { s with
    freeMap := ((List.replicate size false).set freeMapSector true).set rootDirSector true
    pad := (List.range ((32 - size % 32) % 32)).map junk }

/-- The bits in bytes, lowest first. -/
def bitsOf (bytes : List UInt8) (cnt : Nat) : List Bool :=
  (List.range cnt).map fun i => (bytes.getD (i / 8) 0).toNat.testBit (i % 8)

/-- `bitmap_read` from `free_map_file`. A short read leaves the rest as it was; `last_mask` clears
the bits behind the last. -/
def bitmapRead (f : FileRef) (s : Files) : Except Assertion (Bool × Files) := do
  let x ← s.getFile f
  let size := bitmapFileSize s.freeMap
  let bytes := inodeReadAt x.inode size 0 s
  let old := bitmapBytes (s.freeMap ++ s.pad)
  .ok (bytes.length == size, { s with
    freeMap := bitsOf (bytes ++ old.drop bytes.length) s.freeMap.length
    pad := List.replicate s.pad.length false })

/-- `free_map_file = file_open (inode_open (FREE_MAP_SECTOR))`. -/
def openFreeMapFile (s : Files) : Except Assertion (FileRef × Files) :=
  match inodeOpen freeMapSector true s with
  | (r, s) => do
    match ← fileOpen r true s with
    | (none, _) => .error .panic
    | (some f, s) => .ok (f, { s with freeMapFile := some f })

/-- `free_map_open`. -/
def freeMapOpen (s : Files) : Except Assertion Files := do
  let (f, s) ← openFreeMapFile s
  let (ok, s) ← bitmapRead f s
  if ok then .ok s else .error .panic

/-- `free_map_close`. `free_map_file` goes on pointing at the file. -/
def freeMapClose (s : Files) : Except Assertion Files :=
  match s.freeMapFile with
  | none => .ok s
  | some f => fileClose f s

/-- `free_map_create`. -/
def freeMapCreate (s : Files) : Except Assertion Files := do
  let (created, s) ← inodeCreate freeMapSector (bitmapFileSize s.freeMap) s
  if created then do
    let (_, s) ← openFreeMapFile s
    let (ok, s) := bitmapWrite s
    if ok then .ok s else .error .panic
  else .error .panic

/-! ## The file system -/

/-- `dir_create`; the product is a `size_t`. -/
def dirCreate (sector : SectorNo) (entryCnt : Nat) (s : Files) : Except Assertion (Bool × Files) :=
  inodeCreate sector (Int.bmod (20 * entryCnt) (2 ^ 32)) s

/-- `do_format`. -/
def doFormat (entryCnt : Nat) (s : Files) : Except Assertion Files := do
  let s ← freeMapCreate s
  let (created, s) ← dirCreate rootDirSector entryCnt s
  if created then freeMapClose s else .error .panic

/-- `filesys_init (true)`. -/
def filesysFormat (size : Nat) (junk : Nat → Bool) (entryCnt : Nat) (device : SectorNo → Sector) :
    Except Assertion Files := do
  let s ← doFormat entryCnt (freeMapInit size junk (bootFiles device))
  freeMapOpen s

/-- `filesys_init (false)`. -/
def filesysInit (size : Nat) (junk : Nat → Bool) (device : SectorNo → Sector) :
    Except Assertion Files :=
  freeMapOpen (freeMapInit size junk (bootFiles device))

/-- `filesys_done`. -/
def filesysDone (s : Files) : Except Assertion Files := freeMapClose s

end Pintos.Filesys
