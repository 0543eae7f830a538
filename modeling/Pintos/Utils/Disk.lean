import Pintos.Lib.Bytes
import Pintos.Lib.Fallible

/-!
# The disk builder

`assemble_disk` of `utils/Pintos.pm` and what it calls, and the reader of the same file,
`read_mbr` and `interpret_partition_table`. A program that dies is an error with the text it dies
with. The numbers stay below 2^53, where Perl computes exactly.

The files are there and can be read, and the disk can be written.
-/

namespace Pintos.Utils

open Pintos.Lib

abbrev Bytes := List UInt8

/-- The text a program dies with. -/
abbrev Die := String

/-! ## Partitions -/

/-- The keys of `%role2type`. -/
inductive Role where
  | kernel
  | filesys
  | scratch
  | swap
  deriving DecidableEq, Repr

/-- `%role2type`. -/
def role2type : Role → Nat
  | .kernel => 0x20
  | .filesys => 0x21
  | .scratch => 0x22
  | .swap => 0x23

/-- `@role_order`. -/
def roleOrder : List Role := [.kernel, .filesys, .scratch, .swap]

/-- `%type2role`, which is `reverse %role2type`. -/
def type2role (type : Nat) : Option Role := roleOrder.find? fun role => role2type role == type

/-- A file to copy from; `size` is `none` for one that does not end, as `/dev/zero`. -/
structure SourceFile where
  name : String
  size : Option Nat
  byte : Nat → UInt8

/-- What a role is given as. -/
structure Part where
  file : SourceFile
  offset : Nat
  bytes : Nat
  disk : Option String

/-- A partition once `start` and `sectors` have been filled in. -/
structure Placed where
  role : Role
  part : Part
  start : Nat
  sectors : Nat

/-- A hash of heads and sectors per track, where a key may be missing. -/
structure Geometry where
  H : Option Nat
  S : Option Nat
  deriving DecidableEq, Repr

/-- A missing key is `undef`, and that is 0 in arithmetic. -/
def num (x : Option Nat) : Nat := x.getD 0

/-- What `GEOMETRY` may be. -/
inductive GeometryArg where
  | undef
  /-- `{H => heads, S => sectors per track}`, as the comment has it. -/
  | ref (H S : Nat)
  /-- `%geometry` in scalar context, as `utils/pintos` and `utils/pintos-mkdisk` pass it. -/
  | count (n : Nat)
  deriving DecidableEq, Repr

/-- Whether the argument is a true value. -/
def GeometryArg.given : GeometryArg → Bool
  | .undef => false
  | .ref _ _ => true
  | .count n => n != 0

/-- `%args`. -/
structure Args where
  parts : Role → Option Part
  /-- `DISK`. -/
  disk : String
  align : Option String
  geometry : GeometryArg
  format : Option String
  loader : Option Bytes
  /-- `ARGS`. -/
  args : List Bytes

/-- A true string: not `undef`, not empty, not `"0"`. -/
def truthy (s : Option String) : Bool := s != none && s != some "" && s != some "0"

/-! ## Arithmetic -/

/-- `div_round_up`. -/
def divRoundUp (x y : Nat) : Except Die Nat :=
  if y = 0 then .error "Illegal division by zero" else .ok ((x + y - 1) / y)

/-- `round_up`. -/
def roundUp (x y : Nat) : Except Die Nat := do
  let n ← divRoundUp x y
  pure (n * y)

/-- `cyl_sectors`. -/
def cylSectors (g : Geometry) : Nat := num g.H * num g.S

/-- `lba_to_chs`: cylinder, head and sector. -/
def lbaToChs (lba : Nat) (g : Geometry) : Except Die (Nat × Nat × Nat) :=
  let hpc := num g.H
  let spt := num g.S
  if hpc * spt = 0 then .error "Illegal division by zero"
  else
    let cyl := lba / (hpc * spt)
    let temp := lba % (hpc * spt)
    let head := temp / spt
    let sect := temp % spt + 1
    if cyl ≤ 1023 then .ok (cyl, head, sect) else .ok (1023, 254, 63)

/-- `pack_chs`. -/
def packChs (lba : Nat) (g : Geometry) : Except Die Bytes := do
  let (cyl, head, sect) ← lbaToChs lba g
  pure [UInt8.ofNat head, UInt8.ofNat (sect ||| ((cyl >>> 2) &&& 0xc0)), UInt8.ofNat (cyl &&& 0xff)]

/-! ## The master boot record -/

/-- One entry of `make_partition_table`. -/
def packEntry (g : Geometry) (p : Placed) : Except Die Bytes := do
  let fin := p.start + p.sectors - 1
  let first ← packChs p.start g
  let last ← packChs fin g
  pure ([if p.role = .kernel then 0x80 else 0] ++ first ++ [UInt8.ofNat (role2type p.role)] ++ last ++
    leBytes 4 p.start ++ leBytes 4 p.sectors)

/-- The loop of `make_partition_table`. -/
def packEntries (g : Geometry) : List Placed → Bytes → Except Die Bytes
  | [], table => .ok table
  | p :: ps, table => do
    let entry ← packEntry g p
    if (table ++ entry).length % 16 ≠ 0 then .error "Died" else packEntries g ps (table ++ entry)

/-- `make_partition_table`. -/
def makePartitionTable (g : Geometry) (ps : List Placed) : Except Die Bytes := do
  let table ← packEntries g ps []
  pure (padTo 64 table)

/-- `make_kernel_command_line`. -/
def makeKernelCommandLine (args : List Bytes) : Except Die Bytes :=
  let line := args.flatMap fun arg => arg ++ [0]
  if line.length > 128 then .error "command line exceeds 128 bytes"
  else .ok (leBytes 4 args.length ++ padTo 128 line)

/-- `$args{LOADER} || "\xcd\x18"`. -/
def loaderOf : Option Bytes → Bytes
  | none => [0xcd, 0x18]
  | some loader => if loader = [] ∨ loader = [0x30] then [0xcd, 0x18] else loader

/-- `$LOADER_SIZE`. -/
def loaderSize : Nat := 314

/-- The master boot record, as `assemble_disk` puts it together. -/
def makeMbr (g : Geometry) (args : Args) (ps : List Placed) : Except Die Bytes := do
  let commandLine ← makeKernelCommandLine args.args
  let table ← makePartitionTable g ps
  let mbr := padTo loaderSize (loaderOf args.loader) ++ commandLine ++ table ++ leBytes 2 0xaa55
  if mbr.length ≠ 512 then .error "Died" else .ok mbr

/-! ## Copying -/

/-- `read_fully`, of the bytes at `pos`. -/
def readFully (f : SourceFile) (pos bytes : Nat) : Except Die Bytes :=
  let readBytes := match f.size with
    | none => bytes
    | some n => min bytes (n - pos)
  if readBytes ≠ bytes then .error (f.name ++ ": unexpected end of file\n")
  else .ok ((List.range bytes).map fun j => f.byte (pos + j))

/-- `copy_file`: what is written to the disk. -/
def copyFile (f : SourceFile) (pos size : Nat) : Except Die Bytes :=
  if size = 0 then .ok []
  else do
    let chunk := if 4096 > size then size else 4096
    let data ← readFully f pos chunk
    let rest ← copyFile f (pos + chunk) (size - chunk)
    pure (data ++ rest)
  termination_by size
  decreasing_by split <;> omega

/-- `write_zeros`. -/
def writeZeros (size : Nat) : Bytes :=
  if size = 0 then []
  else
    let chunk := if 4096 > size then size else 4096
    List.replicate chunk 0 ++ writeZeros (size - chunk)
  termination_by size
  decreasing_by split <;> omega

/-! ## Assembling -/

/-- `my (%geometry) = $args{GEOMETRY} || (H => 16, S => 63)`. A true left side is a scalar: the
hash then has one key, and that is neither `H` nor `S`. -/
def geometryOf (arg : GeometryArg) : Geometry :=
  if arg.given then { H := none, S := none } else { H := some 16, S := some 63 }

/-- `$align` and `$pad`. -/
def alignment : Option String → Except Die (Bool × Bool)
  | none => .ok (false, true)
  | some s =>
    if s = "bochs" then .ok (false, true)
    else if s = "full" then .ok (true, false)
    else if s = "none" then .ok (false, false)
    else .error "Died"

/-- `$args{FORMAT} || 'partitioned'`, and whether it is `partitioned`. -/
def partitioned (args : Args) : Except Die Bool :=
  let format := if truthy args.format then args.format.getD "" else "partitioned"
  if format = "partitioned" then .ok true
  else if format = "raw" then
    if (roleOrder.filter fun role => (args.parts role).isSome).length = 1 then .ok false
    else .error "must have exactly one partition for raw output\n"
  else .error "Died"

/-- `$end = round_up ($end, cyl_sectors (%geometry)) if $align`. -/
def alignEnd (g : Geometry) (align : Bool) (fin : Nat) : Except Die Nat :=
  if align then roundUp fin (cylSectors g) else .ok fin

/-- The loop that calculates the disk size: the total, and the partitions with their places. -/
def place (g : Geometry) (align : Bool) (parts : Role → Option Part) :
    List Role → Nat → Except Die (Nat × List Placed)
  | [], total => .ok (total, [])
  | role :: roles, total =>
    match parts role with
    | none => place g align parts roles total
    | some p =>
      if truthy p.disk then .error "Died"
      else do
        let sectors ← divRoundUp p.bytes 512
        let fin ← alignEnd g align (total + sectors)
        let (last, rest) ← place g align parts roles fin
        pure (last, { role := role, part := p, start := total, sectors := fin - total } :: rest)

/-- Where the first partition starts. -/
def firstSector (g : Geometry) (isPartitioned align : Bool) : Nat :=
  if isPartitioned then if align then num g.S else 1 else 0

/-- What comes before the partitions: the master boot record, and the rest of its track when `align`. -/
def writeHead (g : Geometry) (args : Args) (isPartitioned align : Bool) (ps : List Placed) :
    Except Die Bytes :=
  if isPartitioned then do
    let mbr ← makeMbr g args ps
    pure (mbr ++ if align then writeZeros (512 * (num g.S - 1)) else [])
  else .ok []

/-- The bytes of the partitions, one after another. -/
def writeParts : List Placed → Except Die Bytes
  | [] => .ok []
  | p :: ps => do
    let data ← copyFile p.part.file p.part.offset p.part.bytes
    let rest ← writeParts ps
    pure (data ++ writeZeros (p.sectors * 512 - p.part.bytes) ++ rest)

/-- A disk, and the partitions with `DISK`, `START` and `SECTORS` filled in. -/
structure Assembled where
  bytes : Bytes
  parts : List Placed

/-- The sectors of the disk, the last cylinder filled up when `pad`. -/
def diskSectors (g : Geometry) (pad : Bool) (total : Nat) : Except Die Nat :=
  if pad then roundUp total (cylSectors g) else .ok total

/-- `assemble_disk`, once the geometry is known. -/
def assembleWith (g : Geometry) (args : Args) : Except Die Assembled := do
  let (align, pad) ← alignment args.align
  let isPartitioned ← partitioned args
  let (total, placed) ← place g align args.parts roleOrder (firstSector g isPartitioned align)
  let head ← writeHead g args isPartitioned align placed
  let body ← writeParts placed
  let sectors ← diskSectors g pad total
  pure { bytes := head ++ body ++ writeZeros ((sectors - total) * 512), parts := placed }

/-- `assemble_disk`. -/
def assembleDisk (args : Args) : Except Die Assembled :=
  assembleWith (geometryOf args.geometry) args

/-! ## Reading back -/

/-- `read_mbr`; `none` is its numeric 0. -/
def readMbr (name : String) (disk : Bytes) : Except Die (Option Bytes) :=
  if disk.length = 0 then .error (name ++ ": file has zero size\n")
  else if disk.length ≥ 512 then
    let mbr := slice disk 0 512
    if ofLe (slice mbr 510 2) = 0xaa55 then .ok (some mbr) else .ok none
  else .ok none

/-- The warnings of `interpret_partition_table`. -/
inductive Warning where
  /-- "warning: invalid partition entry $i in $disk" -/
  | invalidEntry (i : Nat)
  /-- "warning: non-Pintos partition type 0x%02x in %s" -/
  | nonPintosType (type : Nat)
  /-- "warning: duplicate \L$role\E partition in $disk" -/
  | duplicate (role : Role)
  deriving DecidableEq, Repr

/-- `START` and `SECTORS` of a partition. -/
structure Extent where
  start : Nat
  sectors : Nat
  deriving DecidableEq, Repr

/-- The roles found so far, in order, and the warnings printed. -/
structure Interpreted where
  parts : List (Role × Extent)
  warnings : List Warning
  deriving DecidableEq, Repr

/-- One round of the loop in `interpret_partition_table`, with the fields of
`unpack ("C X V C x3 V V", ...)`. -/
def interpretEntry (mbr : Bytes) (acc : Interpreted) (i : Nat) : Interpreted :=
  let entry := slice mbr (446 + 16 * i) 16
  let bootable := ofLe (slice entry 0 1)
  let valid := ofLe (slice entry 0 4)
  let type := ofLe (slice entry 4 1)
  let lbaStart := ofLe (slice entry 8 4)
  let lbaLength := ofLe (slice entry 12 4)
  if valid = 0 then acc
  else if bootable ≠ 0 ∧ bootable ≠ 0x80 then
    { acc with warnings := acc.warnings ++ [.invalidEntry i] }
  else
    match type2role type with
    | none => { acc with warnings := acc.warnings ++ [.nonPintosType type] }
    | some role =>
      if acc.parts.any (·.1 = role) then
        { acc with warnings := acc.warnings ++ [.duplicate role] }
      else { acc with parts := acc.parts ++ [(role, { start := lbaStart, sectors := lbaLength })] }

/-- `interpret_partition_table`. -/
def interpretPartitionTable (mbr : Bytes) : Interpreted :=
  (List.range 4).foldl (interpretEntry mbr) { parts := [], warnings := [] }

/-- `read_partition_table`. -/
def readPartitionTable (name : String) (disk : Bytes) : Except Die Interpreted := do
  match ← readMbr name disk with
  | none => .error (name ++ ": not a partitioned disk\n")
  | some mbr => .ok (interpretPartitionTable mbr)

end Pintos.Utils
