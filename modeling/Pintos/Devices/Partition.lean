import Pintos.Lib.Bytes
import Pintos.Lib.Fallible

/-!
# The partition scan

`devices/partition.c`: what `partition_scan` registers of a device. Sector numbers and sizes are 32
bits wide. Whatever sector a partition table is said to be in, `read_partition_table` reads sector 0.

The blocks that `malloc` is asked for are there.
-/

namespace Pintos.Devices

open Pintos.Lib

/-- A device: `size` sectors of 512 bytes each. -/
structure Block where
  size : Nat
  bytes : List UInt8

/-- The panics of a scan. -/
inductive ScanFault where
  /-- "Access past end of device %s" -/
  | pastEnd (sector : Nat)
  /-- The nesting of extended partitions is deeper than the stack. -/
  | stack
  deriving DecidableEq, Repr

/-- `check_sector` and the read of `block_read`. -/
def blockRead (block : Block) (sector : Nat) : Except ScanFault (List UInt8) :=
  if sector ≥ block.size then .error (.pastEnd sector)
  else .ok (slice block.bytes (512 * sector) 512)

/-- `enum block_type`, of the types a partition can be given. -/
inductive BlockType where
  | kernel
  | filesys
  | scratch
  | swap
  | foreign
  deriving DecidableEq, Repr

/-- What `block_register` is given. -/
structure Partition where
  type : BlockType
  start : Nat
  size : Nat
  partNr : Nat
  deriving DecidableEq, Repr

/-- What is printed. -/
inductive Message where
  /-- "Partition table at sector %u past end of device." -/
  | tablePastEnd (sector : Nat)
  /-- "Invalid partition table signature" -/
  | invalidSignature
  /-- "Invalid extended partition table in sector %u" -/
  | invalidExtended (sector : Nat)
  /-- "Extended partition in sector %u" -/
  | extended (sector : Nat)
  /-- "Partition starts past end of device (sector %u)" -/
  | startsPastEnd (partNr start : Nat)
  /-- "Partition end (%u) past end of device (%u)" -/
  | endsPastEnd (partNr fin size : Nat)
  /-- "Device contains no partitions" -/
  | noPartitions
  deriving DecidableEq, Repr

/-- `*part_nr`, the partitions registered and the messages printed. -/
structure Scan where
  partNr : Nat
  blocks : List Partition
  messages : List Message
  deriving DecidableEq, Repr

/-- A scan that has printed one more message. -/
def Scan.say (s : Scan) (m : Message) : Scan := { s with messages := s.messages ++ [m] }

/-- `struct partition_table_entry`, but for the two addresses nobody reads. -/
structure Entry where
  bootable : Nat
  type : Nat
  offset : Nat
  size : Nat
  deriving DecidableEq, Repr

/-- `pt->partitions[i]`. -/
def tableEntry (pt : List UInt8) (i : Nat) : Entry :=
  let e := slice pt (446 + 16 * i) 16
  { bootable := ofLe (slice e 0 1), type := ofLe (slice e 4 1)
    offset := ofLe (slice e 8 4), size := ofLe (slice e 12 4) }

/-- `pt->signature`. -/
def tableSignature (pt : List UInt8) : Nat := ofLe (slice pt 510 2)

/-- The type that `found_partition` registers. -/
def blockTypeOf (partType : Nat) : BlockType :=
  if partType = 0x20 then .kernel
  else if partType = 0x21 then .filesys
  else if partType = 0x22 then .scratch
  else if partType = 0x23 then .swap
  else .foreign

/-- `found_partition`. -/
def foundPartition (block : Block) (partType start size partNr : Nat) (s : Scan) : Scan :=
  let fin := (start + size) % 2 ^ 32
  if start ≥ block.size then s.say (.startsPastEnd partNr start)
  else if fin < start ∨ fin > block.size then s.say (.endsPastEnd partNr fin block.size)
  else { s with blocks := s.blocks ++
    [{ type := blockTypeOf partType, start := start, size := size, partNr := partNr }] }

/-- The types of an extended partition. -/
def isExtended (type : Nat) : Bool := type == 0x05 || type == 0x0f || type == 0x85 || type == 0xc5

/-- One entry of a partition table; `nested` reads the table of an extended partition. -/
def scanEntry (block : Block) (nested : Nat → Nat → Scan → Except ScanFault Scan)
    (sector primaryExtendedSector : Nat) (e : Entry) (s : Scan) : Except ScanFault Scan :=
  if e.size = 0 ∨ e.type = 0 then .ok s
  else if isExtended e.type then
    let s := s.say (.extended sector)
    if sector = 0 then nested e.offset e.offset s
    else nested ((e.offset + primaryExtendedSector) % 2 ^ 32) primaryExtendedSector s
  else
    let s := { s with partNr := s.partNr + 1 }
    .ok (foundPartition block e.type ((e.offset + sector) % 2 ^ 32) e.size s.partNr s)

/-- `read_partition_table`, with a stack for `n` calls. -/
def readPartitionTable (block : Block) : Nat → Nat → Nat → Scan → Except ScanFault Scan
  | 0, _, _, _ => .error .stack
  | n + 1, sector, primaryExtendedSector, s =>
    if sector ≥ block.size then .ok (s.say (.tablePastEnd sector))
    else do
      let pt ← blockRead block 0
      if tableSignature pt ≠ 0xaa55 then
        pure (s.say (if primaryExtendedSector = 0 then .invalidSignature
          else .invalidExtended sector))
      else
        (List.range 4).foldlM (fun s i =>
          scanEntry block (readPartitionTable block n) sector primaryExtendedSector
            (tableEntry pt i) s) s

/-- `partition_scan`. -/
def partitionScan (block : Block) (stack : Nat) : Except ScanFault Scan := do
  let s ← readPartitionTable block stack 0 0 { partNr := 0, blocks := [], messages := [] }
  pure (if s.partNr = 0 then s.say .noPartitions else s)

end Pintos.Devices
