import Mathlib.Data.List.Nodup
import Pintos.Utils.Disk
import Pintos.Devices.Partition

/-!
# The partition table of a built disk

What `make_partition_table` packs is what the two readers unpack. `IsEntry` says what the fields of
one packed entry are, `MbrOf` what those of a master boot record are. Both decoders are runs through
four entries, and the step of each is looked at for an entry in use and for an empty one.
-/

namespace Pintos.Utils

open Pintos.Lib

/-! ## One entry -/

/-- The packed address of a sector has three bytes, and the second, which holds the sector in the
track, is not zero. -/
theorem packChs_ok {g : Geometry} (hH : 0 < num g.H) (hS : 0 < num g.S) (hS' : num g.S ≤ 63)
    (lba : Nat) : ∃ a b c, packChs lba g = .ok [a, b, c] ∧ b ≠ 0 := by
  have hpos : 0 < num g.H * num g.S := Nat.mul_pos hH hS
  -- The sector takes the low six bits, and the cylinder the other two.
  have key : ∀ sect cyl : Nat, 0 < sect → sect < 64 →
      UInt8.ofNat (sect ||| ((cyl >>> 2) &&& 0xc0)) ≠ 0 := by
    intro sect cyl h0 h64 h
    have hlt : sect ||| ((cyl >>> 2) &&& 0xc0) < 2 ^ 8 :=
      Nat.or_lt_two_pow (by omega) (Nat.lt_of_le_of_lt Nat.and_le_right (by decide))
    have hle : sect ≤ sect ||| ((cyl >>> 2) &&& 0xc0) := Nat.left_le_or
    have := congrArg UInt8.toNat h
    rw [UInt8.toNat_ofNat', Nat.mod_eq_of_lt hlt] at this
    have h00 : (0 : UInt8).toNat = 0 := rfl
    omega
  rw [packChs, lbaToChs]
  simp only [if_neg (show ¬ num g.H * num g.S = 0 by omega)]
  split
  · have := Nat.mod_lt (lba % (num g.H * num g.S)) hS
    exact ⟨_, _, _, rfl, key _ _ (Nat.succ_pos _) (show _ + 1 < 64 by omega)⟩
  · exact ⟨_, _, _, rfl, key _ _ (by decide) (by decide)⟩

/-- The fields of a packed entry. -/
structure IsEntry (p : Placed) (e : Bytes) : Prop where
  length : e.length = 16
  bootable : ofLe (slice e 0 1) = if p.role = .kernel then 0x80 else 0
  valid : ofLe (slice e 0 4) ≠ 0
  type : ofLe (slice e 4 1) = role2type p.role
  start : ofLe (slice e 8 4) = p.start % 2 ^ 32
  sectors : ofLe (slice e 12 4) = p.sectors % 2 ^ 32

theorem role2type_bounds (role : Role) : 0x20 ≤ role2type role ∧ role2type role ≤ 0x23 := by
  cases role <;> decide

theorem packEntry_ok {g : Geometry} (hH : 0 < num g.H) (hS : 0 < num g.S) (hS' : num g.S ≤ 63)
    (p : Placed) : ∃ e, packEntry g p = .ok e ∧ IsEntry p e := by
  obtain ⟨a, b, c, hfirst, hb⟩ := packChs_ok hH hS hS' p.start
  obtain ⟨a', b', c', hlast, -⟩ := packChs_ok hH hS hS' (p.start + p.sectors - 1)
  refine ⟨_, by simp only [packEntry, hfirst, hlast, bind_ok]; rfl, ?_⟩
  have htype := role2type_bounds p.role
  refine ⟨by simp, ?_, ?_, ?_, ?_, ?_⟩
  · split <;> rfl
  · intro h
    simp [slice, ofLe] at h
    exact hb (UInt8.toNat_inj.mp h.2.2.1)
  · show (UInt8.ofNat (role2type p.role)).toNat + 256 * 0 = _
    rw [UInt8.toNat_ofNat', Nat.mod_eq_of_lt (by omega)]
    omega
  · rw [slice_append_left (by simp), slice_append_right (by simp)]
    exact (congrArg ofLe (slice_self (leBytes 4 p.start))).trans (ofLe_leBytes 4 p.start)
  · rw [slice_append_right (by simp)]
    exact (congrArg ofLe (slice_self (leBytes 4 p.sectors))).trans (ofLe_leBytes 4 p.sectors)

/-! ## The table -/

/-- The packed entries, one after another. -/
theorem packEntries_ok {g : Geometry} {pack : Placed → Bytes}
    (hpack : ∀ p, packEntry g p = .ok (pack p) ∧ IsEntry p (pack p)) (ps : List Placed)
    (table : Bytes) (h : table.length % 16 = 0) :
    packEntries g ps table = .ok (table ++ ps.flatMap pack) := by
  induction ps generalizing table with
  | nil => simp [packEntries]
  | cons p ps ih =>
    obtain ⟨he, hentry⟩ := hpack p
    have hlen : (table ++ pack p).length % 16 = 0 := by
      rw [List.length_append, hentry.length]
      omega
    simp only [packEntries, he, bind_ok, if_neg (not_not.mpr hlen), ih _ hlen, List.flatMap_cons,
      List.append_assoc]

/-- A master boot record with the entries of `ps`, and empty ones after them. -/
structure MbrOf (ps : List Placed) (mbr : Bytes) : Prop where
  length : mbr.length = 512
  signature : ofLe (slice mbr 510 2) = 0xaa55
  entry : ∀ i (h : i < ps.length), IsEntry ps[i] (slice mbr (446 + 16 * i) 16)
  empty : ∀ i, ps.length ≤ i → i < 4 → slice mbr (446 + 16 * i) 16 = List.replicate 16 0

/-- The pieces of a master boot record. -/
theorem mbrOf_append {pack : Placed → Bytes} (hpack : ∀ p, IsEntry p (pack p)) {ps : List Placed}
    (hps : ps.length ≤ 4) (front : Bytes) (hfront : front.length = 446) :
    MbrOf ps (front ++ padTo 64 (ps.flatMap pack) ++ leBytes 2 0xaa55) := by
  have h16 : ∀ p, (pack p).length = 16 := fun p => (hpack p).length
  have hlen : (ps.flatMap pack).length = 16 * ps.length := length_flatMap_const pack h16 ps
  have htable : padTo 64 (ps.flatMap pack) =
      ps.flatMap pack ++ List.replicate (64 - 16 * ps.length) 0 := by
    rw [padTo_of_le (by omega), hlen]
  have hfield : ∀ i, i < 4 →
      slice (front ++ padTo 64 (ps.flatMap pack) ++ leBytes 2 0xaa55) (446 + 16 * i) 16 =
        slice (padTo 64 (ps.flatMap pack)) (16 * i) 16 := by
    intro i hi
    rw [slice_append_left (by rw [List.length_append, hfront, length_padTo]; omega),
      slice_append_right (by omega), hfront, Nat.add_sub_cancel_left]
  refine ⟨?_, ?_, ?_, ?_⟩
  · rw [List.length_append, List.length_append, hfront, length_padTo, length_leBytes]
  · have h510 : (front ++ padTo 64 (ps.flatMap pack)).length = 510 := by
      rw [List.length_append, hfront, length_padTo]
    rw [slice_append_right (by omega), h510]
    rfl
  · intro i hi
    rw [hfield i (by omega), htable, slice_append_left (by omega), slice_flatMap pack h16 ps i hi]
    exact hpack _
  · intro i hi hi'
    rw [hfield i hi', htable, slice_append_right (by omega), hlen, slice_replicate (by omega)]

theorem makeMbr_ok {g : Geometry} (hH : 0 < num g.H) (hS : 0 < num g.S) (hS' : num g.S ≤ 63)
    {args : Args} (hargs : (args.args.flatMap fun arg => arg ++ [0]).length ≤ 128)
    {ps : List Placed} (hps : ps.length ≤ 4) :
    ∃ mbr, makeMbr g args ps = .ok mbr ∧ MbrOf ps mbr := by
  choose pack hpack using packEntry_ok hH hS hS'
  have hcommand : makeKernelCommandLine args.args = .ok (leBytes 4 args.args.length ++
      padTo 128 (args.args.flatMap fun arg => arg ++ [0])) := if_neg (by omega)
  have hmbr := mbrOf_append (fun p => (hpack p).2) hps
    (padTo loaderSize (loaderOf args.loader) ++ (leBytes 4 args.args.length ++
      padTo 128 (args.args.flatMap fun arg => arg ++ [0])))
    (by simp only [List.length_append, length_padTo, length_leBytes]; rfl)
  refine ⟨_, ?_, hmbr⟩
  simp only [makeMbr, makePartitionTable, hcommand, bind_ok, packEntries_ok hpack ps [] rfl,
    List.nil_append]
  exact if_neg (not_not.mpr hmbr.length)

/-! ## The readers -/

theorem type2role_role2type (role : Role) : type2role (role2type role) = some role := by
  cases role <;> rfl

/-- What `interpret_partition_table` finds of a partition. -/
def Placed.found (p : Placed) : Role × Extent := (p.role, { start := p.start, sectors := p.sectors })

/-- Roles once each, and places that fit 32 bits. -/
structure Readable (ps : List Placed) : Prop where
  nodup : (ps.map Placed.role).Nodup
  length : ps.length ≤ 4
  start : ∀ p ∈ ps, 1 ≤ p.start
  sectors : ∀ p ∈ ps, 0 < p.sectors
  fits : ∀ p ∈ ps, p.start + p.sectors < 2 ^ 32

/-- An entry in use adds its role, if it is a new one. -/
theorem interpretEntry_isEntry {mbr : Bytes} {p : Placed} {i : Nat}
    (h : IsEntry p (slice mbr (446 + 16 * i) 16)) (hfits : p.start + p.sectors < 2 ^ 32)
    {acc : Interpreted} (hnew : ∀ q ∈ acc.parts, q.1 ≠ p.role) :
    interpretEntry mbr acc i = { acc with parts := acc.parts ++ [p.found] } := by
  have hany : acc.parts.any (·.1 = p.role) = false := by
    rw [List.any_eq_false]
    intro q hq
    simpa using hnew q hq
  have hboot : ¬ (ofLe (slice (slice mbr (446 + 16 * i) 16) 0 1) ≠ 0 ∧
      ofLe (slice (slice mbr (446 + 16 * i) 16) 0 1) ≠ 0x80) := by
    rw [h.bootable]
    split <;> simp
  simp only [interpretEntry, if_neg h.valid, if_neg hboot, h.type, type2role_role2type, hany,
    h.start, h.sectors, Nat.mod_eq_of_lt (show p.start < 2 ^ 32 by omega),
    Nat.mod_eq_of_lt (show p.sectors < 2 ^ 32 by omega)]
  rfl

/-- An empty entry is passed over. -/
theorem interpretEntry_empty {mbr : Bytes} {i : Nat}
    (h : slice mbr (446 + 16 * i) 16 = List.replicate 16 0) (acc : Interpreted) :
    interpretEntry mbr acc i = acc := by
  simp only [interpretEntry, h]
  exact if_pos rfl

/-- `interpret_partition_table` finds the partitions that were packed, and has nothing to say. -/
theorem interpretPartitionTable_mbr {ps : List Placed} {mbr : Bytes} (h : MbrOf ps mbr)
    (hr : Readable ps) :
    interpretPartitionTable mbr = { parts := ps.map Placed.found, warnings := [] } := by
  -- After `k` rounds the first `k` partitions have been found.
  have key : ∀ k ≤ 4, (List.range k).foldl (interpretEntry mbr) { parts := [], warnings := [] } =
      { parts := (ps.take k).map Placed.found, warnings := [] } := by
    intro k
    induction k with
    | zero =>
      intro _
      rfl
    | succ k ih =>
      intro hk
      rw [List.range_succ, List.foldl_append, ih (by omega), List.foldl_cons, List.foldl_nil]
      by_cases hlt : k < ps.length
      · have hnew : ∀ q ∈ (ps.take k).map Placed.found, q.1 ≠ ps[k].role := by
          intro q hq hrole
          obtain ⟨p, hp, rfl⟩ := List.mem_map.mp hq
          obtain ⟨j, hj, rfl⟩ := List.mem_iff_getElem.mp hp
          rw [List.length_take] at hj
          have hj' : j < (ps.map Placed.role).length := by
            rw [List.length_map]
            omega
          have hk' : k < (ps.map Placed.role).length := by
            rw [List.length_map]
            exact hlt
          have hjk : (ps.map Placed.role)[j] = (ps.map Placed.role)[k] := by
            simpa [Placed.found] using hrole
          have := hr.nodup.getElem_inj_iff.mp hjk
          omega
        rw [interpretEntry_isEntry (h.entry k hlt) (hr.fits _ (List.getElem_mem hlt)) hnew,
          List.take_succ_eq_append_getElem hlt, List.map_append, List.map_singleton]
      · rw [interpretEntry_empty (h.empty k (by omega) (by omega)),
          List.take_of_length_le (by omega), List.take_of_length_le (by omega)]
  rw [interpretPartitionTable, key 4 (le_refl 4), List.take_of_length_le hr.length]

/-- The type of block a role is. -/
def Role.blockType : Role → Devices.BlockType
  | .kernel => .kernel
  | .filesys => .filesys
  | .scratch => .scratch
  | .swap => .swap

theorem blockTypeOf_role2type (role : Role) :
    Devices.blockTypeOf (role2type role) = role.blockType := by
  cases role <;> rfl

/-- What the scan registers of the partition with index `i`. -/
def Placed.registered (i : Nat) (p : Placed) : Devices.Partition :=
  { type := p.role.blockType, start := p.start, size := p.sectors, partNr := i + 1 }

open Devices (Block Scan) in
/-- An entry in use is registered. -/
theorem scanEntry_isEntry {block : Block} {mbr : Bytes} {p : Placed} {i : Nat}
    (h : IsEntry p (slice mbr (446 + 16 * i) 16)) (hfits : p.start + p.sectors < 2 ^ 32)
    (hpos : 0 < p.sectors) (hend : p.start + p.sectors ≤ block.size)
    {nested : Nat → Nat → Scan → Except Devices.ScanFault Scan} (s : Scan) :
    Devices.scanEntry block nested 0 0 (Devices.tableEntry mbr i) s =
      .ok { s with partNr := s.partNr + 1, blocks := s.blocks ++ [p.registered s.partNr] } := by
  have htype := role2type_bounds p.role
  have hsize : (Devices.tableEntry mbr i).size = p.sectors :=
    h.sectors.trans (Nat.mod_eq_of_lt (by omega))
  have hoffset : (Devices.tableEntry mbr i).offset = p.start :=
    h.start.trans (Nat.mod_eq_of_lt (by omega))
  have htypeEq : (Devices.tableEntry mbr i).type = role2type p.role := h.type
  have hext : Devices.isExtended (role2type p.role) = false := by
    cases p.role <;> rfl
  rw [Devices.scanEntry, if_neg (by omega), htypeEq, hext]
  simp only [Bool.false_eq_true, if_false, Devices.foundPartition, hsize, hoffset, Nat.add_zero,
    Nat.mod_eq_of_lt (show p.start < 2 ^ 32 by omega), Nat.mod_eq_of_lt hfits]
  rw [if_neg (by omega), if_neg (by omega), blockTypeOf_role2type]
  rfl

open Devices (Block Scan) in
theorem scanEntry_empty {block : Block} {mbr : Bytes} {i : Nat}
    (h : slice mbr (446 + 16 * i) 16 = List.replicate 16 0)
    {nested : Nat → Nat → Scan → Except Devices.ScanFault Scan} (s : Scan) :
    Devices.scanEntry block nested 0 0 (Devices.tableEntry mbr i) s = .ok s := by
  refine if_pos (.inl ?_)
  simp only [Devices.tableEntry, h]
  rfl

/-- The kernel registers the partitions that were packed, and prints nothing. -/
theorem partitionScan_mbr {ps : List Placed} {block : Devices.Block} (hpos : ps ≠ [])
    (h : MbrOf ps (slice block.bytes 0 512)) (hr : Readable ps)
    (hend : ∀ p ∈ ps, p.start + p.sectors ≤ block.size) (stack : Nat) :
    Devices.partitionScan block (stack + 1) =
      .ok { partNr := ps.length, blocks := ps.mapIdx Placed.registered, messages := [] } := by
  have hsize : 0 < block.size := by
    obtain ⟨p, ps, rfl⟩ := List.exists_cons_of_ne_nil hpos
    have := hend p (by simp)
    have := hr.sectors p (by simp)
    omega
  -- After `k` rounds the first `k` partitions are registered.
  have key : ∀ k ≤ 4, (List.range k).foldlM (fun s i =>
      Devices.scanEntry block (Devices.readPartitionTable block stack) 0 0
        (Devices.tableEntry (slice block.bytes 0 512) i) s)
        ({ partNr := 0, blocks := [], messages := [] } : Devices.Scan) =
      .ok { partNr := (ps.take k).length, blocks := (ps.take k).mapIdx Placed.registered
            messages := [] } := by
    intro k
    induction k with
    | zero =>
      intro _
      rfl
    | succ k ih =>
      intro hk
      rw [List.range_succ, List.foldlM_append, ih (by omega), bind_ok]
      simp only [List.foldlM_cons, List.foldlM_nil]
      by_cases hlt : k < ps.length
      · have hmem := List.getElem_mem hlt
        rw [scanEntry_isEntry (h.entry k hlt) (hr.fits _ hmem) (hr.sectors _ hmem) (hend _ hmem),
          bind_ok, List.take_succ_eq_append_getElem hlt]
        simp only [List.mapIdx_append, List.length_append, List.length_singleton, List.mapIdx_cons,
          List.mapIdx_nil, Nat.zero_add]
        rfl
      · rw [scanEntry_empty (h.empty k (by omega) (by omega)), bind_ok,
          List.take_of_length_le (show ps.length ≤ k by omega),
          List.take_of_length_le (show ps.length ≤ k + 1 by omega)]
        rfl
  have hread : Devices.blockRead block 0 = .ok (slice block.bytes 0 512) := if_neg (by omega)
  have hsig : Devices.tableSignature (slice block.bytes 0 512) = 0xaa55 := h.signature
  have hlen : ps.length ≠ 0 := fun h0 => hpos (List.length_eq_zero_iff.mp h0)
  rw [Devices.partitionScan, Devices.readPartitionTable, if_neg (by omega), hread, bind_ok,
    if_neg (not_not.mpr hsig), key 4 (le_refl 4), List.take_of_length_le hr.length, bind_ok]
  simp only [if_neg hlen]
  rfl

end Pintos.Utils
