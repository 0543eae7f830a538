import Pintos.Filesys.Contents
import Pintos.Filesys.Format

/-!
# The free map and its file

`bitmap_read` takes back what `bitmap_write` has written, whatever stands behind the last bit. As long
as `MapFile` holds, `free_map_allocate` and `free_map_release` leave the file with what the map has in
memory, `Synced`, and touch no sector but those of the file.
-/

namespace Pintos.Filesys

open Pintos.Lib

variable {m : List Bool} {s s' : Files} {f : FileRef} {r : InodeRef} {a cnt : Nat}

/-! ## Bits and bytes -/

/-- A bitmap is written in whole words. -/
theorem length_bitmapBytes (m : List Bool) : (bitmapBytes m).length = 4 * ((m.length + 31) / 32) := by
  unfold bitmapBytes
  rw [List.length_map, List.length_range]

/-- A bit of a byte that eight bits have been added up to. -/
theorem testBit_byte : ∀ (b₀ b₁ b₂ b₃ b₄ b₅ b₆ b₇ : Bool) (j : Fin 8),
    (UInt8.ofNat ([b₀, b₁, b₂, b₃, b₄, b₅, b₆, b₇].zipIdx.foldl
      (fun n b => n + if b.1 then 2 ^ b.2 else 0) 0)).toNat.testBit j =
    [b₀, b₁, b₂, b₃, b₄, b₅, b₆, b₇].getD j false := by
  decide +kernel

/-- The bytes hold its bits. -/
theorem getD_bitmapBytes {i : Nat} (h : i < m.length) :
    ((bitmapBytes m).getD (i / 8) 0).toNat.testBit (i % 8) = m.getD i false := by
  have hlt : i / 8 < 4 * ((m.length + 31) / 32) := by omega
  have hbyte : (bitmapBytes m).getD (i / 8) 0 = UInt8.ofNat ((List.range 8).foldl
      (fun n j => n + if m.getD (8 * (i / 8) + j) false then 2 ^ j else 0) 0) := by
    unfold bitmapBytes
    rw [List.getD_eq_getElem?_getD, List.getElem?_map, List.getElem?_range hlt]
    rfl
  have hbit := testBit_byte (m.getD (8 * (i / 8)) false) (m.getD (8 * (i / 8) + 1) false)
    (m.getD (8 * (i / 8) + 2) false) (m.getD (8 * (i / 8) + 3) false)
    (m.getD (8 * (i / 8) + 4) false) (m.getD (8 * (i / 8) + 5) false)
    (m.getD (8 * (i / 8) + 6) false) (m.getD (8 * (i / 8) + 7) false) ⟨i % 8, by omega⟩
  have hlist : [m.getD (8 * (i / 8)) false, m.getD (8 * (i / 8) + 1) false,
      m.getD (8 * (i / 8) + 2) false, m.getD (8 * (i / 8) + 3) false,
      m.getD (8 * (i / 8) + 4) false, m.getD (8 * (i / 8) + 5) false,
      m.getD (8 * (i / 8) + 6) false, m.getD (8 * (i / 8) + 7) false] =
      (List.range 8).map fun j => m.getD (8 * (i / 8) + j) false := rfl
  rw [hbyte]
  refine hbit.trans ?_
  have hlt8 : i % 8 < 8 := by omega
  have hidx : 8 * (i / 8) + i % 8 = i := by omega
  rw [hlist, List.getD_eq_getElem?_getD, List.getElem?_map, List.getElem?_range hlt8]
  show m.getD (8 * (i / 8) + i % 8) false = _
  rw [hidx]

/-- The bits are read back, whatever comes after them. -/
theorem bitsOf_bitmapBytes (m pad : List Bool) : bitsOf (bitmapBytes (m ++ pad)) m.length = m := by
  apply List.ext_getElem
  · unfold bitsOf
    rw [List.length_map, List.length_range]
  · intro i hi hi'
    simp only [bitsOf, List.getElem_map, List.getElem_range]
    rw [getD_bitmapBytes (by rw [List.length_append]; omega), List.getD_eq_getElem?_getD,
      List.getElem?_append_left hi', List.getElem?_eq_getElem hi', Option.getD_some]

/-! ## Setting and searching -/

/-- The length is what it was. -/
theorem length_setMultiple (m : List Bool) (start cnt : Nat) (value : Bool) :
    (setMultiple m start cnt value).length = m.length := by
  unfold setMultiple
  rw [List.length_mapIdx]

/-- The bits in the range are the value, the others as they were. -/
theorem getElem?_setMultiple (m : List Bool) (start cnt : Nat) (value : Bool) (x : Nat) :
    (setMultiple m start cnt value)[x]? =
      if start ≤ x ∧ x < start + cnt then m[x]?.map fun _ => value else m[x]? := by
  unfold setMultiple
  rw [List.getElem?_mapIdx]
  cases m[x]? with
  | none => split <;> rfl
  | some b =>
    rw [Option.map_some, Option.map_some]
    split <;> rfl

/-- The sector is in use. -/
def Marked (m : List Bool) (x : SectorNo) : Prop := m[x]? = some true

/-- A marked sector is on the volume. -/
theorem Marked.lt {x : SectorNo} (h : Marked m x) : x < m.length :=
  (List.getElem?_eq_some_iff.mp h).1

/-- The sectors of a range are there, and all free. -/
def Vacant (m : List Bool) (start cnt : Nat) : Prop :=
  start + cnt ≤ m.length ∧ ∀ x, start ≤ x → x < start + cnt → ¬ Marked m x

/-- The sectors of the range are marked too. -/
theorem marked_set_true {start x : Nat} (h : start + cnt ≤ m.length) :
    Marked (setMultiple m start cnt true) x ↔ Marked m x ∨ (start ≤ x ∧ x < start + cnt) := by
  unfold Marked
  rw [getElem?_setMultiple]
  split
  next hin =>
    rw [List.getElem?_eq_getElem (by omega), Option.map_some]
    exact iff_of_true rfl (.inr hin)
  next hout => exact ⟨.inl, fun h => h.resolve_right hout⟩

/-- The sectors of the range are no longer marked. -/
theorem marked_set_false {start x : Nat} :
    Marked (setMultiple m start cnt false) x ↔ Marked m x ∧ ¬ (start ≤ x ∧ x < start + cnt) := by
  unfold Marked
  rw [getElem?_setMultiple]
  split
  next hin =>
    refine iff_of_false ?_ fun h => h.2 hin
    cases m[x]? <;> simp
  next hout => exact ⟨fun h => ⟨h, hout⟩, And.left⟩

/-- What a search finds is free. -/
theorem vacant_of_bitmapScan (h : bitmapScan m cnt = some a) : Vacant m a cnt := by
  unfold bitmapScan at h
  have hmem := List.mem_range.mp (List.mem_of_find?_eq_some h)
  have hall : ((m.drop a).take cnt).all (!·) = true := by
    have hfound := List.find?_some h
    exact hfound
  refine ⟨by omega, fun x hx hx' hmark => ?_⟩
  have hin : true ∈ (m.drop a).take cnt := by
    refine List.mem_of_getElem? (i := x - a) ?_
    rw [List.getElem?_take_of_lt (by omega), List.getElem?_drop, Nat.add_sub_cancel' hx]
    exact hmark
  exact Bool.noConfusion (List.all_eq_true.mp hall true hin)

/-- What was free is free again. -/
theorem setMultiple_restore (h : Vacant m a cnt) :
    setMultiple (setMultiple m a cnt true) a cnt false = m := by
  apply List.ext_getElem?
  intro x
  rw [getElem?_setMultiple, getElem?_setMultiple]
  split
  next hin =>
    have hfree := h.2 x hin.1 hin.2
    unfold Marked at hfree
    cases hx : m[x]? with
    | none => rfl
    | some b =>
      rw [hx, Option.some_inj, Bool.not_eq_true] at hfree
      rw [hfree]
      rfl
  next => rfl

/-- An empty range changes nothing. -/
theorem setMultiple_zero (m : List Bool) (a : Nat) (value : Bool) : setMultiple m a 0 value = m := by
  apply List.ext_getElem?
  intro x
  rw [getElem?_setMultiple, if_neg (by omega)]

/-- Ranges that are apart may be set in either order. -/
theorem setMultiple_comm {b cnt' : Nat} {v w : Bool}
    (h : ∀ x, a ≤ x ∧ x < a + cnt → ¬ (b ≤ x ∧ x < b + cnt')) :
    setMultiple (setMultiple m a cnt v) b cnt' w = setMultiple (setMultiple m b cnt' w) a cnt v := by
  apply List.ext_getElem?
  intro x
  rw [getElem?_setMultiple, getElem?_setMultiple, getElem?_setMultiple, getElem?_setMultiple]
  by_cases hin : a ≤ x ∧ x < a + cnt
  · rw [if_neg (h x hin), if_pos hin, if_pos hin, if_neg (h x hin)]
  · rw [if_neg hin, if_neg hin]

/-- The assertion of `free_map_release`. -/
theorem all_marked (hmark : ∀ x, a ≤ x → x < a + cnt → Marked m x) :
    ((m.drop a).take cnt).all id = true := by
  rw [List.all_eq_true]
  intro b hb
  obtain ⟨i, hi⟩ := List.getElem?_of_mem hb
  have hlt := (List.getElem?_eq_some_iff.mp hi).1
  rw [List.length_take, List.length_drop] at hlt
  rw [List.getElem?_take_of_lt (by omega), List.getElem?_drop, hmark (a + i) (by omega) (by omega)] at hi
  exact (Option.some.inj hi).symm

/-! ## The file -/

/-- What `inode_open` reads from a sector. -/
def loaded (device : SectorNo → Sector) (c : SectorNo) : Inode where
  sector := c
  openCnt := 1
  removed := false
  denyWriteCnt := 0
  start := word (device c).byte 0
  length := Int.bmod (word (device c).byte 4) (2 ^ 32)

/-- An inode on disk is what its sector says. -/
theorem loaded_congr {device device' : SectorNo → Sector} {c : SectorNo}
    (h : device' c = device c) : loaded device' c = loaded device c := by
  unfold loaded
  rw [h]

/-- Its length is an `off_t`. -/
theorem loaded_length_lt (device : SectorNo → Sector) (c : SectorNo) :
    (loaded device c).length < 2 ^ 31 := by
  have h := Int.bmod_lt (x := word (device c).byte 4) (m := 2 ^ 32) (by decide)
  unfold loaded
  dsimp only
  omega

/-- The inode in memory is as on the device. -/
def Files.Agrees (s : Files) (r : InodeRef) : Prop :=
  (s.inode r).start = (loaded s.device (s.inode r).sector).start ∧
  (s.inode r).length = (loaded s.device (s.inode r).sector).length

/-- What `bitmap_write` writes. -/
def Files.mapBytes (s : Files) : List UInt8 := bitmapBytes (s.freeMap ++ s.pad)

/-- `free_map_file` is a file of the free map's inode, of the right length and open for writing. -/
structure MapFile (s : Files) (f : FileRef) (r : InodeRef) : Prop where
  freeMapFile : s.freeMapFile = some f
  file : s.file f = some { inode := r, pos := 0, denyWrite := false }
  sector : (s.inode r).sector = freeMapSector
  agrees : s.Agrees r
  length : (s.inode r).length = s.mapBytes.length
  denyWriteCnt : (s.inode r).denyWriteCnt = 0
  apart : ¬ (s.inode r).HasSector freeMapSector

/-- The bytes are in the free map's file. -/
def Stored (device : SectorNo → Sector) (bytes : List UInt8) : Prop :=
  ∀ i : Nat, i < bytes.length → byteAt (loaded device freeMapSector) device i = bytes.getD i 0

/-- The file has what the map has in memory. -/
def Synced (s : Files) : Prop := Stored s.device s.mapBytes

/-- The file has the map, and anything behind its last bit, where `bitmap_read` clears what is in
memory. -/
def Saved (s : Files) : Prop :=
  ∃ pad, pad.length = s.pad.length ∧ Stored s.device (bitmapBytes (s.freeMap ++ pad))

/-- A map file that is up to date can be read back. -/
theorem Synced.saved (h : Synced s) : Saved s := ⟨s.pad, rfl, h⟩

/-- What stands behind the last bit does not change how long the file is. -/
theorem length_mapBytes {pad : List Bool} (h : pad.length = s.pad.length) :
    (bitmapBytes (s.freeMap ++ pad)).length = s.mapBytes.length := by
  unfold Files.mapBytes
  rw [length_bitmapBytes, length_bitmapBytes, List.length_append, List.length_append, h]

/-- Only sectors of the free map's file differ. -/
def MapOnly (device device' : SectorNo → Sector) : Prop :=
  ∀ x, ¬ (loaded device freeMapSector).HasSector x → device' x = device x

theorem MapOnly.refl (device : SectorNo → Sector) : MapOnly device device := fun _ _ => rfl

/-- The bytes of an inode depend on where its data is. -/
theorem byteAt_of_start {ino ino' : Inode} (h : ino'.start = ino.start)
    (device : SectorNo → Sector) (i : Int) : byteAt ino' device i = byteAt ino device i := by
  unfold byteAt byteToSector
  rw [h]

/-- The sectors of an inode are given by its first and its length. -/
theorem hasSector_of_eq {ino ino' : Inode} (hstart : ino'.start = ino.start)
    (hlength : ino'.length = ino.length) {x : SectorNo} : ino'.HasSector x ↔ ino.HasSector x := by
  unfold Inode.HasSector
  rw [hstart, hlength]

/-- The map's bytes are all in the file. -/
theorem reach_mapFile (h : MapFile s f r) :
    reach (s.inode r) s.mapBytes.length 0 = s.mapBytes.length := by
  unfold reach
  rw [h.length]
  omega

/-- Writing the map changes the sectors of its file alone, and then it is up to date. -/
theorem bitmapWrite_eq (h : MapFile s f r) : ∃ device', bitmapWrite s =
    (true, { s with device := device' }) ∧ MapOnly s.device device' ∧
    ∀ i : Nat, i < s.mapBytes.length →
      byteAt (loaded s.device freeMapSector) device' i = s.mapBytes.getD i 0 := by
  obtain ⟨hstart, hlength⟩ := h.agrees
  rw [h.sector] at hstart hlength
  have hcount : (inodeWriteAt r (fun j => s.mapBytes.getD j 0) s.mapBytes.length 0 s).1 =
      reach (s.inode r) s.mapBytes.length 0 := inodeWriteAt_count h.denyWriteCnt (Int.le_refl 0)
  rw [reach_mapFile h] at hcount
  refine ⟨(inodeWriteAt r (fun j => s.mapBytes.getD j 0) s.mapBytes.length 0 s).2.device,
    ?_, fun y hy => ?_, fun i hi => ?_⟩
  · have hfile : s.freeMapFile.bind s.file =
        some { inode := r, pos := 0, denyWrite := false } := by
      rw [h.freeMapFile]
      exact h.file
    unfold bitmapWrite
    rw [hfile]
    exact Prod.ext (beq_iff_eq.mpr hcount) (inodeWriteAt_eq r _ _ _ s)
  · refine inodeWriteAt_other ?_ (Int.le_refl 0) fun hin => hy ((hasSector_of_eq hstart hlength).mp hin)
    rw [hlength]
    exact loaded_length_lt _ _
  · rw [← byteAt_of_start hstart, inodeWriteAt_byteAt h.denyWriteCnt (Int.le_refl 0) (by omega),
      reach_mapFile h, if_pos (by omega)]
    congr 1

/-- `free_map_file` is `NULL`, as it is at first, or can be written. -/
def MapReady (s : Files) : Prop := ∀ f, s.freeMapFile = some f → ∃ r, MapFile s f r

/-- With its file the map can be written. -/
theorem MapFile.ready (h : MapFile s f r) : MapReady s := by
  intro f' hf'
  rw [h.freeMapFile] at hf'
  cases hf'
  exact ⟨r, h⟩

/-- The free map has become `m`, in memory and in its file if it has one. -/
structure Remapped (s s' : Files) (m : List Bool) : Prop where
  eq : s' = { s with freeMap := m, device := s'.device }
  length : m.length = s.freeMap.length
  mapOnly : MapOnly s.device s'.device
  synced : s.freeMapFile.isSome = true → Synced s'

/-- The inode of the map is where it was. -/
theorem MapFile.loaded_eq {device' : SectorNo → Sector} (h : MapFile s f r)
    (hd : MapOnly s.device device') : loaded device' freeMapSector = loaded s.device freeMapSector := by
  obtain ⟨hstart, hlength⟩ := h.agrees
  rw [h.sector] at hstart hlength
  exact loaded_congr (hd _ fun hin => h.apart ((hasSector_of_eq hstart hlength).mpr hin))

theorem MapFile.of_remapped (h : MapFile s f r) (hs : Remapped s s' m) : MapFile s' f r := by
  have hloaded := h.loaded_eq hs.mapOnly
  have hagrees := h.agrees
  unfold Files.Agrees at hagrees
  rw [h.sector, ← hloaded] at hagrees
  rw [hs.eq]
  constructor
  case freeMapFile => exact h.freeMapFile
  case file => exact h.file
  case sector => exact h.sector
  case agrees =>
    show (s.inode r).start = (loaded s'.device (s.inode r).sector).start ∧
      (s.inode r).length = (loaded s'.device (s.inode r).sector).length
    rw [h.sector]
    exact hagrees
  case length =>
    show (s.inode r).length = (bitmapBytes (m ++ s.pad)).length
    rw [h.length, Files.mapBytes, length_bitmapBytes, length_bitmapBytes, List.length_append,
      List.length_append, hs.length]
  case denyWriteCnt => exact h.denyWriteCnt
  case apart => exact h.apart

/-- The file keeps the map while its inode and its data stay. -/
theorem Stored.of_same {device device' : SectorNo → Sector} {bytes : List UInt8}
    (h : Stored device bytes)
    (hlen : (loaded device freeMapSector).length = bytes.length)
    (hsame : device' freeMapSector = device freeMapSector)
    (hdata : ∀ x, (loaded device freeMapSector).HasSector x → device' x = device x) :
    Stored device' bytes := by
  intro i hi
  rw [loaded_congr hsame, byteAt_congr (loaded_length_lt _ _) hdata (by omega) (by omega)]
  exact h i hi

/-- What the length of the file is on the device. -/
theorem MapFile.loaded_length (h : MapFile s f r) :
    (loaded s.device freeMapSector).length = s.mapBytes.length := by
  rw [← h.length, h.agrees.2, h.sector]

/-- Another map of the same size can be written as well. -/
theorem MapReady.of_freeMap (h : MapReady s) (hm : m.length = s.freeMap.length) :
    MapReady { s with freeMap := m } := by
  intro f hf
  obtain ⟨r, hr⟩ := h f hf
  refine ⟨r, hr.freeMapFile, hr.file, hr.sector, hr.agrees, ?_, hr.denyWriteCnt, hr.apart⟩
  rw [hr.length]
  unfold Files.mapBytes
  rw [length_bitmapBytes, length_bitmapBytes, List.length_append, List.length_append, hm]

/-- Writing the map that is in memory. -/
theorem bitmapWrite_remapped (h : MapReady s) :
    Remapped s (bitmapWrite s).2 s.freeMap ∧ (s.freeMapFile.isSome = true → (bitmapWrite s).1 = true) := by
  cases hf : s.freeMapFile with
  | none =>
    have hnone : bitmapWrite s = (false, s) := by
      unfold bitmapWrite
      rw [hf]
      rfl
    rw [hnone]
    refine ⟨⟨rfl, rfl, .refl _, fun hs => ?_⟩, fun hs => absurd hs Bool.false_ne_true⟩
    rw [hf] at hs
    exact absurd hs Bool.false_ne_true
  | some f =>
    obtain ⟨r, hr⟩ := h f hf
    obtain ⟨device', heq, honly, hbytes⟩ := bitmapWrite_eq hr
    rw [heq]
    refine ⟨⟨rfl, rfl, honly, fun _ i hi => ?_⟩, fun _ => rfl⟩
    show byteAt (loaded device' freeMapSector) device' i = _
    rw [hr.loaded_eq honly]
    exact hbytes i hi

/-- The map in memory is the one that is written. -/
theorem Remapped.of_freeMap (h : Remapped { s with freeMap := m } s' m)
    (hm : m.length = s.freeMap.length) : Remapped s s' m := ⟨h.eq, hm, h.mapOnly, h.synced⟩

/-- `free_map_allocate` marks sectors that were free. -/
theorem freeMapAllocate_some (hready : MapReady s) (h : freeMapAllocate cnt s = (some a, s')) :
    Vacant s.freeMap a cnt ∧ Remapped s s' (setMultiple s.freeMap a cnt true) := by
  unfold freeMapAllocate at h
  split at h
  · cases h
  next sector hscan =>
    have hlen := length_setMultiple s.freeMap sector cnt true
    obtain ⟨hwrite, hok⟩ := bitmapWrite_remapped (hready.of_freeMap hlen)
    dsimp only at h
    split at h
    next hsome =>
      rw [if_pos (hok hsome)] at h
      cases h
      exact ⟨vacant_of_bitmapScan hscan, hwrite.of_freeMap hlen⟩
    next hnone =>
      cases h
      exact ⟨vacant_of_bitmapScan hscan, rfl, hlen, .refl _, fun hsome => absurd hsome hnone⟩

/-- If it finds none it changes nothing. -/
theorem freeMapAllocate_none (hready : MapReady s) (h : freeMapAllocate cnt s = (none, s')) :
    s' = s := by
  unfold freeMapAllocate at h
  split at h
  · cases h
    rfl
  next sector hscan =>
    have hlen := length_setMultiple s.freeMap sector cnt true
    obtain ⟨-, hok⟩ := bitmapWrite_remapped (hready.of_freeMap hlen)
    dsimp only at h
    split at h
    next hsome =>
      rw [if_pos (hok hsome)] at h
      cases h
    next => cases h

/-- `free_map_release` of sectors that are in use. -/
theorem freeMapRelease_ok (hready : MapReady s) (hle : a + cnt ≤ s.freeMap.length)
    (hmark : ∀ x, a ≤ x → x < a + cnt → Marked s.freeMap x) :
    ∃ s', freeMapRelease a cnt s = .ok s' ∧
      Remapped s s' (setMultiple s.freeMap a cnt false) := by
  have hlen := length_setMultiple s.freeMap a cnt false
  obtain ⟨hwrite, -⟩ := bitmapWrite_remapped (hready.of_freeMap hlen)
  refine ⟨_, ?_, hwrite.of_freeMap hlen⟩
  unfold freeMapRelease
  rw [if_pos ⟨hle, all_marked hmark⟩]

/-! ## `bitmap_read` -/

/-- The bits do not depend on what stands behind their bytes. -/
theorem bitsOf_append {bytes : List UInt8} (rest : List UInt8) (h : cnt ≤ 8 * bytes.length) :
    bitsOf (bytes ++ rest) cnt = bitsOf bytes cnt := by
  apply List.map_congr_left
  intro i hi
  have hlt := List.mem_range.mp hi
  rw [List.getD_eq_getElem?_getD, List.getD_eq_getElem?_getD,
    List.getElem?_append_left (by omega)]

/-- Reading the bytes that are stored. -/
theorem inodeReadAt_stored {bytes : List UInt8} (h : Stored s.device bytes)
    (hstart : (s.inode r).start = (loaded s.device freeMapSector).start)
    (hlength : (s.inode r).length = bytes.length) : inodeReadAt r bytes.length 0 s = bytes := by
  have hreach : (reach (s.inode r) bytes.length 0).toNat = bytes.length := by
    unfold reach
    omega
  rw [inodeReadAt_eq (Int.le_refl 0), hreach]
  apply List.ext_getElem
  · rw [List.length_map, List.length_range]
  · intro i hi hi'
    rw [List.getElem_map, List.getElem_range, Int.zero_add, byteAt_of_start hstart, h i hi',
      List.getD_eq_getElem?_getD, List.getElem?_eq_getElem hi', Option.getD_some]

/-- The map that has been written is read, and the bits behind it are cleared. -/
theorem bitmapRead_eq {x : File} {pad : List Bool} (hx : s.file f = some x)
    (hm : m.length = s.freeMap.length)
    (hlen : (bitmapBytes (m ++ pad)).length = bitmapFileSize s.freeMap)
    (h : Stored s.device (bitmapBytes (m ++ pad)))
    (hstart : (s.inode x.inode).start = (loaded s.device freeMapSector).start)
    (hlength : (s.inode x.inode).length = bitmapFileSize s.freeMap) :
    bitmapRead f s = .ok (true, { s with
      freeMap := m, pad := List.replicate s.pad.length false }) := by
  have hread := inodeReadAt_stored h hstart (by rw [hlength, hlen])
  rw [hlen] at hread
  have hbits : m.length ≤ 8 * (bitmapBytes (m ++ pad)).length := by
    rw [length_bitmapBytes, List.length_append]
    omega
  have hfile : s.getFile f = .ok x := by
    unfold Files.getFile
    rw [hx]
  unfold bitmapRead
  rw [hfile, bind_ok]
  dsimp only
  rw [hread, hlen, beq_self_eq_true, ← hm, bitsOf_append _ hbits, bitsOf_bitmapBytes]

end Pintos.Filesys
