import Pintos.Filesys.Operations

/-!
# Opening a volume

`free_map_open` makes a volume `Sound` if its inodes share out the sectors and the map is in its
file. So it is when it has been formatted.
-/

namespace Pintos.Filesys

open Pintos.Lib

variable {s s' : Files} {m pad : List Bool} {c x : SectorNo} {device : SectorNo → Sector}
  {junk : Nat → Bool} {size entryCnt : Nat}

/-- No inode is open, and no file. -/
structure Idle (s : Files) : Prop where
  openInodes : s.openInodes = []
  balanced : Balanced s [] []

/-- The state once the file of the free map is open. -/
def Files.withMapFile (s : Files) : Files :=
  { s with
    openInodes := [s.nextInode]
    nextInode := s.nextInode + 1
    inode := Function.update s.inode s.nextInode (loaded s.device freeMapSector)
    file := Function.update s.file s.nextFile
      (some { inode := s.nextInode, pos := 0, denyWrite := false })
    nextFile := s.nextFile + 1
    freeMapFile := some s.nextFile }

/-- On an idle system the map's file is the first. -/
theorem Idle.openFreeMapFile (h : Idle s) : openFreeMapFile s = .ok (s.nextFile, s.withMapFile) := by
  unfold Filesys.openFreeMapFile inodeOpen
  rw [h.openInodes]
  rfl

/-- The map's file has its inode open. -/
theorem Idle.withMapFile_balanced (h : Idle s) : Balanced s.withMapFile [s.nextFile] [] := by
  have hopen : inodeOpen freeMapSector true s = (some s.nextInode, { s with
      openInodes := [s.nextInode]
      nextInode := s.nextInode + 1
      inode := Function.update s.inode s.nextInode (loaded s.device freeMapSector) }) := by
    unfold inodeOpen
    rw [h.openInodes]
    rfl
  have hnew := (h.balanced.of_inodeOpen hopen).1
  exact (Balanced.of_newFile hnew).of_freeMapFile (some s.nextFile)

/-- The map can be written to its file. -/
theorem withMapFile_mapFile (hlen : (loaded s.device freeMapSector).length = s.mapBytes.length)
    (hapart : ¬ (loaded s.device freeMapSector).HasSector freeMapSector) :
    MapFile s.withMapFile s.nextFile s.nextInode := by
  have hinode : s.withMapFile.inode s.nextInode = loaded s.device freeMapSector :=
    Function.update_self ..
  constructor
  case freeMapFile => rfl
  case file => exact Function.update_self ..
  case sector => rw [hinode]; rfl
  case agrees =>
    unfold Files.Agrees
    rw [hinode]
    exact ⟨rfl, rfl⟩
  case length =>
    rw [hinode]
    exact hlen
  case denyWriteCnt => rw [hinode]; rfl
  case apart =>
    rw [hinode]
    exact hapart

/-- A device with its free map on it, and nothing open. -/
structure Volume (s : Files) (m pad : List Bool) : Prop where
  idle : Idle s
  size : m.length = s.freeMap.length
  padded : pad.length = s.pad.length
  whole : (bitmapBytes (m ++ pad)).length = bitmapFileSize s.freeMap
  length : (loaded s.device freeMapSector).length = bitmapFileSize s.freeMap
  stored : Stored s.device (bitmapBytes (m ++ pad))
  laid : Laid s.device m {c | Placed s.device [] c}
  names : Names s.device []

/-- `free_map_open` takes back the map. -/
theorem Volume.freeMapOpen (h : Volume s m pad) : ∃ s', freeMapOpen s = .ok s' ∧
    Sound s' [s.nextFile] [] [] ∧ s'.device = s.device ∧ s'.freeMap = m ∧
      s'.pad.length = s.pad.length := by
  have hmapLive : freeMapSector ∈ {c | Placed s.device [] c} := .inl rfl
  have hinode : s.withMapFile.inode s.nextInode = loaded s.device freeMapSector :=
    Function.update_self ..
  have hread := bitmapRead_eq (f := s.nextFile) (s := s.withMapFile)
    (x := { inode := s.nextInode, pos := 0, denyWrite := false }) (Function.update_self ..) h.size
    h.whole h.stored (by rw [hinode]; rfl) (by rw [hinode]; exact h.length)
  have hbytes : ∀ pad' : List Bool, pad'.length = pad.length →
      (bitmapBytes (m ++ pad')).length = (bitmapBytes (m ++ pad)).length := by
    intro pad' hpad'
    rw [length_bitmapBytes, length_bitmapBytes, List.length_append, List.length_append, hpad']
  have hzeros : (List.replicate s.pad.length false).length = pad.length := by
    rw [List.length_replicate, h.padded]
  have hopened : ∀ r ∈ s.withMapFile.openInodes, r = s.nextInode := fun r hr =>
    List.mem_singleton.mp hr
  refine ⟨{ s.withMapFile with freeMap := m, pad := List.replicate s.pad.length false }, ?_, ?_,
    rfl, rfl, List.length_replicate⟩
  · unfold Filesys.freeMapOpen
    rw [h.idle.openFreeMapFile, bind_ok]
    dsimp only
    rw [hread, bind_ok]
    rfl
  · constructor
    case balanced => exact h.idle.withMapFile_balanced.of_same ⟨rfl, rfl, rfl, rfl, rfl, rfl⟩
    case mapFile =>
      refine ⟨s.nextFile, s.nextInode, List.mem_singleton_self _, ?_⟩
      have hmap : MapFile ({ s with freeMap := m, pad := List.replicate s.pad.length false }
          : Files).withMapFile s.nextFile s.nextInode := by
        refine withMapFile_mapFile ?_ (h.laid.not_data hmapLive hmapLive)
        exact h.length.trans (congrArg Nat.cast (h.whole.symm.trans (hbytes _ hzeros).symm))
      exact hmap
    case saved => exact ⟨pad, h.padded.trans List.length_replicate.symm, h.stored⟩
    case laid =>
      refine h.laid.drop m ?_ rfl ?_
      · rintro c (hc | ⟨r, hr, rfl⟩)
        · exact hc
        · rw [hopened r hr]
          exact .inl (congrArg Inode.sector hinode)
      · rintro c (hc | ⟨r, hr, rfl⟩) x hx
        · exact h.laid.marked hc hx
        · rw [hopened r hr] at hx
          exact h.laid.marked (.inl (congrArg Inode.sector hinode)) hx
    case names => exact h.names
    case agrees =>
      intro r hr
      unfold Files.Agrees
      rw [hopened r hr]
      dsimp only
      rw [hinode]
      exact ⟨rfl, rfl⟩
    case removed =>
      intro r hr
      rw [hopened r hr]
      dsimp only
      rw [hinode]
      exact iff_of_false Bool.false_ne_true (not_not_intro (.inl rfl))
    case users =>
      intro f hf hmap
      rw [List.mem_singleton.mp hf] at hmap
      exact absurd rfl hmap

/-! ## Closing -/

/-- `free_map_close` when no other file is open. -/
theorem freeMapClose_idle {f : FileRef} {r : InodeRef} (h : Balanced s [f] []) (hm : MapFile s f r)
    (hopen : s.openInodes = [r]) (hremoved : (s.inode r).removed = false) :
    ∃ s', freeMapClose s = .ok s' ∧ Idle s' ∧ s'.device = s.device ∧ s'.freeMap = s.freeMap ∧
      s'.pad = s.pad := by
  have hget : s.getFile f = .ok { inode := r, pos := 0, denyWrite := false } :=
    getFile_eq_ok.mpr hm.file
  have hallow : fileAllowWrite f s = .ok s := by
    unfold fileAllowWrite
    rw [hget, bind_ok]
    rfl
  have hcnt : (s.inode r).openCnt - 1 = 0 := by
    have hrefs : s.inodesOf [f] = [r] := by
      unfold Files.inodesOf
      rw [List.filterMap_cons, hm.file]
      rfl
    rw [h.counted.openCnt r (by rw [hopen]; exact List.mem_singleton_self r), hrefs,
      List.nil_append, List.count_singleton_self]
    rfl
  obtain ⟨s₁, hclose, hopen₁, hdevice, hmap, hpad⟩ : ∃ s₁, inodeClose (some r) s = .ok s₁ ∧
      s₁.openInodes = [] ∧ s₁.device = s.device ∧ s₁.freeMap = s.freeMap ∧ s₁.pad = s.pad := by
    unfold inodeClose
    dsimp only
    rw [if_pos hcnt, hremoved, if_neg Bool.false_ne_true]
    refine ⟨_, rfl, ?_, rfl, rfl, rfl⟩
    show s.openInodes.erase r = []
    rw [hopen, List.erase_cons_head]
  have hx : fileClose f s = .ok (s₁.setFile f none) := by
    unfold fileClose
    rw [hget, bind_ok, hallow, bind_ok, hclose, bind_ok]
  refine ⟨s₁.setFile f none, ?_, ⟨hopen₁, ?_⟩, hdevice, hmap, hpad⟩
  · unfold freeMapClose
    rw [hm.freeMapFile]
    exact hx
  · have hb := (h.of_fileClose (List.mem_singleton_self f) hx).1
    rwa [List.erase_cons_head] at hb

/-! ## Formatting -/

/-- The data of a new inode is in sectors that were free. -/
theorem data_free {length : Int} (hready : MapReady s) (hsmall : s.freeMap.length < 2 ^ 32)
    (hc : Marked s.freeMap c) (hlen : length < 2 ^ 31) (hx : inodeCreate c length s = .ok (true, s'))
    (hin : (loaded s'.device c).HasSector x) : ¬ Marked s.freeMap x := by
  unfold inodeCreate at hx
  split at hx
  · cases hx
  next hneg =>
    dsimp only at hx
    split at hx
    · cases hx
    next start s₁ hsome =>
      obtain ⟨hvac, -⟩ := freeMapAllocate_some hready hsome
      have hout : ¬ (start ≤ c ∧ c < start + bytesToSectors length) := fun hin =>
        hvac.2 c hin.1 hin.2 hc
      cases hx
      have hstart : start < 2 ^ 32 := Nat.lt_of_le_of_lt
        (Nat.le_trans (Nat.le_add_right _ _) hvac.1) hsmall
      dsimp only at hin
      generalize hdev : (fun i => if start ≤ i ∧ i < start + bytesToSectors length then fun _ => 0
        else Function.update s₁.device c (inodeDisk start length) i : SectorNo → Sector) = device
        at hin
      have hat : device c = inodeDisk start length := by
        rw [← hdev]
        exact (if_neg hout).trans (Function.update_self ..)
      obtain ⟨hs, hl⟩ := loaded_inodeDisk hat hstart (Int.not_lt.mp hneg) hlen
      unfold Inode.HasSector at hin
      rw [hs, hl] at hin
      exact hvac.2 x hin.1 hin.2

/-- Before the file system starts nothing is open. -/
theorem bootFiles_idle (size : Nat) (junk : Nat → Bool) (device : SectorNo → Sector) :
    Idle (freeMapInit size junk (bootFiles device)) :=
  ⟨rfl, (accounted_init device []).balanced.of_same ⟨rfl, rfl, rfl, rfl, rfl, rfl⟩⟩

/-- The map has the volume's own two sectors. -/
theorem freeMapInit_marked (hsize : 2 ≤ size) (s : Files) :
    Marked (freeMapInit size junk s).freeMap freeMapSector ∧
      Marked (freeMapInit size junk s).freeMap rootDirSector := by
  have hlen : (List.replicate size false).length = size := List.length_replicate
  unfold Marked freeMapInit
  dsimp only
  constructor
  · have hlt : freeMapSector < (List.replicate size false).length := by
      rw [hlen]
      exact Nat.lt_of_lt_of_le (by decide) hsize
    rw [List.getElem?_set_ne (by decide), List.getElem?_set_self hlt]
  · rw [List.getElem?_set_self (by rw [List.length_set, hlen]; exact hsize)]

/-- The bits behind the last fill its word. -/
def Padded (s : Files) : Prop := s.pad.length = (32 - s.freeMap.length % 32) % 32

/-- With its padding the map is whole words of its file. -/
theorem Padded.whole (h : Padded s) {m pad : List Bool} (hm : m.length = s.freeMap.length)
    (hpad : pad.length = s.pad.length) :
    (bitmapBytes (m ++ pad)).length = bitmapFileSize s.freeMap := by
  unfold Padded at h
  unfold bitmapFileSize
  rw [length_bitmapBytes, List.length_append, hm, hpad, h]
  omega

/-- The map's file is an `off_t` long. -/
theorem bitmapFileSize_lt (h : m.length < 2 ^ 32) : (bitmapFileSize m : Int) < 2 ^ 31 := by
  unfold bitmapFileSize
  omega

/-- The inode of the free map is made, and the map is written to it. -/
theorem freeMapCreate_ok (hidle : Idle s) (hnone : s.freeMapFile = none) (hpad : Padded s)
    (hsmall : s.freeMap.length < 2 ^ 32) (hmark : Marked s.freeMap freeMapSector)
    (hx : freeMapCreate s = .ok s') :
    ∃ s₁, Created s s₁ ∅ freeMapSector (bitmapFileSize s.freeMap) ∧
      (∀ x, (loaded s₁.device freeMapSector).HasSector x → ¬ Marked s.freeMap x) ∧
      Remapped s₁.withMapFile s' s₁.freeMap ∧ MapFile s' s.nextFile s.nextInode ∧
      Balanced s' [s.nextFile] [] := by
  have hready : MapReady s := fun f hf => by rw [hnone] at hf; cases hf
  have hlaid : Laid s.device s.freeMap ∅ :=
    ⟨⟨fun o o' x ho => by obtain ⟨c, p⟩ := o; exact absurd (mem_of_owns ho).1 (Set.notMem_empty c),
      fun o x ho => by obtain ⟨c, p⟩ := o; exact absurd (mem_of_owns ho).1 (Set.notMem_empty c)⟩,
      hsmall, fun c hc => absurd hc (Set.notMem_empty c), fun c hc => absurd hc (Set.notMem_empty c)⟩
  have hlen := bitmapFileSize_lt hsmall
  unfold freeMapCreate at hx
  obtain ⟨⟨created, s₁⟩, hcreate, hx⟩ := bind_eq_ok.mp hx
  dsimp only at hx
  split at hx
  next htrue =>
    subst htrue
    have hcr := ((inodeCreate_ok hready hlaid (.inr ⟨hnone, rfl⟩)
      ⟨hmark, fun c hc => absurd hc (Set.notMem_empty c)⟩ hlen hcreate).resolve_left
        fun hf => Bool.noConfusion hf.1).2
    have heq := hcr.eq
    have hidle₁ : Idle s₁ := by
      rw [heq]
      exact ⟨hidle.openInodes, hidle.balanced.of_same ⟨rfl, rfl, rfl, rfl, rfl, rfl⟩⟩
    have hlive : freeMapSector ∈ insert freeMapSector (∅ : Set SectorNo) := Set.mem_insert _ _
    have hm : MapFile s₁.withMapFile s₁.nextFile s₁.nextInode := by
      refine withMapFile_mapFile ?_ (hcr.laid.not_data hlive hlive)
      rw [hcr.length]
      exact congrArg Nat.cast (hpad.whole hcr.size (by rw [heq])).symm
    obtain ⟨hre, hwritten⟩ := bitmapWrite_remapped hm.ready
    rw [hidle₁.openFreeMapFile, bind_ok] at hx
    dsimp only at hx
    rw [if_pos (hwritten rfl)] at hx
    cases hx
    have hnames : s₁.nextFile = s.nextFile ∧ s₁.nextInode = s.nextInode := by
      rw [heq]
      exact ⟨rfl, rfl⟩
    rw [← hnames.1, ← hnames.2]
    exact ⟨s₁, hcr, fun x hin => data_free hready hsmall hmark hlen hcreate hin, hre,
      hm.of_remapped hre, hidle₁.withMapFile_balanced.of_same (bitmapWrite_same _)⟩
  next => cases hx

/-- The entries of a directory that is all zeros. -/
theorem slots_zero {ino : Inode} (hlen : ino.length < 2 ^ 31)
    (hzero : ∀ x, ino.HasSector x → device x = fun _ => 0) :
    ∀ e ∈ slots ino device, e.inUse = false := by
  intro e he
  unfold slots at he
  obtain ⟨i, hi, rfl⟩ := List.mem_map.mp he
  have hslot := slot_lt (List.mem_range.mp hi)
  have hsame : byteAt ino device (20 * i + (19 : Nat)) = byteAt ino (fun _ _ => 0) (20 * i + (19 : Nat)) :=
    byteAt_congr hlen hzero (by omega) (by omega)
  have hbyte : (slotBytes ino device i).getD 19 0 = 0 := by
    rw [List.getD_eq_getElem?_getD, List.getElem?_eq_getElem (by rw [length_slotBytes]; decide),
      Option.getD_some, getElem_slotBytes, hsame]
    unfold byteAt Sector.byte
    split <;> rfl
  unfold DirEntry.ofBytes
  dsimp only
  rw [hbyte]
  rfl

/-- An empty directory has no names. -/
theorem Names.of_unused (h : ∀ e ∈ rootSlots device, e.inUse = false) : Names device [] where
  names := by
    unfold View.Distinct
    rw [View.keys_of_unused h]
    exact List.nodup_nil
  sectors := by
    unfold View.Distinct
    rw [View.keys_of_unused h]
    exact List.nodup_nil
  proper := by
    rintro c (hc | hc)
    · unfold Named at hc
      rw [View.keys_of_unused h] at hc
      exact absurd hc List.not_mem_nil
    · exact absurd hc List.not_mem_nil
  nodup := List.nodup_nil
  unnamed := fun c hc => absurd hc List.not_mem_nil

/-- `do_format` leaves a volume with nothing in its root directory. -/
theorem doFormat_volume (hidle : Idle s) (hnone : s.freeMapFile = none) (hpad : Padded s)
    (hsmall : s.freeMap.length < 2 ^ 32)
    (hmarks : Marked s.freeMap freeMapSector ∧ Marked s.freeMap rootDirSector)
    (hx : doFormat entryCnt s = .ok s') :
    Volume s' s'.freeMap s'.pad ∧ s'.freeMap.length = s.freeMap.length ∧
      (∀ e ∈ rootSlots s'.device, e.inUse = false) ∧
      (loaded s'.device rootDirSector).length = Int.bmod (20 * entryCnt) (2 ^ 32) ∧ Padded s' := by
  unfold doFormat at hx
  obtain ⟨s₃, hcreate, hx⟩ := bind_eq_ok.mp hx
  obtain ⟨⟨created, s₄⟩, hdir, hx⟩ := bind_eq_ok.mp hx
  obtain ⟨s₁, hcr, hfree, hre, hm, hb⟩ := freeMapCreate_ok hidle hnone hpad hsmall hmarks.1 hcreate
  have hlen : Int.bmod (20 * entryCnt) (2 ^ 32) < 2 ^ 31 := by
    have h := Int.bmod_lt (x := 20 * entryCnt) (m := 2 ^ 32) (by decide)
    omega
  have hlive : freeMapSector ∈ insert freeMapSector (∅ : Set SectorNo) := Set.mem_insert _ _
  have heq₁ := hcr.eq
  have heq₃ := hre.eq
  have hmap₃ : s₃.freeMap = s₁.freeMap := by rw [heq₃]
  have hinode₃ : s₃.device freeMapSector = s₁.device freeMapSector :=
    hre.mapOnly _ (hcr.laid.not_data hlive hlive)
  have hlaid₃ : Laid s₃.device s₃.freeMap (insert freeMapSector ∅) := by
    rw [hmap₃]
    exact hcr.laid.of_write hlive hre.mapOnly
  have hr : Reserved s₃.device s₃.freeMap (insert freeMapSector ∅) rootDirSector := by
    rw [hmap₃]
    refine ⟨hcr.marks _ hmarks.2, fun c hc => ?_⟩
    rcases hc with rfl | hc
    · rintro (heq | hin)
      · exact absurd heq (by decide)
      · rw [loaded_congr hinode₃] at hin
        exact hfree _ hin hmarks.2
    · exact absurd hc (Set.notMem_empty c)
  dsimp only at hx
  split at hx
  next htrue =>
    subst htrue
    have hcr' := ((inodeCreate_ok hm.ready hlaid₃ (.inl hlive) hr hlen hdir).resolve_left
      fun hf => Bool.noConfusion hf.1).2
    have heq₄ := hcr'.eq
    have hsame₄ : SameTables s₃ s₄ := by
      rw [heq₄]
      exact ⟨rfl, rfl, rfl, rfl, rfl, rfl⟩
    have hmapInode : s₄.device freeMapSector = s₃.device freeMapSector :=
      hcr'.others _ (hlaid₃.marked hlive (.inl rfl)) (by decide) (hlaid₃.not_data hlive hlive)
    have hm₄ : MapFile s₄ s.nextFile s.nextInode := by
      refine hm.of_same hsame₄.freeMapFile (by rw [hsame₄.file]) ?_ hmapInode hcr'.size
        (by rw [heq₄]) ?_
      · rw [hsame₄.inode]
        exact .refl _
      · rw [hsame₄.inode, hm.denyWriteCnt]
    have hopen₄ : s₄.openInodes = [s.nextInode] := by
      rw [hsame₄.openInodes, heq₃, heq₁]
      rfl
    have hremoved₄ : (s₄.inode s.nextInode).removed = false := by
      have hinode₄ : s₄.inode = Function.update s.inode s.nextInode
          (loaded s₁.device freeMapSector) := by
        rw [hsame₄.inode, heq₃, heq₁]
        rfl
      rw [hinode₄, Function.update_self]
      rfl
    obtain ⟨s₅, hclose, hidle₅, hdevice, hmap, hpad₅⟩ :=
      freeMapClose_idle (hb.of_same hsame₄) hm₄ hopen₄ hremoved₄
    rw [hclose] at hx
    cases hx
    have hsize : s₄.freeMap.length = s.freeMap.length := by
      rw [hcr'.size, hmap₃, hcr.size]
    have hpadded : Padded s' := by
      unfold Padded
      rw [hpad₅, hmap, hsize, heq₄, heq₃, heq₁]
      exact hpad
    have hunused : ∀ e ∈ rootSlots s'.device, e.inUse = false := by
      rw [hdevice]
      exact slots_zero (loaded_length_lt _ _) hcr'.zero
    have hwhole := hpadded.whole rfl rfl
    have hplaced : {c | Placed s'.device [] c} = insert rootDirSector (insert freeMapSector ∅) := by
      ext c
      have hno : ¬ Named s'.device c := by
        unfold Named
        rw [View.keys_of_unused hunused]
        exact List.not_mem_nil
      constructor
      · rintro (hc | hc | hc | hc)
        · exact .inr (.inl hc)
        · exact .inl hc
        · exact absurd hc hno
        · exact absurd hc List.not_mem_nil
      · rintro (hc | hc | hc)
        · exact .inr (.inl hc)
        · exact .inl hc
        · exact absurd hc (Set.notMem_empty c)
    refine ⟨⟨hidle₅, rfl, rfl, hwhole, ?_, ?_, ?_, .of_unused hunused⟩, hmap ▸ hsize, hunused,
      hdevice ▸ hcr'.length, hpadded⟩
    · have hbytes : s₄.mapBytes = bitmapBytes (s'.freeMap ++ s'.pad) := by
        unfold Files.mapBytes
        rw [hmap, hpad₅]
      rw [← hwhole, ← hbytes, hdevice]
      exact hm₄.loaded_length
    · rw [hdevice, hmap, hpad₅]
      exact hcr'.synced (by rw [hm.freeMapFile]; rfl)
    · rw [hplaced, hdevice, hmap]
      exact hcr'.laid
  next => cases hx

/-- `filesys_init (true)` opens what it has formatted. -/
theorem filesysFormat_volume (hsize : 2 ≤ size) (hsmall : size < 2 ^ 32)
    (hx : filesysFormat size junk entryCnt device = .ok s) :
    ∃ s₁, Volume s₁ s₁.freeMap s₁.pad ∧ freeMapOpen s₁ = .ok s ∧ s₁.freeMap.length = size ∧
      (∀ e ∈ rootSlots s₁.device, e.inUse = false) ∧
      (loaded s₁.device rootDirSector).length = Int.bmod (20 * entryCnt) (2 ^ 32) ∧ Padded s₁ := by
  unfold filesysFormat at hx
  obtain ⟨s₁, hformat, hx⟩ := bind_eq_ok.mp hx
  have hlen : (freeMapInit size junk (bootFiles device)).freeMap.length = size := by
    unfold freeMapInit
    rw [List.length_set, List.length_set, List.length_replicate]
  have hpad : Padded (freeMapInit size junk (bootFiles device)) := by
    unfold Padded
    rw [hlen]
    unfold freeMapInit
    rw [List.length_map, List.length_range]
  obtain ⟨hvolume, hlen₁, hunused, hroot, hpad₁⟩ := doFormat_volume (bootFiles_idle size junk device) rfl
    hpad (by rw [hlen]; exact hsmall) (freeMapInit_marked hsize _) hformat
  exact ⟨s₁, hvolume, hx, hlen₁.trans hlen, hunused, hroot, hpad₁⟩

/-- `filesys_init (true)` leaves a sound volume, whose directory is empty. -/
theorem filesysFormat_sound (hsize : 2 ≤ size) (hsmall : size < 2 ^ 32)
    (hx : filesysFormat size junk entryCnt device = .ok s) :
    (∃ f, Sound s [f] [] []) ∧ s.freeMap.length = size ∧
      ∀ e ∈ rootSlots s.device, e.inUse = false := by
  obtain ⟨s₁, hvolume, hx, hlen₁, hunused, -⟩ := filesysFormat_volume hsize hsmall hx
  obtain ⟨s₂, hopen, hsound, hdevice, hmap, -⟩ := hvolume.freeMapOpen
  rw [hopen] at hx
  cases hx
  rw [hdevice, hmap, hlen₁]
  exact ⟨⟨_, hsound⟩, rfl, hunused⟩

/-- How long its root directory is. -/
theorem filesysFormat_root (hsize : 2 ≤ size) (hsmall : size < 2 ^ 32)
    (hx : filesysFormat size junk entryCnt device = .ok s) :
    (loaded s.device rootDirSector).length = Int.bmod (20 * entryCnt) (2 ^ 32) := by
  obtain ⟨s₁, hvolume, hx, -, -, hroot, -⟩ := filesysFormat_volume hsize hsmall hx
  obtain ⟨s₂, hopen, -, hdevice, -, -⟩ := hvolume.freeMapOpen
  rw [hopen] at hx
  cases hx
  rw [hdevice]
  exact hroot

/-- And its free map fills words. -/
theorem filesysFormat_padded (hsize : 2 ≤ size) (hsmall : size < 2 ^ 32)
    (hx : filesysFormat size junk entryCnt device = .ok s) : Padded s := by
  obtain ⟨s₁, hvolume, hx, -, -, -, hpad⟩ := filesysFormat_volume hsize hsmall hx
  obtain ⟨s₂, hopen, -, -, hmap, hlen⟩ := hvolume.freeMapOpen
  rw [hopen] at hx
  cases hx
  unfold Padded at hpad ⊢
  rw [hlen, hmap, hpad]

end Pintos.Filesys
