import Pintos.Filesys.Directory
import Pintos.Filesys.Layout

/-!
# A volume in use

`Sound` is what holds of a formatted file system between operations: the inodes that have a name or
are open share out the sectors, the free map is in its file, `removed` is set in the open inodes that
have no name, and the root directory names no inode twice. `fresh` are inodes that have been created
and wait for a name.
-/

namespace Pintos.Filesys

open Pintos.Lib

variable {s s₁ s' : Files} {r d : InodeRef} {f : FileRef} {l l' : List FileRef}
  {extra extra' : List InodeRef} {fresh fresh' : List SectorNo} {c x : SectorNo}
  {device device' : SectorNo → Sector}

/-- The slots of the root directory. -/
def rootSlots (device : SectorNo → Sector) : List DirEntry := slots (loaded device rootDirSector) device

/-- Which slots are in use, and for which sector and name. -/
def sectorView : View DirEntry SectorNo (List UInt8) where
  used := DirEntry.inUse
  key := DirEntry.inodeSector
  val := DirEntry.name

/-- The inode has a name. -/
def Named (device : SectorNo → Sector) (c : SectorNo) : Prop := c ∈ sectorView.keys (rootSlots device)

/-- The inode is to stay: it is that of the free map or of the root directory, it has a name or is
about to get one. -/
def Placed (device : SectorNo → Sector) (fresh : List SectorNo) (c : SectorNo) : Prop :=
  c = freeMapSector ∨ c = rootDirSector ∨ Named device c ∨ c ∈ fresh

/-- An inode of the sector is open. -/
def Files.IsOpen (s : Files) (c : SectorNo) : Prop := ∃ r ∈ s.openInodes, (s.inode r).sector = c

/-- The inodes there are. -/
def Files.live (s : Files) (fresh : List SectorNo) : Set SectorNo :=
  {c | Placed s.device fresh c ∨ s.IsOpen c}

/-- The root directory names inodes other than its own and that of the free map, each once. -/
structure Names (device : SectorNo → Sector) (fresh : List SectorNo) : Prop where
  names : dirView.Distinct (rootSlots device)
  sectors : sectorView.Distinct (rootSlots device)
  proper : ∀ c, Named device c ∨ c ∈ fresh → c ≠ freeMapSector ∧ c ≠ rootDirSector
  nodup : fresh.Nodup
  unnamed : ∀ c ∈ fresh, ¬ Named device c

structure Sound (s : Files) (l : List FileRef) (extra : List InodeRef) (fresh : List SectorNo) :
    Prop where
  balanced : Balanced s l extra
  mapFile : ∃ f r, f ∈ l ∧ MapFile s f r
  saved : Saved s
  laid : Laid s.device s.freeMap (s.live fresh)
  names : Names s.device fresh
  agrees : ∀ r ∈ s.openInodes, s.Agrees r
  removed : ∀ r ∈ s.openInodes,
    ((s.inode r).removed = true ↔ ¬ Placed s.device fresh (s.inode r).sector)
  users : ∀ f ∈ l, s.freeMapFile ≠ some f → ∀ x, s.file f = some x →
    (s.inode x.inode).sector ≠ freeMapSector ∧ (s.inode x.inode).sector ≠ rootDirSector

/-- The map of a sound volume can be written. -/
theorem Sound.ready (h : Sound s l extra fresh) : MapReady s := by
  obtain ⟨f, r, -, hf⟩ := h.mapFile
  exact hf.ready

theorem map_live : freeMapSector ∈ s.live fresh := .inl (.inl rfl)

theorem root_live : rootDirSector ∈ s.live fresh := .inl (.inr (.inl rfl))

/-- The order of the openers does not matter. -/
theorem Sound.perm (h : Sound s l extra fresh) (hp : extra.Perm extra') : Sound s l extra' fresh :=
  ⟨h.balanced.perm hp, h.mapFile, h.saved, h.laid, h.names, h.agrees, h.removed, h.users⟩

theorem Sound.perm_fresh (h : Sound s l extra fresh) (hp : fresh.Perm fresh') :
    Sound s l extra fresh' := by
  have hplaced : ∀ c, Placed s.device fresh' c ↔ Placed s.device fresh c := by
    intro c
    unfold Placed
    rw [hp.mem_iff]
  have hlive : s.live fresh' = s.live fresh := by
    ext c
    exact or_congr (hplaced c) Iff.rfl
  have hnames : Names s.device fresh' :=
    ⟨h.names.names, h.names.sectors, fun c hc => h.names.proper c (hc.imp_right hp.mem_iff.mpr),
      hp.nodup_iff.mp h.names.nodup, fun c hc => h.names.unnamed c (hp.mem_iff.mpr hc)⟩
  refine ⟨h.balanced, h.mapFile, h.saved, hlive.symm ▸ h.laid, hnames, h.agrees, fun r hr => ?_,
    h.users⟩
  rw [hplaced]
  exact h.removed r hr

/-! ## What the parts depend on -/

/-- The root directory, if its inode and its data stay. -/
theorem rootSlots_congr (hinode : device' rootDirSector = device rootDirSector)
    (hdata : ∀ x, (loaded device rootDirSector).HasSector x → device' x = device x) :
    rootSlots device' = rootSlots device := by
  unfold rootSlots
  rw [loaded_congr hinode, slots_congr (loaded_length_lt _ _) hdata]

/-- The names are those of the root directory. -/
theorem named_congr (h : rootSlots device' = rootSlots device) :
    Named device' c ↔ Named device c := by
  unfold Named
  rw [h]

/-- What has a place depends on the root directory alone. -/
theorem placed_congr (h : rootSlots device' = rootSlots device) :
    Placed device' fresh c ↔ Placed device fresh c := by
  unfold Placed
  rw [named_congr h]

/-- The books of the names depend on the root directory alone. -/
theorem Names.congr (h : Names device fresh) (hroot : rootSlots device' = rootSlots device) :
    Names device' fresh where
  names := by
    rw [hroot]
    exact h.names
  sectors := by
    rw [hroot]
    exact h.sectors
  proper := fun c hc => h.proper c (hc.imp_left (named_congr hroot).mp)
  nodup := h.nodup
  unnamed := fun c hc hn => h.unnamed c hc ((named_congr hroot).mp hn)

/-- Nobody denies writes to the inodes of the free map and of the root directory. -/
theorem denied_zero {s : Files} (hb : Balanced s l extra)
    (hfile : ∀ f, s.freeMapFile = some f →
      ∃ r, s.file f = some { inode := r, pos := 0, denyWrite := false })
    (husers : ∀ f ∈ l, s.freeMapFile ≠ some f → ∀ x, s.file f = some x →
      (s.inode x.inode).sector ≠ freeMapSector ∧ (s.inode x.inode).sector ≠ rootDirSector)
    (hr : r ∈ s.openInodes)
    (hsector : (s.inode r).sector = freeMapSector ∨ (s.inode r).sector = rootDirSector) :
    (s.inode r).denyWriteCnt = 0 := by
  rw [hb.denied r hr]
  have hnone : l.countP (s.deniesOn r) = 0 := by
    apply List.countP_eq_zero.mpr
    intro f hf
    obtain ⟨x, hx⟩ := hb.file_of_mem hf
    rw [deniesOn_eq hx]
    by_cases hmap : s.freeMapFile = some f
    · obtain ⟨r', hr'⟩ := hfile f hmap
      rw [hx] at hr'
      cases hr'
      rw [Bool.and_false]
      exact Bool.false_ne_true
    · obtain ⟨h₀, h₁⟩ := husers f hf hmap x hx
      have hne : x.inode ≠ r := by
        rintro rfl
        exact hsector.elim h₀ h₁
      rw [beq_false_of_ne hne, Bool.false_and]
      exact Bool.false_ne_true
  rw [hnone]
  rfl

/-- Nobody denies writes to the volume's own inodes. -/
theorem Sound.denied_zero (h : Sound s l extra fresh) (hr : r ∈ s.openInodes)
    (hsector : (s.inode r).sector = freeMapSector ∨ (s.inode r).sector = rootDirSector) :
    (s.inode r).denyWriteCnt = 0 := by
  obtain ⟨f, r', hf, hmap⟩ := h.mapFile
  refine Filesys.denied_zero h.balanced (fun f' hf' => ?_) h.users hr hsector
  rw [hmap.freeMapFile] at hf'
  cases hf'
  exact ⟨r', hmap.file⟩

/-- The inode is the same, up to how it is used. -/
structure Inode.Same (ino ino' : Inode) : Prop where
  sector : ino'.sector = ino.sector
  start : ino'.start = ino.start
  length : ino'.length = ino.length
  removed : ino'.removed = ino.removed

/-- An inode is the same as itself. -/
theorem Inode.Same.refl (ino : Inode) : ino.Same ino := ⟨rfl, rfl, rfl, rfl⟩

/-- Memory and disk go on agreeing. -/
theorem agrees_of_same (h : s.Agrees r) (hi : (s.inode r).Same (s'.inode r))
    (hd : s'.device (s.inode r).sector = s.device (s.inode r).sector) : s'.Agrees r := by
  unfold Files.Agrees
  rw [hi.start, hi.length, hi.sector, loaded_congr hd]
  exact h

theorem MapFile.of_same (h : MapFile s f r) (hfmf : s'.freeMapFile = s.freeMapFile)
    (hfile : s'.file f = s.file f) (hi : (s.inode r).Same (s'.inode r))
    (hd : s'.device freeMapSector = s.device freeMapSector)
    (hlen : s'.freeMap.length = s.freeMap.length) (hpad : s'.pad = s.pad)
    (hdeny : (s'.inode r).denyWriteCnt = 0) : MapFile s' f r where
  freeMapFile := hfmf.trans h.freeMapFile
  file := hfile.trans h.file
  sector := hi.sector.trans h.sector
  agrees := agrees_of_same h.agrees hi (h.sector.symm ▸ hd)
  length := by
    rw [hi.length, h.length, Files.mapBytes, Files.mapBytes, length_bitmapBytes, length_bitmapBytes,
      List.length_append, List.length_append, hlen, hpad]
  denyWriteCnt := hdeny
  apart := fun hin => h.apart ((hasSector_of_eq hi.start hi.length).mp hin)

/-! ## Changes in memory -/

/-- On the device and in the free map nothing changes. Of the inodes that are open then those that
were open before are the same, and the others have just been read and are to stay. -/
theorem Sound.of_tables (h : Sound s l extra fresh) (hb : Balanced s' l' extra')
    (hdev : s'.device = s.device) (hmap : s'.freeMap = s.freeMap) (hpad : s'.pad = s.pad)
    (hfmf : s'.freeMapFile = s.freeMapFile)
    (hfile : ∀ f, s.freeMapFile = some f → f ∈ l' ∧ s'.file f = s.file f)
    (hold : ∀ r ∈ s.openInodes, (s.inode r).Same (s'.inode r))
    (hnew : ∀ r ∈ s'.openInodes, r ∈ s.openInodes ∨
      (s'.Agrees r ∧ (s'.inode r).removed = false ∧ Placed s.device fresh (s'.inode r).sector))
    (husers : ∀ f ∈ l', s'.freeMapFile ≠ some f → ∀ x, s'.file f = some x →
      (s'.inode x.inode).sector ≠ freeMapSector ∧ (s'.inode x.inode).sector ≠ rootDirSector) :
    Sound s' l' extra' fresh := by
  have hlive : s'.live fresh ⊆ s.live fresh := by
    rintro c (hc | ⟨r, hr, rfl⟩)
    · rw [hdev] at hc
      exact .inl hc
    · rcases hnew r hr with hr | ⟨-, -, hplaced⟩
      · exact .inr ⟨r, hr, (hold r hr).sector.symm⟩
      · exact .inl hplaced
  obtain ⟨f, r, hf, hm⟩ := h.mapFile
  obtain ⟨hfl, hff⟩ := hfile f hm.freeMapFile
  have hrs : r ∈ s.openInodes := h.balanced.inode_open hf hm.file
  have hrs' : r ∈ s'.openInodes := hb.inode_open hfl (hff.trans hm.file)
  constructor
  case balanced => exact hb
  case mapFile =>
    refine ⟨f, r, hfl, hm.of_same hfmf hff (hold r hrs) (by rw [hdev]) (by rw [hmap]) hpad ?_⟩
    refine Filesys.denied_zero hb (fun f' hf' => ?_) husers hrs' (.inl ?_)
    · rw [hfmf, hm.freeMapFile] at hf'
      cases hf'
      exact ⟨r, hff.trans hm.file⟩
    · rw [(hold r hrs).sector, hm.sector]
  case saved =>
    unfold Saved
    rw [hdev, hmap, hpad]
    exact h.saved
  case laid =>
    rw [hdev, hmap]
    exact h.laid.drop _ hlive rfl fun c hc x hx => h.laid.marked (hlive hc) hx
  case names =>
    rw [hdev]
    exact h.names
  case agrees =>
    intro r hr
    rcases hnew r hr with hr | ⟨hagrees, -, -⟩
    · exact agrees_of_same (h.agrees r hr) (hold r hr) (by rw [hdev])
    · exact hagrees
  case removed =>
    intro r hr
    rw [hdev]
    rcases hnew r hr with hr | ⟨-, hrem, hplaced⟩
    · rw [(hold r hr).removed, (hold r hr).sector]
      exact h.removed r hr
    · rw [hrem]
      exact iff_of_false Bool.false_ne_true (not_not_intro hplaced)
  case users => exact husers

/-! ## Changes on the device -/

/-- The tables are as they were, but for which of the open inodes are removed. -/
structure TablesButRemoved (s s' : Files) : Prop where
  openInodes : s'.openInodes = s.openInodes
  file : s'.file = s.file
  freeMapFile : s'.freeMapFile = s.freeMapFile
  pad : s'.pad = s.pad
  sector : ∀ r, (s'.inode r).sector = (s.inode r).sector
  start : ∀ r, (s'.inode r).start = (s.inode r).start
  length : ∀ r, (s'.inode r).length = (s.inode r).length
  denyWriteCnt : ∀ r, (s'.inode r).denyWriteCnt = (s.inode r).denyWriteCnt

/-- The inodes stay, and the free map is in its file. Which of them are to stay may have changed. -/
theorem Sound.of_placed (h : Sound s l extra fresh) (hb : Balanced s' l extra)
    (ht : TablesButRemoved s s') (hlen : s'.freeMap.length = s.freeMap.length)
    (hinodes : ∀ c ∈ s.live fresh, s'.device c = s.device c)
    (hlive : s'.live fresh' = s.live fresh) (hnames : Names s'.device fresh')
    (hremoved : ∀ r ∈ s.openInodes,
      ((s'.inode r).removed = true ↔ ¬ Placed s'.device fresh' (s.inode r).sector))
    (hsaved : Saved s')
    (hmarks : ∀ c ∈ s.live fresh, ∀ x ∈ sectorsOf s.device c, Marked s'.freeMap x) :
    Sound s' l extra fresh' := by
  have hagrees : ∀ r ∈ s.openInodes, s'.Agrees r := by
    intro r hr
    unfold Files.Agrees
    rw [ht.sector, ht.start, ht.length, loaded_congr (hinodes _ (.inr ⟨r, hr, rfl⟩))]
    exact h.agrees r hr
  constructor
  case balanced => exact hb
  case mapFile =>
    obtain ⟨f, r, hf, hm⟩ := h.mapFile
    refine ⟨f, r, hf, ?_⟩
    constructor
    case freeMapFile => rw [ht.freeMapFile, hm.freeMapFile]
    case file => rw [ht.file, hm.file]
    case sector => rw [ht.sector, hm.sector]
    case agrees => exact hagrees r (h.balanced.inode_open hf hm.file)
    case length =>
      rw [ht.length, hm.length, Files.mapBytes, Files.mapBytes, length_bitmapBytes,
        length_bitmapBytes, List.length_append, List.length_append, hlen, ht.pad]
    case denyWriteCnt => rw [ht.denyWriteCnt, hm.denyWriteCnt]
    case apart => exact fun hin => hm.apart ((hasSector_of_eq (ht.start r) (ht.length r)).mp hin)
  case saved => exact hsaved
  case laid =>
    rw [hlive]
    exact (h.laid.drop s'.freeMap (fun _ hc => hc) hlen hmarks).of_same hinodes rfl fun _ hx => hx
  case names => exact hnames
  case agrees =>
    intro r hr
    rw [ht.openInodes] at hr
    exact hagrees r hr
  case removed =>
    intro r hr
    rw [ht.openInodes] at hr
    rw [ht.sector]
    exact hremoved r hr
  case users =>
    intro f hf hmap x hx
    rw [ht.freeMapFile] at hmap
    rw [ht.file] at hx
    rw [ht.sector]
    exact h.users f hf hmap x hx

/-- Where no table changes, no more than a mark does. -/
theorem SameTables.butRemoved (hs : SameTables s s') (hpad : s'.pad = s.pad) :
    TablesButRemoved s s' where
  openInodes := hs.openInodes
  file := hs.file
  freeMapFile := hs.freeMapFile
  pad := hpad
  sector := fun r => by rw [hs.inode]
  start := fun r => by rw [hs.inode]
  length := fun r => by rw [hs.inode]
  denyWriteCnt := fun r => by rw [hs.inode]

/-- Who is open stays open. -/
theorem TablesButRemoved.isOpen (ht : TablesButRemoved s s') : s'.IsOpen c ↔ s.IsOpen c := by
  unfold Files.IsOpen
  rw [ht.openInodes]
  exact exists_congr fun r => and_congr_right fun _ => by rw [ht.sector]

/-- The inodes and the root directory stay, and the free map is in its file. -/
theorem Sound.of_device (h : Sound s l extra fresh) (hs : SameTables s s') (hpad : s'.pad = s.pad)
    (hlen : s'.freeMap.length = s.freeMap.length)
    (hinodes : ∀ c ∈ s.live fresh, s'.device c = s.device c)
    (hroot : rootSlots s'.device = rootSlots s.device) (hsaved : Saved s')
    (hmarks : ∀ c ∈ s.live fresh, ∀ x ∈ sectorsOf s.device c, Marked s'.freeMap x) :
    Sound s' l extra fresh ∧ s'.live fresh = s.live fresh := by
  have ht := hs.butRemoved hpad
  have hlive : s'.live fresh = s.live fresh := by
    ext c
    exact or_congr (placed_congr hroot) ht.isOpen
  refine ⟨h.of_placed (h.balanced.of_same hs) ht hlen hinodes hlive (h.names.congr hroot)
    (fun r hr => ?_) hsaved hmarks, hlive⟩
  rw [hs.inode, placed_congr hroot]
  exact h.removed r hr

end Pintos.Filesys
