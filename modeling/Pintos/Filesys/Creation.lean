import Pintos.Filesys.Mounting
import Pintos.Filesys.Lifetimes

/-!
# Creating a file

`filesys_create` marks a sector for the inode, writes the inode with its data and adds a name. Each
step keeps the volume `Sound`. Where it fails it gives back the sector of the inode, and of the data
none: the file system is as it was unless the name cannot be added to an inode that has been given
data (`filesysCreate_unchanged`).
-/

namespace Pintos.Filesys

open Pintos.Lib

variable {s s' : Files} {r d : InodeRef} {l : List FileRef} {extra : List InodeRef}
  {fresh : List SectorNo} {c x : SectorNo} {name : List UInt8} {size : Int} {ok : Bool} {cnt : Nat}

/-- The map of a sound volume has its file. -/
theorem Sound.freeMapFile_isSome (h : Sound s l extra fresh) : s.freeMapFile.isSome = true := by
  obtain ⟨f, r, -, hm⟩ := h.mapFile
  rw [hm.freeMapFile]
  rfl

/-! ## What a file has -/

/-- The bytes of the inode in a sector. -/
def contents (device : SectorNo → Sector) (c : SectorNo) : List UInt8 :=
  (List.range (loaded device c).length.toNat).map fun i : Nat => byteAt (loaded device c) device i

/-- What a file holds is on its inode's sector and its data sectors. -/
theorem contents_congr {device device' : SectorNo → Sector} (hinode : device' c = device c)
    (hdata : ∀ x, (loaded device c).HasSector x → device' x = device x) :
    contents device' c = contents device c := by
  unfold contents
  rw [loaded_congr hinode]
  apply List.map_congr_left
  intro i hi
  have hlt := List.mem_range.mp hi
  exact byteAt_congr (loaded_length_lt _ _) hdata (by omega) (by omega)

/-- Data that is all zeros. -/
theorem contents_zero {device : SectorNo → Sector} (hlength : (loaded device c).length = size)
    (hzero : ∀ x, (loaded device c).HasSector x → device x = fun _ => 0) :
    contents device c = List.replicate size.toNat 0 := by
  unfold contents
  rw [hlength]
  refine List.eq_replicate_iff.mpr ⟨by rw [List.length_map, List.length_range], fun b hb => ?_⟩
  obtain ⟨i, hi, rfl⟩ := List.mem_map.mp hb
  have hlt := List.mem_range.mp hi
  have hsame : byteAt (loaded device c) device i = byteAt (loaded device c) (fun _ _ => 0) i :=
    byteAt_congr (loaded_length_lt _ _) hzero (by omega) (by omega)
  rw [hsame]
  unfold byteAt Sector.byte
  split <;> rfl

/-! ## A sector for the inode -/

/-- `free_map_allocate` finds what the search finds. -/
theorem freeMapAllocate_fst (hready : MapReady s) (cnt : Nat) :
    (freeMapAllocate cnt s).1 = bitmapScan s.freeMap cnt := by
  unfold freeMapAllocate
  cases hscan : bitmapScan s.freeMap cnt with
  | none => rfl
  | some sector =>
    have hlen := length_setMultiple s.freeMap sector cnt true
    obtain ⟨-, hok⟩ := bitmapWrite_remapped (hready.of_freeMap hlen)
    dsimp only
    split
    next hsome => rw [if_pos (hok hsome)]
    next => rfl

/-- Marked, the sector belongs to no inode. -/
theorem Sound.of_reserve (h : Sound s l extra fresh) (hx : freeMapAllocate 1 s = (some c, s')) :
    Sound s' l extra fresh ∧ s'.live fresh = s.live fresh ∧ ¬ Marked s.freeMap c ∧
      Reserved s'.device s'.freeMap (s.live fresh) c ∧
      Remapped s s' (setMultiple s.freeMap c 1 true) := by
  obtain ⟨hvac, hre⟩ := freeMapAllocate_some h.ready hx
  have hfree : ¬ Marked s.freeMap c := hvac.2 c (Nat.le_refl c) (Nat.lt_succ_self c)
  obtain ⟨hs, hlive⟩ := h.of_remapped hre fun c' hc' x hx' =>
    (marked_set_true hvac.1).mpr (.inl (h.laid.marked hc' hx'))
  have hmap : s'.freeMap = setMultiple s.freeMap c 1 true := by rw [hre.eq]
  refine ⟨hs, hlive, hfree, ⟨?_, fun c' hc' hin => ?_⟩, hre⟩
  · rw [hmap]
    exact (marked_set_true hvac.1).mpr (.inr ⟨Nat.le_refl c, Nat.lt_succ_self c⟩)
  · rw [sectorsOf_congr (h.mapOnly_eq hre.mapOnly hc' (.inl rfl) (.inr rfl))] at hin
    exact hfree (h.laid.marked hc' hin)

/-- A sector that belongs to no inode is given back. -/
theorem Sound.of_release (h : Sound s l extra fresh)
    (hr : Reserved s.device s.freeMap (s.live fresh) c) :
    ∃ s', freeMapRelease c 1 s = .ok s' ∧ Sound s' l extra fresh ∧ s'.live fresh = s.live fresh ∧
      Remapped s s' (setMultiple s.freeMap c 1 false) := by
  have heq : ∀ x, c ≤ x → x < c + 1 → x = c := fun x hlow hhigh =>
    Nat.le_antisymm (Nat.le_of_lt_succ hhigh) hlow
  exact h.of_releaseRange c 1 hr.1.lt (fun x hlow hhigh => heq x hlow hhigh ▸ hr.1)
    fun c' hc' x hx hin => hr.2 c' hc' (heq x hin.1 hin.2 ▸ hx)

/-! ## The inode -/

/-- What the inodes there are have is as it was, but for the data of the free map. -/
theorem Sound.created_eq (h : Sound s l extra fresh)
    (hr : Reserved s.device s.freeMap (s.live fresh) c)
    (hcr : Created s s' (s.live fresh) c size) {c' : SectorNo} (hc : c' ∈ s.live fresh)
    (hx : x ∈ sectorsOf s.device c') (hne : c' ≠ freeMapSector ∨ x = c') :
    s'.device x = s.device x := by
  refine hcr.others x (h.laid.marked hc hx) (fun heq => hr.2 c' hc (heq ▸ hx)) fun hin => ?_
  rcases hne with hne | rfl
  · exact Set.disjoint_left.mp (h.laid.apart hc map_live hne) hx (.inr hin)
  · exact h.laid.not_data hc map_live hin

/-- A new inode on disk is in no slot yet. -/
theorem Sound.rootSlots_created (h : Sound s l extra fresh)
    (hr : Reserved s.device s.freeMap (s.live fresh) c)
    (hcr : Created s s' (s.live fresh) c size) : rootSlots s'.device = rootSlots s.device :=
  rootSlots_congr (h.created_eq hr hcr root_live (.inl rfl) (.inr rfl)) fun _ hx =>
    h.created_eq hr hcr root_live (.inr hx) (.inl (by decide))

/-- An inode that waits for a name. -/
theorem Sound.of_created (h : Sound s l extra fresh)
    (hr : Reserved s.device s.freeMap (s.live fresh) c)
    (hcr : Created s s' (s.live fresh) c size) : Sound s' l extra (c :: fresh) := by
  have heq := hcr.eq
  have hsame : SameTables s s' := by
    rw [heq]
    exact ⟨rfl, rfl, rfl, rfl, rfl, rfl⟩
  have hroot := h.rootSlots_created hr hcr
  have hcl := hr.not_live
  have hplaced : ∀ c', Placed s'.device (c :: fresh) c' ↔ c' = c ∨ Placed s.device fresh c' := by
    intro c'
    rw [placed_congr hroot]
    unfold Placed
    rw [List.mem_cons]
    tauto
  have hopen : ∀ c', s'.IsOpen c' ↔ s.IsOpen c' := by
    intro c'
    unfold Files.IsOpen
    rw [hsame.openInodes, hsame.inode]
  have hinode : ∀ r, (s.inode r).Same (s'.inode r) := by
    intro r
    rw [hsame.inode]
    exact .refl _
  constructor
  case balanced => exact h.balanced.of_same hsame
  case mapFile =>
    obtain ⟨f, r, hf, hm⟩ := h.mapFile
    refine ⟨f, r, hf, hm.of_same hsame.freeMapFile (by rw [hsame.file]) (hinode r)
      (h.created_eq hr hcr map_live (.inl rfl) (.inr rfl)) hcr.size (by rw [heq]) ?_⟩
    rw [hsame.inode]
    exact hm.denyWriteCnt
  case saved => exact (hcr.synced h.freeMapFile_isSome).saved
  case laid =>
    have hlive : s'.live (c :: fresh) = insert c (s.live fresh) := by
      ext c'
      show Placed s'.device (c :: fresh) c' ∨ s'.IsOpen c' ↔
        c' = c ∨ Placed s.device fresh c' ∨ s.IsOpen c'
      rw [hplaced, hopen, or_assoc]
    rw [hlive]
    exact hcr.laid
  case names =>
    have hnames := h.names.congr hroot
    refine ⟨hnames.names, hnames.sectors, fun c' hc' => ?_, ?_, fun c' hc' hn => ?_⟩
    · rcases hc' with hn | hc'
      · exact hnames.proper c' (.inl hn)
      · rcases List.mem_cons.mp hc' with rfl | hc'
        · exact ⟨fun heq => hcl (heq ▸ map_live), fun heq => hcl (heq ▸ root_live)⟩
        · exact hnames.proper c' (.inr hc')
    · exact List.nodup_cons.mpr ⟨fun hmem => hcl (.inl (.inr (.inr (.inr hmem)))), hnames.nodup⟩
    · rcases List.mem_cons.mp hc' with rfl | hc'
      · exact hcl (.inl (.inr (.inr (.inl ((named_congr hroot).mp hn)))))
      · exact hnames.unnamed c' hc' hn
  case agrees =>
    intro r hro
    rw [hsame.openInodes] at hro
    exact agrees_of_same (h.agrees r hro) (hinode r)
      (h.created_eq hr hcr (.inr ⟨r, hro, rfl⟩) (.inl rfl) (.inr rfl))
  case removed =>
    intro r hro
    rw [hsame.openInodes] at hro
    rw [hsame.inode, h.removed r hro, hplaced, not_or]
    refine ⟨fun hnot => ⟨fun heq => hcl (.inr ⟨r, hro, heq⟩), hnot⟩, And.right⟩
  case users =>
    rw [hsame.freeMapFile, hsame.file, hsame.inode]
    exact h.users

/-- The inode of a sector that nobody has open is given up. -/
theorem Sound.forget (h : Sound s l extra (c :: fresh)) (hclosed : ¬ s.IsOpen c) :
    Sound s l extra fresh ∧ Reserved s.device s.freeMap (s.live fresh) c := by
  have hc : c ∈ s.live (c :: fresh) := .inl (.inr (.inr (.inr List.mem_cons_self)))
  obtain ⟨hmap, hroot⟩ := h.names.proper c (.inr List.mem_cons_self)
  obtain ⟨hnot, hnodup⟩ := List.nodup_cons.mp h.names.nodup
  have hplaced : ∀ c', Placed s.device (c :: fresh) c' ↔ c' = c ∨ Placed s.device fresh c' := by
    intro c'
    unfold Placed
    rw [List.mem_cons]
    tauto
  have hcl : c ∉ s.live fresh := by
    rintro ((h₀ | h₁ | hn | hf) | ho)
    · exact hmap h₀
    · exact hroot h₁
    · exact h.names.unnamed c List.mem_cons_self hn
    · exact hnot hf
    · exact hclosed ho
  have hsub : s.live fresh ⊆ s.live (c :: fresh) := by
    rintro c' (hp | ho)
    · exact .inl ((hplaced c').mpr (.inr hp))
    · exact .inr ho
  refine ⟨⟨h.balanced, h.mapFile, h.saved, ?_, ?_, h.agrees, fun r hr => ?_, h.users⟩,
    h.laid.marked hc (.inl rfl), fun c' hc' hin => ?_⟩
  · exact h.laid.drop _ hsub rfl fun c' hc' x hx => h.laid.marked (hsub hc') hx
  · exact ⟨h.names.names, h.names.sectors,
      fun c' hc' => h.names.proper c' (hc'.imp_right (List.mem_cons_of_mem c)), hnodup,
      fun c' hc' => h.names.unnamed c' (List.mem_cons_of_mem c hc')⟩
  · rw [h.removed r hr, hplaced, not_or]
    exact ⟨And.right, fun hno => ⟨fun heq => hclosed ⟨r, hr, heq⟩, hno⟩⟩
  · have hne : c ≠ c' := fun heq => hcl (heq ▸ hc')
    exact Set.disjoint_left.mp (h.laid.apart hc (hsub hc') hne) (.inl rfl) hin

/-- `inode_create` succeeds if there is room for the data. -/
theorem Sound.of_inodeCreate (h : Sound s l extra fresh)
    (hr : Reserved s.device s.freeMap (s.live fresh) c) (hsize : 0 ≤ size) (hlen : size < 2 ^ 31) :
    ∃ ok s', inodeCreate c size s = .ok (ok, s') ∧
      ((ok = false ∧ s' = s ∧ bitmapScan s.freeMap (bytesToSectors size) = none) ∨
      (ok = true ∧ Created s s' (s.live fresh) c size ∧
        ∃ start, bitmapScan s.freeMap (bytesToSectors size) = some start ∧
          s'.freeMap = setMultiple s.freeMap start (bytesToSectors size) true)) := by
  have hfst := freeMapAllocate_fst h.ready (bytesToSectors size)
  have hspec := fun ok s' (hx : inodeCreate c size s = .ok (ok, s')) =>
    inodeCreate_ok h.ready h.laid (.inl map_live) hr hlen hx
  unfold inodeCreate at hspec ⊢
  rw [if_neg (Int.not_lt.mpr hsize)] at hspec ⊢
  dsimp only at hspec ⊢
  cases halloc : freeMapAllocate (bytesToSectors size) s with
  | mk o s₁ =>
    rw [halloc] at hfst hspec
    cases o with
    | none => exact ⟨false, s₁, rfl, .inl ⟨rfl, freeMapAllocate_none h.ready halloc, hfst.symm⟩⟩
    | some start =>
      obtain ⟨-, hre⟩ := freeMapAllocate_some h.ready halloc
      refine ⟨_, _, rfl, .inr ⟨rfl, ?_, start, hfst.symm, ?_⟩⟩
      · exact ((hspec _ _ rfl).resolve_left fun hf => Bool.noConfusion hf.1).2
      · show s₁.freeMap = _
        rw [hre.eq]

/-! ## The name -/

/-- A free slot is given to an inode. -/
theorem sectorKeys_set {es : List DirEntry} {k : Nat} {e : DirEntry} (hk : es[k]? = some e)
    (hfree : e.inUse = false) (name : List UInt8) (c : SectorNo) :
    (sectorView.keys (es.set k (newEntry name c))).Perm (c :: sectorView.keys es) :=
  View.keys_set_used hk hfree rfl

/-- A free slot that is filled is a name more. -/
theorem dirMap_set {es : List DirEntry} {k : Nat} {e : DirEntry} (hk : es[k]? = some e)
    (hfree : e.inUse = false) (c : SectorNo) (hnew : name ∉ dirView.keys es) :
    dirView.map (es.set k (newEntry name c)) = (dirView.map es).insert name c :=
  View.map_set_used hk hfree rfl hnew

/-- `dir_add` to the root directory. -/
theorem Sound.of_dirAdd (h : Sound s l extra (c :: fresh)) (hd : d ∈ s.openInodes)
    (hsector : (s.inode d).sector = rootDirSector) (hname : 0 ∉ name)
    (hx : dirAdd d name c s = (ok, s')) :
    (ok = true ↔ CanAdd (rootSlots s.device) name) ∧ s' = { s with device := s'.device } ∧
    DataOnly s.device s'.device rootDirSector ∧
    (ok = true → Sound s' l extra fresh ∧ (∀ c', Named s.device c' → Named s'.device c') ∧
      dirView.map (rootSlots s'.device) = (dirView.map (rootSlots s.device)).insert name c) ∧
    (ok = false → Sound s' l extra (c :: fresh) ∧ rootSlots s'.device = rootSlots s.device) := by
  obtain ⟨hslots, hdeny, hlen, hhas⟩ := h.root hd hsector
  have hc : c ∈ s.live (c :: fresh) := .inl (.inr (.inr (.inr List.mem_cons_self)))
  have hsmall : c < 2 ^ 32 := Nat.lt_trans (h.laid.marked hc (.inl rfl)).lt h.laid.small
  obtain ⟨hok, heq, hother, hset⟩ := dirAdd_eq hdeny hsmall hname hx
  have hdata : DataOnly s.device s'.device rootDirSector := fun x hout =>
    hother x hlen fun hin => hout ((hhas x).mp hin)
  have hagrees : slots (s.inode d) s'.device = rootSlots s'.device := by
    have hroot := h.agrees d hd
    unfold Files.Agrees at hroot
    rw [hsector, ← loaded_congr (h.laid.inode_eq root_live hdata root_live)] at hroot
    exact slots_of_eq hroot.1 hroot.2 _
  rw [hslots] at hok hset
  rw [hagrees] at hset
  refine ⟨hok, heq, hdata, fun htrue => ?_, fun hfalse => ?_⟩
  · rw [htrue, if_pos rfl] at hset
    obtain ⟨-, hfresh, hlt⟩ := hok.mp htrue
    have hfree := List.findIdx_getElem (w := hlt)
    rw [Bool.not_eq_true'] at hfree
    refine ⟨?_, fun c' hc' => ?_, ?_⟩
    · rw [heq]
      exact h.of_named hdata hset (List.getElem?_eq_getElem hlt) hfree fun hmem =>
        hfresh (View.mem_map.mpr hmem)
    · unfold Named
      rw [hset]
      exact (sectorKeys_set (List.getElem?_eq_getElem hlt) hfree name c).mem_iff.mpr
        (List.mem_cons_of_mem _ hc')
    · rw [hset]
      exact dirMap_set (List.getElem?_eq_getElem hlt) hfree c fun hmem =>
        hfresh (View.mem_map.mpr hmem)
  · rw [hfalse, if_neg Bool.false_ne_true] at hset
    rw [heq]
    exact ⟨h.of_rootData hdata hset, hset⟩

/-! ## What creation leaves alone -/

/-- In use, and with no data of the free map or of the root directory. -/
def Files.Elsewhere (s : Files) (x : SectorNo) : Prop :=
  Marked s.freeMap x ∧ ¬ (loaded s.device freeMapSector).HasSector x ∧
    ¬ (loaded s.device rootDirSector).HasSector x

/-- The inode of a live file is elsewhere than what a creation writes. -/
theorem Sound.inode_elsewhere (h : Sound s l extra fresh) (hc : c ∈ s.live fresh) : s.Elsewhere c :=
  ⟨h.laid.marked hc (.inl rfl), h.laid.not_data hc map_live, h.laid.not_data hc root_live⟩

/-- The data of a live file are elsewhere, too. -/
theorem Sound.data_elsewhere (h : Sound s l extra fresh) (hc : c ∈ s.live fresh)
    (hmap : c ≠ freeMapSector) (hroot : c ≠ rootDirSector) (hx : (loaded s.device c).HasSector x) :
    s.Elsewhere x := by
  refine ⟨h.laid.marked hc (.inr hx), fun hin => ?_, fun hin => ?_⟩
  · exact Set.disjoint_left.mp (h.laid.apart hc map_live hmap) (.inr hx) (.inr hin)
  · exact Set.disjoint_left.mp (h.laid.apart hc root_live hroot) (.inr hx) (.inr hin)

/-- What is elsewhere stays, on the device and in the free map. -/
structure Spares (s s' : Files) : Prop where
  device : ∀ x, s.Elsewhere x → s'.device x = s.device x
  marks : ∀ x, Marked s.freeMap x → Marked s'.freeMap x
  freeMapInode : s'.device freeMapSector = s.device freeMapSector
  rootInode : s'.device rootDirSector = s.device rootDirSector

/-- What is elsewhere stays elsewhere. -/
theorem Spares.elsewhere (h : Spares s s') (hx : s.Elsewhere x) : s'.Elsewhere x := by
  unfold Files.Elsewhere
  rw [loaded_congr h.freeMapInode, loaded_congr h.rootInode]
  exact ⟨h.marks x hx.1, hx.2⟩

/-- The inodes of the free map and of the root directory are elsewhere. -/
theorem Sound.spares (h : Sound s l extra fresh)
    (hdevice : ∀ x, s.Elsewhere x → s'.device x = s.device x)
    (hmarks : ∀ x, Marked s.freeMap x → Marked s'.freeMap x) : Spares s s' where
  device := hdevice
  marks := hmarks
  freeMapInode := hdevice _ (h.inode_elsewhere map_live)
  rootInode := hdevice _ (h.inode_elsewhere root_live)

/-- A disk that stays as it was is spared. -/
theorem SameDisk.spares (h : SameDisk s s') : Spares s s' where
  device := fun x _ => by rw [h.device]
  marks := fun x hx => by rw [h.freeMap]; exact hx
  freeMapInode := by rw [h.device]
  rootInode := by rw [h.device]

/-- More names, and no inode has been closed. -/
theorem live_subset (hnamed : ∀ c, Named s.device c → Named s'.device c)
    (hopen : s'.openInodes = s.openInodes) (hino : ∀ r, (s'.inode r).sector = (s.inode r).sector) :
    s.live [] ⊆ s'.live [] := by
  rintro c ((hc | hc | hc | hc) | ⟨r, hr, hc⟩)
  · exact .inl (.inl hc)
  · exact .inl (.inr (.inl hc))
  · exact .inl (.inr (.inr (.inl (hnamed c hc))))
  · exact absurd hc List.not_mem_nil
  · refine .inr ⟨r, ?_, (hino r).trans hc⟩
    rw [hopen]
    exact hr

/-! ## Creating and giving up -/

/-- Only the empty file has no sectors. -/
theorem bytesToSectors_eq_zero (hsize : 0 ≤ size) (hlen : size < 2 ^ 31) :
    bytesToSectors size = 0 ↔ size = 0 := by
  constructor
  · intro hzero
    have hle := le_bytesToSectors hsize hlen
    rw [hzero] at hle
    omega
  · rintro rfl
    rfl

/-- Marking sectors that were free changes the map if there are any. -/
theorem setMultiple_true_eq {m : List Bool} {a : Nat} (h : Vacant m a cnt) :
    setMultiple m a cnt true = m ↔ cnt = 0 := by
  constructor
  · intro heq
    by_contra hne
    have hmark : Marked (setMultiple m a cnt true) a :=
      (marked_set_true h.1).mpr (.inr ⟨Nat.le_refl a, by omega⟩)
    rw [heq] at hmark
    exact h.2 a (Nat.le_refl a) (by omega) hmark
  · rintro rfl
    exact setMultiple_zero m a true

/-- Marking a sector and marking others that are free with it, and then giving the first back. -/
theorem setMultiple_release {m : List Bool} {a : Nat} (h : Vacant m c 1)
    (h' : Vacant (setMultiple m c 1 true) a cnt) :
    setMultiple (setMultiple (setMultiple m c 1 true) a cnt true) c 1 false =
      setMultiple m a cnt true ∧ Vacant m a cnt := by
  have hmark : ∀ x, c ≤ x ∧ x < c + 1 → Marked (setMultiple m c 1 true) x := fun x hx =>
    (marked_set_true h.1).mpr (.inr hx)
  refine ⟨?_, ?_, fun x hlo hhi hx => h'.2 x hlo hhi ((marked_set_true h.1).mpr (.inl hx))⟩
  · rw [setMultiple_comm fun x hin hx => h'.2 x hin.1 hin.2 (hmark x hx), setMultiple_restore h]
  · have hle := h'.1
    rwa [length_setMultiple] at hle

/-- A sector is there for the inode and for the data. -/
def HasRoom (free : List Bool) (size : Int) : Prop :=
  ∃ c, bitmapScan free 1 = some c ∧
    (bitmapScan (setMultiple free c 1 true) (bytesToSectors size)).isSome = true

/-- There is room for an inode with data, and the name cannot be added. -/
def Strands (name : List UInt8) (size : Int) (s : Files) : Prop :=
  0 < size ∧ HasRoom s.freeMap size ∧ ¬ CanAdd (rootSlots s.device) name

/-- A new inode has the name, and has zeros. -/
structure Made (s s' : Files) (name : List UInt8) (size : Int) : Prop where
  room : HasRoom s.freeMap size
  canAdd : CanAdd (rootSlots s.device) name
  file : ∃ c, c ∉ s.live [] ∧
    dirView.map (rootSlots s'.device) = (dirView.map (rootSlots s.device)).insert name c ∧
    contents s'.device c = List.replicate size.toNat 0

/-- The steps of `filesys_create` once there is a sector for the inode: the inode and the name, and
the sector given back if one of them fails. -/
theorem Sound.of_allocated {s₂ : Files} (h : Sound s l extra []) (hd : d ∈ s.openInodes)
    (hsector : (s.inode d).sector = rootDirSector) (hsize : 0 ≤ size) (hlen : size < 2 ^ 31)
    (hname : 0 ∉ name) (hx : freeMapAllocate 1 s = (some c, s₂)) :
    ∃ created s₃, inodeCreate c size s₂ = .ok (created, s₃) ∧
    ∃ ok s₄, (if created then dirAdd d name c s₃ else (false, s₃)) = (ok, s₄) ∧
    ∃ s₅, (if ok = false ∧ c ≠ 0 then freeMapRelease c 1 s₄ else .ok s₄) = .ok s₅ ∧
      Sound s₅ l extra [] ∧ s₅.inode = s.inode ∧
      (∀ x, s.Elsewhere x → s₅.device x = s.device x) ∧
      (ok = true → Made s s₅ name size) ∧
      (ok = false → rootSlots s₅.device = rootSlots s.device ∧
        (s₅.freeMap = s.freeMap ↔ ¬ Strands name size s)) ∧
      (ok = false → ¬ (HasRoom s.freeMap size ∧ CanAdd (rootSlots s.device) name)) ∧
      Grows [] s s₅ := by
  have hscan : bitmapScan s.freeMap 1 = some c := by
    rw [← freeMapAllocate_fst h.ready, hx]
  obtain ⟨hvac, -⟩ := freeMapAllocate_some h.ready hx
  obtain ⟨h₂, hlive, hfree, hr, hre⟩ := h.of_reserve hx
  have hmap₂ : s₂.freeMap = setMultiple s.freeMap c 1 true := by rw [hre.eq]
  have hroot₂ := h.rootSlots_mapOnly hre.mapOnly
  have hspares₂ : Spares s s₂ := h.spares (fun x hx => hre.mapOnly x hx.2.1)
    fun x hx => by rw [hmap₂]; exact (marked_set_true hvac.1).mpr (.inl hx)
  rw [← hlive] at hr
  have hne : c ≠ 0 := by
    rintro rfl
    exact hr.not_live map_live
  have hroom : HasRoom s.freeMap size ↔
      (bitmapScan s₂.freeMap (bytesToSectors size)).isSome = true := by
    unfold HasRoom
    rw [hmap₂, hscan]
    exact ⟨fun ⟨_, hc, hsome⟩ => by cases hc; exact hsome, fun hsome => ⟨c, rfl, hsome⟩⟩
  obtain ⟨created, s₃, hcreate, ⟨rfl, rfl, hnone⟩ | ⟨rfl, hcr, start, hstart, hmap₃⟩⟩ :=
    h₂.of_inodeCreate hr hsize hlen
  · -- no room for the data
    obtain ⟨s₅, hrel, h₅, hlive₅, hre₅⟩ := h₂.of_release hr
    have hmap₅ : s₅.freeMap = s.freeMap := by
      rw [hre₅.eq, hmap₂]
      exact setMultiple_restore hvac
    have hno : ¬ HasRoom s.freeMap size := by
      intro hhas
      have hsome := hroom.mp hhas
      rw [hnone] at hsome
      exact Bool.false_ne_true hsome
    refine ⟨false, s₃, hcreate, false, s₃, rfl, s₅, ?_, h₅, ?_, ?_, ?_, fun _ => ⟨?_, ?_⟩,
      fun _ hboth => hno hboth.1, ?_⟩
    · rw [if_pos ⟨rfl, hne⟩]
      exact hrel
    · rw [hre₅.eq, hre.eq]
    · intro x hx
      exact (hre₅.mapOnly x (hspares₂.elsewhere hx).2.1).trans (hspares₂.device x hx)
    · exact fun htrue => absurd htrue Bool.false_ne_true
    · exact (h₂.rootSlots_mapOnly hre₅.mapOnly).trans hroot₂
    · exact iff_of_true hmap₅ fun hstrands => hno hstrands.2.1
    · refine ⟨(hlive₅.trans hlive).symm.subset, fun x hx => ?_, ?_, ?_⟩
      · rw [hmap₅]
        exact hx
      · rw [hmap₅]
      · rw [hre₅.eq, hre.eq]
  · have h₃ := h₂.of_created hr hcr
    have hroot₃ := (h₂.rootSlots_created hr hcr).trans hroot₂
    have hino₃ : s₃.inode = s.inode := by rw [hcr.eq, hre.eq]
    have hspares₃ : Spares s s₃ := by
      refine h.spares (fun x hx => ?_) fun x hx => hcr.marks x (hspares₂.marks x hx)
      refine (hcr.others x (hspares₂.marks x hx.1) ?_ (hspares₂.elsewhere hx).2.1).trans
        (hspares₂.device x hx)
      exact fun heq => hfree (heq ▸ hx.1)
    have hd₃ : d ∈ s₃.openInodes ∧ (s₃.inode d).sector = rootDirSector := by
      rw [hino₃, hcr.eq, hre.eq]
      exact ⟨hd, hsector⟩
    cases hadd : dirAdd d name c s₃ with
    | mk ok s₄ =>
      obtain ⟨hok, heq₄, hdata, hgood, hbad⟩ := h₃.of_dirAdd hd₃.1 hd₃.2 hname hadd
      rw [hroot₃] at hok
      have hdevice₄ : ∀ x, s.Elsewhere x → s₄.device x = s.device x := fun x hx =>
        (hdata x (hspares₃.elsewhere hx).2.2).trans (hspares₃.device x hx)
      have hopen₄ : s₄.openInodes = s.openInodes := by rw [heq₄, hcr.eq, hre.eq]
      have hpad₄ : s₄.pad = s.pad := by rw [heq₄, hcr.eq, hre.eq]
      have hmarks₄ : ∀ x, Marked s.freeMap x → Marked s₄.freeMap x := by
        rw [heq₄]
        exact hspares₃.marks
      have hsize₄ : s₄.freeMap.length = s.freeMap.length := by
        rw [heq₄]
        exact hcr.size.trans (by rw [hmap₂, length_setMultiple])
      cases ok with
      | true =>
        obtain ⟨h₄, hnamed, hmap⟩ := hgood rfl
        have hcl : c ∈ s₃.live [c] := .inl (.inr (.inr (.inr List.mem_cons_self)))
        have hcroot : c ≠ rootDirSector := fun heq => hr.not_live (heq ▸ root_live)
        have hinode : s₄.device c = s₃.device c := h₃.laid.inode_eq root_live hdata hcl
        refine ⟨true, s₃, hcreate, true, s₄, hadd, s₄, rfl, h₄, ?_, hdevice₄, fun _ =>
          ⟨hroom.mpr (by rw [hstart]; rfl), hok.mp rfl, c, ?_, ?_, ?_⟩,
          fun hf => Bool.noConfusion hf, fun hf => Bool.noConfusion hf, ?_, hmarks₄, hsize₄, hpad₄⟩
        · rw [heq₄]
          exact hino₃
        · rw [← hlive]
          exact hr.not_live
        · rw [hmap, hroot₃]
        · rw [contents_congr hinode fun x hx => h₃.laid.data_eq root_live hdata hcl hcroot hx]
          exact contents_zero hcr.length hcr.zero
        · refine live_subset (fun c' hc' => hnamed c' ((named_congr hroot₃).mpr hc')) hopen₄ fun r => ?_
          rw [heq₄, hino₃]
      | false =>
        -- the sector of the inode is given back, and those of its data are not
        obtain ⟨h₄, hroot₄⟩ := hbad rfl
        have hclosed : ¬ s₄.IsOpen c := by
          rw [heq₄, hcr.eq]
          exact fun hopen => hr.not_live (.inr hopen)
        obtain ⟨h₄', hr₄⟩ := h₄.forget hclosed
        obtain ⟨s₅, hrel, h₅, -, hre₅⟩ := h₄'.of_release hr₄
        have hmapInode : s₄.device freeMapSector = s.device freeMapSector :=
          hdevice₄ _ (h.inode_elsewhere map_live)
        have hroot₅ : rootSlots s₅.device = rootSlots s.device :=
          (h₄.rootSlots_mapOnly hre₅.mapOnly).trans (hroot₄.trans hroot₃)
        have hvac₃ := vacant_of_bitmapScan hstart
        rw [hmap₂] at hvac₃
        obtain ⟨hback, hvac'⟩ := setMultiple_release hvac hvac₃
        have hmap₅ : s₅.freeMap = setMultiple s.freeMap start (bytesToSectors size) true := by
          rw [hre₅.eq, heq₄, hmap₃, hmap₂]
          exact hback
        refine ⟨true, s₃, hcreate, false, s₄, hadd, s₅, ?_, h₅, ?_, fun x hx => ?_,
          fun hf => Bool.noConfusion hf, fun _ => ⟨hroot₅, ?_⟩,
          fun _ hboth => Bool.noConfusion (hok.mpr hboth.2), ?_, fun x hx => ?_, ?_, ?_⟩
        · rw [if_pos ⟨rfl, hne⟩]
          exact hrel
        · rw [hre₅.eq, heq₄]
          exact hino₃
        · refine (hre₅.mapOnly x ?_).trans (hdevice₄ x hx)
          rw [loaded_congr hmapInode]
          exact hx.2.1
        · have hsome := hroom.mpr (by rw [hstart]; rfl)
          have hno : ¬ CanAdd (rootSlots s.device) name := fun hcan => Bool.noConfusion (hok.mpr hcan)
          rw [hmap₅, setMultiple_true_eq hvac', bytesToSectors_eq_zero hsize hlen]
          unfold Strands
          constructor
          · rintro rfl ⟨hpos, -⟩
            omega
          · intro hstrands
            by_contra hne'
            exact hstrands ⟨by omega, hsome, hno⟩
        · refine live_subset (fun c' hc' => (named_congr hroot₅).mpr hc') ?_ fun r => ?_
          · rw [hre₅.eq]
            exact hopen₄
          · rw [hre₅.eq, heq₄, hino₃]
        · rw [hmap₅]
          exact (marked_set_true hvac'.1).mpr (.inl hx)
        · rw [hmap₅, length_setMultiple]
        · rw [hre₅.eq]
          exact hpad₄

/-! ## `filesys_create` -/

/-- The root directory opens, and creation goes as far as the name. -/
def Leaks (m : Mallocs) (name : List UInt8) (size : Int) (s : Files) : Prop :=
  DirOpens m s ∧ Strands name size s

/-- Whatever a creation answers, the files that were there are as they were. -/
theorem Sound.filesysCreate_grows (h : Sound s l extra []) (m : Mallocs) (hsize : 0 ≤ size)
    (hlen : size < 2 ^ 31) (hname : 0 ∉ name) :
    ∃ ok s', filesysCreate name size m s = .ok (ok, s') ∧ Sound s' l extra [] ∧
      (∀ x, s.Elsewhere x → s'.device x = s.device x) ∧
      (ok = true → Made s s' name size) ∧
      (ok = false → rootSlots s'.device = rootSlots s.device ∧
        (s'.freeMap = s.freeMap ↔ ¬ Leaks m name size s)) ∧
      (ok = true ↔ DirOpens m s ∧ HasRoom s.freeMap size ∧ CanAdd (rootSlots s.device) name) ∧
      Grows [] s s' := by
  obtain ⟨o, s₁, hopen, h₁, hd₁, hroot⟩ := h.of_dirOpenRoot m
  have hstill₁ := h.still_dirOpenRoot hopen
  have hopens := dirOpenRoot_isSome hopen
  unfold filesysCreate
  rw [hopen, bind_ok]
  cases o with
  | none =>
    refine ⟨false, s₁, rfl, h₁, hd₁.spares.device, fun hf => Bool.noConfusion hf,
      fun _ => ⟨by rw [hd₁.device], iff_of_true hd₁.freeMap fun hleaks => ?_⟩,
      iff_of_false Bool.false_ne_true fun hall => ?_, hstill₁.grows⟩
    · exact Bool.false_ne_true (hopens.mpr hleaks.1)
    · exact Bool.false_ne_true (hopens.mpr hall.1)
  | some d =>
    obtain ⟨hd, hsector⟩ := hroot d rfl
    have hleaks : Leaks m name size s ↔ Strands name size s₁ := by
      unfold Leaks Strands
      rw [hd₁.device, hd₁.freeMap]
      exact and_iff_right (hopens.mp rfl)
    cases halloc : freeMapAllocate 1 s₁ with
    | mk o s₂ =>
      cases o with
      | none =>
        have hscan : bitmapScan s₁.freeMap 1 = none := by
          rw [← freeMapAllocate_fst h₁.ready, halloc]
        have hsame := freeMapAllocate_none h₁.ready halloc
        subst hsame
        have hplaced : Placed s₂.device [] (s₂.inode d).sector := .inr (.inl hsector)
        obtain ⟨s', hclose, h', hd', hstill'⟩ := Sound.still_close h₁ hplaced
        have hdisk := hd₁.trans hd'
        refine ⟨false, s', ?_, h', hdisk.spares.device, fun hf => Bool.noConfusion hf,
          fun _ => ⟨by rw [hdisk.device], iff_of_true hdisk.freeMap fun hleak => ?_⟩,
          iff_of_false Bool.false_ne_true fun hall => ?_, (hstill₁.trans hstill').grows⟩
        · dsimp only
          rw [halloc]
          dsimp only
          rw [hclose, bind_ok]
        · obtain ⟨-, ⟨c, hc, -⟩, -⟩ := hleaks.mp hleak
          rw [hscan] at hc
          cases hc
        · obtain ⟨-, ⟨c, hc, -⟩, -⟩ := hall
          rw [← hd₁.freeMap, hscan] at hc
          cases hc
      | some c =>
        obtain ⟨created, s₃, hcreate, ok, s₄, hadd, s₅, hrel, h₅, hino, hdevice, hmade, hfail, hno,
          hgrows⟩ :=
          h₁.of_allocated hd hsector hsize hlen hname halloc
        have hplaced : Placed s₅.device [] (s₅.inode d).sector := by
          rw [hino]
          exact .inr (.inl hsector)
        obtain ⟨s', hclose, h', hd', hstill'⟩ := Sound.still_close h₅ hplaced
        refine ⟨ok, s', ?_, h', fun x hx => ?_, fun hok => ?_, fun hok => ?_, ?_,
          (hstill₁.grows.trans hgrows).trans hstill'.grows⟩
        · dsimp only
          rw [halloc]
          dsimp only
          rw [hcreate, bind_ok]
          dsimp only
          rw [hadd]
          dsimp only
          by_cases hgive : ok = false ∧ c ≠ 0
          · rw [if_pos hgive] at hrel ⊢
            rw [hrel, bind_ok, hclose, bind_ok]
          · rw [if_neg hgive] at hrel ⊢
            rw [hrel, bind_ok, hclose, bind_ok]
        · rw [hd'.device, hdevice x (hd₁.spares.elsewhere hx), hd₁.device]
        · obtain ⟨hroom, hcan, c, hc, hmap, hzero⟩ := hmade hok
          rw [hd₁.freeMap] at hroom
          rw [hd₁.device] at hcan hmap
          refine ⟨hroom, hcan, c, hstill₁.live ▸ hc, ?_, ?_⟩
          · rw [hd'.device]
            exact hmap
          · rw [hd'.device]
            exact hzero
        · rw [hd'.device, hd'.freeMap, hleaks, ← hd₁.device, ← hd₁.freeMap]
          exact hfail hok
        · rw [← hd₁.freeMap, ← hd₁.device, and_iff_right (hopens.mp rfl)]
          cases ok with
          | true => exact iff_of_true rfl ⟨(hmade rfl).room, (hmade rfl).canAdd⟩
          | false => exact iff_of_false Bool.false_ne_true (hno rfl)

/-- What it returns, and what is left. -/
theorem Sound.of_filesysCreate (h : Sound s l extra []) (m : Mallocs) (hsize : 0 ≤ size)
    (hlen : size < 2 ^ 31) (hname : 0 ∉ name) :
    ∃ ok s', filesysCreate name size m s = .ok (ok, s') ∧ Sound s' l extra [] ∧
      (∀ x, s.Elsewhere x → s'.device x = s.device x) ∧
      (ok = true → CanAdd (rootSlots s.device) name) ∧
      (ok = false → rootSlots s'.device = rootSlots s.device ∧
        (s'.freeMap = s.freeMap ↔ ¬ Leaks m name size s)) := by
  obtain ⟨ok, s', hx, h', hdevice, hmade, hfail, -⟩ := h.filesysCreate_grows m hsize hlen hname
  exact ⟨ok, s', hx, h', hdevice, fun hok => (hmade hok).canAdd, hfail⟩

/-- The free map, in memory and in its file, the entries of the directory and the contents of every
other inode are as before. -/
structure Unchanged (s s' : Files) : Prop where
  freeMap : s'.freeMap = s.freeMap
  stored : bitsOf (contents s'.device freeMapSector) s.freeMap.length =
    bitsOf (contents s.device freeMapSector) s.freeMap.length
  entries : rootSlots s'.device = rootSlots s.device
  contents : ∀ c ∈ s.live [], c ≠ freeMapSector → c ≠ rootDirSector →
    contents s'.device c = contents s.device c

/-- The file of the free map has the map. -/
theorem Sound.bitsOf_contents (h : Sound s l extra fresh) :
    bitsOf (contents s.device freeMapSector) s.freeMap.length = s.freeMap := by
  obtain ⟨f, r, -, hm⟩ := h.mapFile
  obtain ⟨pad, hpad, hstored⟩ := h.saved
  have hbytes : contents s.device freeMapSector = bitmapBytes (s.freeMap ++ pad) := by
    apply List.ext_getElem
    · unfold contents
      rw [List.length_map, List.length_range, hm.loaded_length, Int.toNat_natCast,
        length_mapBytes hpad]
    · intro i hi hi'
      simp only [contents, List.getElem_map, List.getElem_range]
      rw [hstored i hi', List.getD_eq_getElem?_getD, List.getElem?_eq_getElem hi', Option.getD_some]
  rw [hbytes, bitsOf_bitmapBytes]

/-- If no slot changes, no name does. -/
theorem Sound.unchanged {l' : List FileRef} {extra' : List InodeRef} {fresh' : List SectorNo}
    (h : Sound s l extra []) (h' : Sound s' l' extra' fresh')
    (hdevice : ∀ x, s.Elsewhere x → s'.device x = s.device x)
    (hslots : rootSlots s'.device = rootSlots s.device) (hmap : s'.freeMap = s.freeMap) :
    Unchanged s s' where
  freeMap := hmap
  stored := by
    have hbits := h'.bitsOf_contents
    rw [hmap] at hbits
    rw [hbits, h.bitsOf_contents]
  entries := hslots
  contents := fun c hc hc₀ hc₁ => contents_congr (hdevice c (h.inode_elsewhere hc)) fun x hx =>
    hdevice x (h.data_elsewhere hc hc₀ hc₁ hx)

/-- A creation that fails leaves everything as it was, unless it comes as far as the name with an
inode that has data: the sectors of the data are lost. -/
theorem filesysCreate_unchanged (h : Sound s l extra []) (m : Mallocs) (hsize : 0 ≤ size)
    (hlen : size < 2 ^ 31) (hname : 0 ∉ name) :
    (∃ ok s', filesysCreate name size m s = .ok (ok, s') ∧ (ok = false → Unchanged s s')) ↔
      ¬ Leaks m name size s := by
  obtain ⟨ok, s', hx, h', hdevice, hcan, hfail⟩ := h.of_filesysCreate m hsize hlen hname
  constructor
  · rintro ⟨ok', s'', hx', hsame⟩ hleaks
    rw [hx] at hx'
    cases hx'
    cases ok with
    | true => exact hleaks.2.2.2 (hcan rfl)
    | false => exact (hfail rfl).2.mp (hsame rfl).freeMap hleaks
  · intro hno
    refine ⟨ok, s', hx, fun hok => ?_⟩
    obtain ⟨hslots, hmap⟩ := hfail hok
    exact h.unchanged h' hdevice hslots (hmap.mpr hno)

/-- There is no room for 5000 bytes on a device of eight sectors that has just been formatted: the
creation fails, and changes nothing. -/
theorem filesysCreate_unchanged_formatted :
    ∃ s s', filesysFormat 8 (fun _ => false) 16 (fun _ _ => 0) = .ok s ∧
      filesysCreate [97] 5000 {} s = .ok (false, s') ∧ Unchanged s s' := by
  have heval : (do
      let s ← filesysFormat 8 (fun _ => false) 16 (fun _ _ => 0)
      let x ← filesysCreate [97] 5000 {} s
      .ok (s.freeMap, x.1) : Except Assertion _).toOption =
        some ([true, true, true, true, false, false, false, false], false) := by
    decide +kernel
  obtain ⟨s, hformat, hrun⟩ := bind_eq_ok.mp (eq_ok_of_toOption heval)
  obtain ⟨⟨ok, s'⟩, hcreate, hrun⟩ := bind_eq_ok.mp hrun
  simp only [Except.ok.injEq, Prod.mk.injEq] at hrun
  obtain ⟨hmap, rfl⟩ := hrun
  obtain ⟨⟨f, hsound⟩, -, -⟩ := filesysFormat_sound (by decide) (by decide) hformat
  have hfull : ¬ HasRoom s.freeMap 5000 := by
    rw [hmap]
    rintro ⟨c, hc, hroom⟩
    obtain rfl : 4 = c := Option.some.inj hc
    exact absurd hroom (by decide)
  have hname : (0 : UInt8) ∉ [97] := by decide
  have hno : ¬ Leaks {} [97] 5000 s := fun hleaks => hfull hleaks.2.2.1
  obtain ⟨ok, s'', hx, hsame⟩ :=
    (filesysCreate_unchanged hsound {} (by decide) (by decide) hname).mpr hno
  rw [hcreate] at hx
  cases hx
  exact ⟨s, s', hformat, hcreate, hsame rfl⟩

/-- The file `a` is created twice, with one byte. The second time fails and takes a sector. -/
theorem created_twice : ∃ s s' s'', filesysFormat 8 (fun _ => false) 16 (fun _ _ => 0) = .ok s ∧
    filesysCreate [97] 1 {} s = .ok (true, s') ∧ filesysCreate [97] 1 {} s' = .ok (false, s'') ∧
    s'.freeMap = [true, true, true, true, true, true, false, false] ∧
    s''.freeMap = [true, true, true, true, true, true, false, true] ∧ ¬ Unchanged s' s'' := by
  have heval : (do
      let s ← filesysFormat 8 (fun _ => false) 16 (fun _ _ => 0)
      let x ← filesysCreate [97] 1 {} s
      let y ← filesysCreate [97] 1 {} x.2
      .ok (x.1, y.1, x.2.freeMap, y.2.freeMap) : Except Assertion _).toOption =
        some (true, false, [true, true, true, true, true, true, false, false],
          [true, true, true, true, true, true, false, true]) := by
    decide +kernel
  obtain ⟨s, hformat, hrun⟩ := bind_eq_ok.mp (eq_ok_of_toOption heval)
  obtain ⟨⟨ok, s'⟩, hfirst, hrun⟩ := bind_eq_ok.mp hrun
  obtain ⟨⟨ok', s''⟩, hsecond, hrun⟩ := bind_eq_ok.mp hrun
  simp only [Except.ok.injEq, Prod.mk.injEq] at hrun
  obtain ⟨rfl, rfl, hmap, hmap'⟩ := hrun
  refine ⟨s, s', s'', hformat, hfirst, hsecond, hmap, hmap', fun hsame => ?_⟩
  have heq := hsame.freeMap
  rw [hmap, hmap'] at heq
  exact absurd heq (by decide)

end Pintos.Filesys
