import Pintos.Lib.Simulation
import Pintos.Filesys.Removing

/-!
# A directory as a finite map

A directory is a finite map from names to sectors, with room for so many. The calls on it are answered
as those on the map are, in any order (`directory_map`). A sector that is added may be anything, as
long as the calls return: `dir_remove` opens the inode there, and when it gives that back the free map
is written, which has no sector of the directory's.

`dir_add` asks its caller for a sector that has the inode of the file. For callers who keep to that
(`dirUse`) every call returns, and `dir_remove` removes each name that is there.
-/

namespace Pintos.Filesys

open Pintos.Lib

variable {s s₁ s' : Files} {r d : InodeRef} {f : FileRef} {l : List FileRef}
  {extra : List InodeRef} {name : List UInt8} {ok : Bool} {c x : SectorNo}

/-! ## What calls on a directory leave alone -/

/-- The inodes that are there stay, and so does how large the free map is. -/
structure Steady (s s' : Files) : Prop extends Kept s s' where
  denyWriteCnt : ∀ r < s.nextInode, (s'.inode r).denyWriteCnt = (s.inode r).denyWriteCnt
  freeMap : s'.freeMap.length = s.freeMap.length
  pad : s'.pad = s.pad

/-- What two steps leave steady they leave steady together. -/
theorem Steady.trans (h : Steady s s₁) (h' : Steady s₁ s') : Steady s s' where
  toKept := h.toKept.trans h'.toKept
  denyWriteCnt := fun r hr =>
    (h'.denyWriteCnt r (Nat.lt_of_lt_of_le hr h.nextInode)).trans (h.denyWriteCnt r hr)
  freeMap := h'.freeMap.trans h.freeMap
  pad := h'.pad.trans h.pad

/-- A step that touches no table leaves everything steady. -/
theorem SameTables.steady (h : SameTables s s') (hmap : s'.freeMap.length = s.freeMap.length)
    (hpad : s'.pad = s.pad) : Steady s s' where
  toKept := h.kept
  denyWriteCnt := fun r _ => by rw [h.inode]
  freeMap := hmap
  pad := hpad

/-- The count of openers or the mark of an inode changes. -/
theorem Steady.of_update {ino : Inode} (hino : s'.inode = Function.update s.inode r ino)
    (hk : Kept s s') (hdeny : ino.denyWriteCnt = (s.inode r).denyWriteCnt)
    (hmap : s'.freeMap = s.freeMap) (hpad : s'.pad = s.pad) : Steady s s' where
  toKept := hk
  denyWriteCnt := by
    intro r' _
    rw [hino]
    by_cases heq : r' = r
    · rw [heq, Function.update_self]
      exact hdeny
    · rw [Function.update_of_ne heq]
  freeMap := by rw [hmap]
  pad := hpad

/-- The file of the free map can still be written. -/
theorem MapFile.of_steady (h : MapFile s f r) (hs : Steady s s') (hr : r < s.nextInode)
    (hd : s'.device freeMapSector = s.device freeMapSector) : MapFile s' f r := by
  obtain ⟨hsector, hstart, hlength⟩ := hs.disk r hr
  constructor
  case freeMapFile => rw [hs.freeMapFile, h.freeMapFile]
  case file => rw [hs.file, h.file]
  case sector => rw [hsector, h.sector]
  case agrees =>
    have hagrees := h.agrees
    unfold Files.Agrees at hagrees ⊢
    rw [hsector, hstart, hlength, loaded_congr (h.sector.symm ▸ hd)]
    exact hagrees
  case length =>
    rw [hlength, h.length, Files.mapBytes, Files.mapBytes, length_bitmapBytes, length_bitmapBytes,
      List.length_append, List.length_append, hs.freeMap, hs.pad]
  case denyWriteCnt => rw [hs.denyWriteCnt r hr, h.denyWriteCnt]
  case apart => exact fun hin => h.apart ((hasSector_of_eq hstart hlength).mp hin)

/-- `inode_open` with memory for an inode. -/
theorem inodeOpen_steady (h : Balanced s l extra) (c : SectorNo) :
    ∃ r s', inodeOpen c true s = (some r, s') ∧ (s'.inode r).sector = c ∧ Steady s s' ∧
      s'.device = s.device := by
  cases hx : inodeOpen c true s with
  | mk o s' =>
    obtain ⟨-, hk⟩ := h.of_inodeOpen hx
    unfold inodeOpen at hx
    split at hx
    next r hfind =>
      cases hx
      have hsector : (s.inode r).sector = c :=
        beq_iff_eq.mp (List.find?_some (p := fun r => (s.inode r).sector == c) hfind)
      refine ⟨r, _, rfl, ?_, .of_update rfl hk rfl rfl rfl, rfl⟩
      show (Function.update s.inode r _ r).sector = c
      rw [Function.update_self]
      exact hsector
    next =>
      rw [if_pos rfl] at hx
      cases hx
      refine ⟨s.nextInode, _, rfl, ?_, ⟨hk, fun r hr => ?_, rfl, rfl⟩, rfl⟩
      · show (Function.update s.inode s.nextInode _ s.nextInode).sector = c
        rw [Function.update_self]
      · show (Function.update s.inode s.nextInode _ r).denyWriteCnt = _
        rw [Function.update_of_ne (Nat.ne_of_lt hr)]

/-- To mark an inode removed is such a step. -/
theorem inodeRemove_steady (r : InodeRef) (s : Files) : Steady s (inodeRemove r s) :=
  .of_update rfl ⟨.of_update rfl rfl rfl rfl rfl, rfl, rfl, rfl⟩ rfl rfl rfl

/-- `free_map_release` writes the free map. -/
theorem freeMapRelease_remapped {cnt : Nat} (hready : MapReady s)
    (hx : freeMapRelease c cnt s = .ok s') :
    Remapped s s' (setMultiple s.freeMap c cnt false) := by
  unfold freeMapRelease at hx
  split at hx
  · cases hx
    have hlen := length_setMultiple s.freeMap c cnt false
    exact (bitmapWrite_remapped (hready.of_freeMap hlen)).1.of_freeMap hlen
  · cases hx

/-- Giving sectors back leaves the files and the directory steady. -/
theorem Remapped.steady {m : List Bool} (h : Remapped s s' m) : Steady s s' := by
  have heq := h.eq
  have hsame : SameTables s s' := by
    rw [heq]
    exact ⟨rfl, rfl, rfl, rfl, rfl, rfl⟩
  refine hsame.steady ?_ (by rw [heq])
  rw [heq]
  exact h.length

/-- Dropping an inode nobody has open leaves everything steady. -/
theorem dropInode_steady (r : InodeRef) (s : Files) : Steady s (s.dropInode r) :=
  .of_update rfl ⟨.of_update rfl rfl rfl rfl rfl, rfl, rfl, rfl⟩ rfl rfl rfl

/-- `inode_close` writes nothing but the free map. -/
theorem inodeClose_steady (hm : MapFile s f d) (hd : d < s.nextInode)
    (hx : inodeClose (some r) s = .ok s') : Steady s s' ∧ MapOnly s.device s'.device := by
  by_cases hlast : (s.inode r).openCnt - 1 = 0
  · rw [inodeClose_last hlast] at hx
    have h₁ := dropInode_steady r s
    have hm₁ : MapFile (s.dropInode r) f d := hm.of_steady h₁ hd rfl
    split at hx
    · obtain ⟨s₂, h₂, hx⟩ := bind_eq_ok.mp hx
      have hre₂ := freeMapRelease_remapped hm₁.ready h₂
      have hm₂ := hm₁.of_remapped hre₂
      have hre₃ := freeMapRelease_remapped hm₂.ready hx
      refine ⟨(h₁.trans hre₂.steady).trans hre₃.steady, fun x hx => ?_⟩
      have hx₂ := hx
      have hinode : loaded s₂.device freeMapSector = loaded s.device freeMapSector :=
        hm₁.loaded_eq hre₂.mapOnly
      rw [← hinode] at hx₂
      exact (hre₃.mapOnly x hx₂).trans (hre₂.mapOnly x hx)
    · cases hx
      exact ⟨h₁, .refl _⟩
  · have hk := inodeClose_kept hx
    unfold inodeClose at hx
    dsimp only at hx
    rw [if_neg hlast] at hx
    cases hx
    exact ⟨.of_update rfl hk rfl rfl rfl, .refl _⟩

/-! ## A directory that is open -/

/-- The directory is held open, can be written and has no sector of the free map's. -/
structure DirReady (s : Files) (d : InodeRef) : Prop where
  balanced : ∃ l extra, Balanced s l (d :: extra)
  mapFile : ∃ f r, MapFile s f r ∧ r < s.nextInode
  denyWriteCnt : (s.inode d).denyWriteCnt = 0
  length : (s.inode d).length < 2 ^ 31
  apart : ∀ x, (s.inode d).HasSector x →
    x ≠ freeMapSector ∧ ¬ (loaded s.device freeMapSector).HasSector x

/-- An open directory is one of the inodes there have been. -/
theorem DirReady.lt (h : DirReady s d) : d < s.nextInode := by
  obtain ⟨l, extra, hb⟩ := h.balanced
  exact hb.counted.below d ((hb.counted.listed d).mpr List.mem_cons_self)

/-- The directory stays as it is on the device if its data does. -/
theorem DirReady.of_steady (h : DirReady s d) (hs : Steady s s')
    (hb : Balanced s' l (d :: extra)) (hmap : s'.device freeMapSector = s.device freeMapSector) :
    DirReady s' d ∧ ∀ device, slots (s'.inode d) device = slots (s.inode d) device := by
  obtain ⟨-, hstart, hlength⟩ := hs.disk d h.lt
  obtain ⟨f, r, hm, hr⟩ := h.mapFile
  refine ⟨⟨⟨l, extra, hb⟩, ⟨f, r, hm.of_steady hs hr hmap, Nat.lt_of_lt_of_le hr hs.nextInode⟩,
    ?_, ?_, fun x hx => ?_⟩, fun device => slots_of_eq hstart hlength device⟩
  · rw [hs.denyWriteCnt d h.lt, h.denyWriteCnt]
  · rw [hlength]
    exact h.length
  · rw [loaded_congr hmap]
    exact h.apart x ((hasSector_of_eq hstart hlength).mp hx)

/-- Writing to it. -/
theorem DirReady.data_eq (h : DirReady s d) {device : SectorNo → Sector}
    (hother : ∀ x, ¬ (s.inode d).HasSector x → device x = s.device x) :
    device freeMapSector = s.device freeMapSector :=
  hother _ fun hin => (h.apart _ hin).1 rfl

/-- Writing the free map. -/
theorem DirReady.slots_mapOnly (h : DirReady s d) {device : SectorNo → Sector}
    (hd : MapOnly s.device device) :
    device freeMapSector = s.device freeMapSector ∧
      slots (s.inode d) device = slots (s.inode d) s.device := by
  obtain ⟨f, r, hm, -⟩ := h.mapFile
  refine ⟨hd _ fun hin => hm.apart ?_, slots_congr h.length fun x hx => hd x (h.apart x hx).2⟩
  obtain ⟨hstart, hlength⟩ := hm.agrees
  rw [hm.sector] at hstart hlength
  exact (hasSector_of_eq hstart hlength).mpr hin

/-- `dir_add` puts a new entry in the first free slot, if there is one and the name is new. -/
theorem DirReady.of_dirAdd (h : DirReady s d) (hc : c < 2 ^ 32) (hname : 0 ∉ name)
    (hx : dirAdd d name c s = (ok, s')) :
    DirReady s' d ∧ (ok = true ↔ CanAdd (slots (s.inode d) s.device) name) ∧
    slots (s'.inode d) s'.device = if ok then
      (slots (s.inode d) s.device).set
        ((slots (s.inode d) s.device).findIdx fun e => !e.inUse) (newEntry name c)
    else slots (s.inode d) s.device := by
  obtain ⟨hok, heq, hother, hslots⟩ := dirAdd_eq h.denyWriteCnt hc hname hx
  have hsame : SameTables s s' := by
    rw [heq]
    exact ⟨rfl, rfl, rfl, rfl, rfl, rfl⟩
  have hsteady : Steady s s' := hsame.steady (by rw [heq]) (by rw [heq])
  obtain ⟨l, extra, hb⟩ := h.balanced
  obtain ⟨h', hd⟩ := h.of_steady hsteady (hb.of_same hsame)
    (h.data_eq fun x hx => hother x h.length hx)
  refine ⟨h', hok, ?_⟩
  rw [hd]
  exact hslots

/-- `dir_lookup` finds what the map has, and changes nothing in the directory. -/
theorem DirReady.of_dirLookup (h : DirReady s d) (name : List UInt8) :
    ∃ o s', dirLookup d name {} s = (o, s') ∧ DirReady s' d ∧
    slots (s'.inode d) s'.device = slots (s.inode d) s.device ∧
    o.map (fun r => (s'.inode r).sector) = (dirView.map (slots (s.inode d) s.device)).lookup name := by
  obtain ⟨l, extra, hb⟩ := h.balanced
  rw [View.lookup_map (hasName_iff name)]
  unfold dirLookup
  rw [lookup_eq]
  cases (slots (s.inode d) s.device).find? (hasName name) with
  | none => exact ⟨none, s, rfl, h, rfl, rfl⟩
  | some e =>
    obtain ⟨r, s', hx, hsector, hsteady, hdevice⟩ := inodeOpen_steady hb e.inodeSector
    obtain ⟨hb', -⟩ := hb.of_inodeOpen hx
    obtain ⟨h', hd⟩ := h.of_steady hsteady (hb'.perm (List.Perm.swap d r extra)) (by rw [hdevice])
    refine ⟨some r, s', hx, h', ?_, ?_⟩
    · rw [hd, hdevice]
    · show some (s'.inode r).sector = some e.inodeSector
      rw [hsector]

/-- `dir_remove`, if the inode can be given back. -/
theorem DirReady.of_dirRemove (h : DirReady s d) (hx : dirRemove d name {} s = .ok (ok, s')) :
    DirReady s' d ∧
    ((ok = false ∧ name ∉ dirView.map (slots (s.inode d) s.device) ∧ s' = s) ∨
    (ok = true ∧ ∃ k e, (slots (s.inode d) s.device)[k]? = some e ∧ e.inUse = true ∧ e.name = name ∧
      slots (s'.inode d) s'.device =
        (slots (s.inode d) s.device).set k { e with inUse := false })) := by
  obtain ⟨l, extra, hb⟩ := h.balanced
  unfold dirRemove at hx
  split at hx
  next hnone =>
    cases hx
    refine ⟨h, .inl ⟨rfl, fun hmem => ?_, rfl⟩⟩
    have hsome := (lookup_isSome d name s).mpr hmem
    rw [hnone] at hsome
    exact Bool.false_ne_true hsome
  next e ofs hsome =>
    obtain ⟨hk, -, hused, hname⟩ := lookup_eq_some hsome
    obtain ⟨r, s₁, hopen, -, hsteady₁, hdevice₁⟩ := inodeOpen_steady hb e.inodeSector
    obtain ⟨hb₁, -⟩ := hb.of_inodeOpen hopen
    obtain ⟨h₁, hd₁⟩ := h.of_steady hsteady₁ (hb₁.perm (List.Perm.swap d r extra))
      (by rw [hdevice₁])
    obtain ⟨-, hstart₁, hlength₁⟩ := hsteady₁.disk d h.lt
    obtain ⟨hwritten, hslots⟩ := dirRemove_write hsome h₁.denyWriteCnt hstart₁ hlength₁ hdevice₁
    dsimp only at hx
    rw [hopen] at hx
    dsimp only at hx
    rw [if_pos hwritten] at hx
    obtain ⟨s₃, hclose, hx⟩ := bind_eq_ok.mp hx
    cases hx
    -- the entry, the mark, the inode given back
    have heq := inodeWriteAt_eq d (fun j => ((inodeReadAt d 20 ofs s).set 19 0).getD j 0) 20 ofs s₁
    have hother : ∀ x, ¬ (s₁.inode d).HasSector x → (inodeWriteAt d
        (fun j => ((inodeReadAt d 20 ofs s).set 19 0).getD j 0) 20 ofs s₁).2.device x = s₁.device x :=
      fun x hx => inodeWriteAt_other h₁.length (by rw [(lookup_eq_some hsome).2.1]; omega) hx
    generalize (inodeWriteAt d (fun j => ((inodeReadAt d 20 ofs s).set 19 0).getD j 0) 20 ofs s₁).2 =
      s₂ at hslots heq hother hclose
    have hsame₂ : SameTables s₁ s₂ := by
      rw [heq]
      exact ⟨rfl, rfl, rfl, rfl, rfl, rfl⟩
    have hb₂ := hb₁.of_same hsame₂
    obtain ⟨h₂, hd₂⟩ := h₁.of_steady (hsame₂.steady (by rw [heq]) (by rw [heq]))
      (hb₂.perm (List.Perm.swap d r extra)) (h₁.data_eq hother)
    have hb₂' := (hb₂.of_inodeRemove r).1
    obtain ⟨h₂', hd₂'⟩ := h₂.of_steady (inodeRemove_steady r s₂)
      (hb₂'.perm (List.Perm.swap d r extra)) rfl
    obtain ⟨f, r₀, hm, hr₀⟩ := h₂'.mapFile
    obtain ⟨hsteady₃, honly⟩ := inodeClose_steady hm hr₀ hclose
    obtain ⟨hmapInode, hslots₃⟩ := h₂'.slots_mapOnly honly
    obtain ⟨hb₃, -⟩ := Balanced.of_inodeClose hb₂' hclose
    obtain ⟨h₃, hd₃⟩ := h₂'.of_steady hsteady₃ hb₃ hmapInode
    refine ⟨h₃, .inr ⟨rfl, _, e, hk, hused, hname, ?_⟩⟩
    rw [hd₃, hslots₃, hd₂', hd₂, hd₁]
    exact hslots

/-! ## The map -/

/-- The calls on a directory. A sector is a `block_sector_t`. -/
inductive DirOp where
  | add (name : CString) (inodeSector : UInt32)
  | remove (name : CString)
  | lookup (name : CString)
  /-- `dir_readdir` from the start until it returns false. -/
  | readdir

inductive DirAnswer where
  | success (ok : Bool)
  /-- The sector of the inode that has been opened. -/
  | inode (sector : Option SectorNo)
  | names (l : List (List UInt8))
  deriving DecidableEq, Repr

/-- A call with memory for an inode. -/
def dirStep (d : InodeRef) : DirOp → Files → Except Assertion (DirAnswer × Files)
  | .add name inodeSector, s =>
    let (ok, s) := dirAdd d name inodeSector.toNat s
    .ok (.success ok, s)
  | .remove name, s => do
    let (ok, s) ← dirRemove d name {} s
    .ok (.success ok, s)
  | .lookup name, s =>
    let (o, s) := dirLookup d name {} s
    .ok (.inode (o.map fun r => (s.inode r).sector), s)
  | .readdir, s => .ok (.names (readdirAll d s (entryCount d s) 0), s)

/-- What the calls do to a map with room for `cap` names. -/
inductive MapStep (cap : Nat) (m : NameMap) : DirOp → DirAnswer → NameMap → Prop
  | added {name : CString} {sector : UInt32} :
      ValidName name → name.1 ∉ m → m.keys.card < cap →
      MapStep cap m (.add name sector) (.success true) (m.insert name sector.toNat)
  | refused {name : CString} {sector : UInt32} :
      ¬ (ValidName name ∧ name.1 ∉ m ∧ m.keys.card < cap) →
      MapStep cap m (.add name sector) (.success false) m
  | removed {name : CString} : name.1 ∈ m →
      MapStep cap m (.remove name) (.success true) (m.erase name)
  | missing {name : CString} : name.1 ∉ m → MapStep cap m (.remove name) (.success false) m
  | lookup {name : CString} : MapStep cap m (.lookup name) (.inode (m.lookup name.1)) m
  | readdir {l : List (List UInt8)} : l.Nodup → (∀ name, name ∈ l ↔ name ∈ m) →
      MapStep cap m .readdir (.names l) m

/-- The slots in use are the map, each name once. -/
structure DirHolds (es : List DirEntry) (cap : Nat) (m : NameMap) : Prop where
  size : es.length = cap
  distinct : dirView.Distinct es
  map : dirView.map es = m
  valid : ∀ name ∈ m, ValidName name

variable {es : List DirEntry} {cap : Nat} {m : NameMap}

/-- There is room in the slots as long as there is room in the map. -/
theorem DirHolds.canAdd (h : DirHolds es cap m) :
    CanAdd es name ↔ ValidName name ∧ name ∉ m ∧ m.keys.card < cap := by
  have hroom := h.distinct.findIdx_lt
  rw [h.map, h.size] at hroom
  unfold CanAdd
  rw [h.map, h.size]
  exact and_congr_right fun _ => and_congr_right fun _ => hroom

/-- A new entry is a new name of the map. -/
theorem DirHolds.add (h : DirHolds es cap m) (hcan : CanAdd es name) (c : SectorNo) :
    DirHolds (es.set (es.findIdx fun e => !e.inUse) (newEntry name c)) cap (m.insert name c) := by
  obtain ⟨hvalid, hnew, hlt⟩ := hcan
  have hk := List.getElem?_eq_getElem hlt
  have hfree := List.findIdx_getElem (w := hlt)
  rw [Bool.not_eq_true'] at hfree
  have hout : dirView.key (newEntry name c) ∉ dirView.keys es := mt View.mem_map.mpr hnew
  constructor
  case size => rw [List.length_set, h.size]
  case distinct => exact h.distinct.set_used hk hfree rfl hout
  case map =>
    rw [View.map_set_used hk hfree rfl hout, h.map]
    rfl
  case valid =>
    intro a ha
    rcases Finmap.mem_insert.mp ha with rfl | ha
    · exact hvalid
    · exact h.valid a ha

/-- An entry out of use is a name less. -/
theorem DirHolds.remove {k : Nat} {e : DirEntry} (h : DirHolds es cap m) (hk : es[k]? = some e)
    (hused : e.inUse = true) :
    e.name ∈ m ∧ DirHolds (es.set k { e with inUse := false }) cap (m.erase e.name) := by
  refine ⟨?_, ?_, ?_, ?_, ?_⟩
  · rw [← h.map, View.mem_map, View.mem_keys]
    exact ⟨e, List.mem_of_getElem? hk, hused, rfl⟩
  · rw [List.length_set, h.size]
  · exact h.distinct.set_unused hk hused rfl
  · rw [h.distinct.map_set_unused hk hused rfl, h.map]
    rfl
  · exact fun a ha => h.valid a (Finmap.mem_erase.mp ha).2

/-- The directory holds the map. -/
structure DirMap (d : InodeRef) (cap : Nat) (s : Files) (m : NameMap) : Prop where
  ready : DirReady s d
  holds : DirHolds (slots (s.inode d) s.device) cap m

/-- A call does to the slots what it does to the map. -/
theorem DirMap.of_dirStep {op : DirOp} {answer : DirAnswer} (h : DirMap d cap s m)
    (hx : dirStep d op s = .ok (answer, s')) : ∃ m', MapStep cap m op answer m' ∧ DirMap d cap s' m' := by
  cases op with
  | add name sector =>
    cases hadd : dirAdd d name sector.toNat s with
    | mk ok s₁ =>
      dsimp only [dirStep] at hx
      rw [hadd] at hx
      cases hx
      obtain ⟨hready, hok, hslots⟩ := h.ready.of_dirAdd sector.toNat_lt name.2 hadd
      cases ok with
      | true =>
        have hcan := hok.mp rfl
        obtain ⟨hvalid, hnew, hroom⟩ := h.holds.canAdd.mp hcan
        refine ⟨_, .added hvalid hnew hroom, hready, ?_⟩
        rw [hslots]
        exact h.holds.add hcan sector.toNat
      | false =>
        refine ⟨m, .refused fun hcan => ?_, hready, ?_⟩
        · exact Bool.false_ne_true (hok.mpr (h.holds.canAdd.mpr hcan))
        · rw [hslots]
          exact h.holds
  | remove name =>
    obtain ⟨⟨ok, s₁⟩, hrem, hx⟩ := bind_eq_ok.mp hx
    cases hx
    obtain ⟨hready, ⟨rfl, hno, rfl⟩ | ⟨rfl, k, e, hk, hused, hname, hslots⟩⟩ :=
      h.ready.of_dirRemove hrem
    · rw [h.holds.map] at hno
      exact ⟨m, .missing hno, h⟩
    · obtain ⟨hmem, hholds⟩ := h.holds.remove hk hused
      refine ⟨m.erase name.1, .removed (hname ▸ hmem), hready, ?_⟩
      rw [hslots, ← hname]
      exact hholds
  | lookup name =>
    obtain ⟨o, s₁, hlook, hready, hslots, hsector⟩ := h.ready.of_dirLookup name.1
    dsimp only [dirStep] at hx
    rw [hlook] at hx
    cases hx
    dsimp only
    rw [hsector, h.holds.map]
    exact ⟨m, .lookup, hready, hslots ▸ h.holds⟩
  | readdir =>
    cases hx
    refine ⟨m, .readdir ?_ fun a => ?_, h⟩
    · rw [readdirAll_zero]
      exact h.holds.distinct
    · rw [readdirAll_zero, ← h.holds.map, View.mem_map]

/-- Only `free_map_release` can fail, for the inode that is removed. -/
theorem dirStep_avoids {e : Assertion} (he : .freeMap ≠ e) (op : DirOp) :
    Avoids e (dirStep d op s) := by
  cases op with
  | add name sector => exact .of_ok
  | remove name => exact .bind (dirRemove_avoids he d name.1 {} s) fun _ _ => .of_ok
  | lookup name => exact .of_ok
  | readdir => exact .of_ok

/-! ## Callers -/

/-- The calls of `filesys_create` before its `dir_add`: an inode in a sector of its own, which is given
back if there is no room for the data. -/
def newInode (length : Int) (s : Files) : Except Assertion (Option SectorNo × Files) :=
  match freeMapAllocate 1 s with
  | (none, s) => .ok (none, s)
  | (some c, s) => do
    let (ok, s) ← inodeCreate c length s
    if ok then .ok (some c, s) else do
      let s ← freeMapRelease c 1 s
      .ok (none, s)

/-- What callers do: they create inodes, call the directory, and close the inodes that `dir_lookup`
has opened for them. -/
inductive DirEvent where
  | create (length : Fin (2 ^ 31))
  | call (op : DirOp)
  | close (r : InodeRef)

inductive DirReply where
  | created (sector : Option SectorNo)
  | answered (answer : DirAnswer)
  | closed
  deriving DecidableEq, Repr

/-- The file system, the inodes that wait for a name and those that callers have open. -/
structure DirUse where
  fs : Files
  fresh : List SectorNo
  opened : List InodeRef

/-- An event. Callers give `dir_add` no sector but that of an inode which waits for a name. -/
def dirUse (d : InodeRef) : DirEvent → DirUse → Except Assertion (DirReply × DirUse)
  | .create length, st => do
    let (o, s) ← newInode (length : Nat) st.fs
    .ok (.created o, { st with fs := s, fresh := o.toList ++ st.fresh })
  | .call (.add name inodeSector), st =>
    if inodeSector.toNat ∈ st.fresh then
      let (ok, s) := dirAdd d name inodeSector.toNat st.fs
      .ok (.answered (.success ok), { st with
        fs := s
        fresh := if ok then st.fresh.erase inodeSector.toNat else st.fresh })
    else .error .notEnabled
  | .call (.lookup name), st =>
    let (o, s) := dirLookup d name {} st.fs
    .ok (.answered (.inode (o.map fun r => (s.inode r).sector)), { st with
      fs := s
      opened := o.toList ++ st.opened })
  | .call op, st => do
    let (answer, s) ← dirStep d op st.fs
    .ok (.answered answer, { st with fs := s })
  | .close r, st =>
    if r ∈ st.opened then do
      let s ← inodeClose (some r) st.fs
      .ok (.closed, { st with fs := s, opened := st.opened.erase r })
    else .error .notEnabled

/-- What an event does to the map. -/
inductive UseStep (cap : Nat) (m : NameMap) : DirEvent → DirReply → NameMap → Prop
  | created {length : Fin (2 ^ 31)} {o : Option SectorNo} :
      UseStep cap m (.create length) (.created o) m
  | called {op : DirOp} {answer : DirAnswer} {m' : NameMap} : MapStep cap m op answer m' →
      UseStep cap m (.call op) (.answered answer) m'
  | closed {r : InodeRef} : UseStep cap m (.close r) .closed m

/-- The root directory is open, and holds the map. -/
structure RootMap (d : InodeRef) (cap : Nat) (st : DirUse) (m : NameMap) : Prop where
  sound : ∃ l, Sound st.fs l (d :: st.opened) st.fresh
  sector : (st.fs.inode d).sector = rootDirSector
  holds : DirHolds (rootSlots st.fs.device) cap m

/-- An event goes through as it does on the map, or a caller has broken its word. -/
def Serves (d : InodeRef) (cap : Nat) (st : DirUse) (m : NameMap) (ev : DirEvent) : Prop :=
  (∃ reply st', dirUse d ev st = .ok (reply, st') ∧
    ∃ m', UseStep cap m ev reply m' ∧ RootMap d cap st' m') ∨ dirUse d ev st = .error .notEnabled

variable {st : DirUse}

/-- An inode more, or none. -/
theorem Sound.of_newInode {fresh : List SectorNo} {size : Int} (h : Sound s l extra fresh)
    (hsize : 0 ≤ size) (hlen : size < 2 ^ 31) :
    ∃ o s', newInode size s = .ok (o, s') ∧ Sound s' l extra (o.toList ++ fresh) ∧
      s'.inode = s.inode ∧ rootSlots s'.device = rootSlots s.device := by
  unfold newInode
  cases halloc : freeMapAllocate 1 s with
  | mk o s₁ =>
    cases o with
    | none =>
      rw [freeMapAllocate_none h.ready halloc]
      exact ⟨none, s, rfl, h, rfl, rfl⟩
    | some c =>
      obtain ⟨h₁, hlive₁, -, hres, hre₁⟩ := h.of_reserve halloc
      have hroot₁ := h.rootSlots_mapOnly hre₁.mapOnly
      have hino₁ : s₁.inode = s.inode := by rw [hre₁.eq]
      rw [← hlive₁] at hres
      obtain ⟨ok, s₂, hcreate, ⟨rfl, rfl, -⟩ | ⟨rfl, hcr, -⟩⟩ := h₁.of_inodeCreate hres hsize hlen
      · -- no room for the data, and the sector is given back
        obtain ⟨s₃, hrel, h₃, -, hre₃⟩ := h₁.of_release hres
        refine ⟨none, s₃, ?_, h₃, ?_, (h₁.rootSlots_mapOnly hre₃.mapOnly).trans hroot₁⟩
        · dsimp only
          rw [hcreate, bind_ok]
          dsimp only
          rw [if_neg Bool.false_ne_true, hrel, bind_ok]
        · rw [hre₃.eq]
          exact hino₁
      · refine ⟨some c, s₂, ?_, h₁.of_created hres hcr, ?_,
          (h₁.rootSlots_created hres hcr).trans hroot₁⟩
        · dsimp only
          rw [hcreate, bind_ok]
          rfl
        · rw [hcr.eq]
          exact hino₁

theorem RootMap.opened (h : RootMap d cap st m) : d ∈ st.fs.openInodes := by
  obtain ⟨l, hs⟩ := h.sound
  exact (hs.balanced.counted.listed d).mpr List.mem_cons_self

/-- A new file on disk leaves the entries of the directory alone. -/
theorem RootMap.of_create (h : RootMap d cap st m) (length : Fin (2 ^ 31)) :
    Serves d cap st m (.create length) := by
  obtain ⟨l, hs⟩ := h.sound
  obtain ⟨o, s', hx, hs', hino, hroot⟩ := hs.of_newInode
    (Int.natCast_nonneg (length : Nat)) (by have := length.isLt; omega)
  refine .inl ⟨.created o, { st with fs := s', fresh := o.toList ++ st.fresh }, ?_, m, .created,
    ⟨l, hs'⟩, ?_, ?_⟩
  · show newInode _ _ >>= _ = _
    rw [hx, bind_ok]
  · rw [hino]
    exact h.sector
  · rw [hroot]
    exact h.holds

/-- The root directory has as many slots as before. -/
theorem length_rootSlots {device device' : SectorNo → Sector}
    (h : device' rootDirSector = device rootDirSector) :
    (rootSlots device').length = (rootSlots device).length := by
  unfold rootSlots
  rw [length_slots, length_slots, loaded_congr h]

/-- `dir_add` answers and changes as the map does. -/
theorem RootMap.of_add (h : RootMap d cap st m) (name : CString) (c : UInt32) :
    Serves d cap st m (.call (.add name c)) := by
  obtain ⟨l, hs⟩ := h.sound
  by_cases hc : c.toNat ∈ st.fresh
  · have hs₁ : Sound st.fs l (d :: st.opened) (c.toNat :: st.fresh.erase c.toNat) :=
      hs.perm_fresh (List.perm_cons_erase hc)
    cases hadd : dirAdd d name c.toNat st.fs with
    | mk ok s' =>
      obtain ⟨hok, heq, hdata, htrue, hfalse⟩ := hs₁.of_dirAdd h.opened h.sector name.2 hadd
      have hcall : dirUse d (.call (.add name c)) st = .ok (.answered (.success ok), { st with
          fs := s'
          fresh := if ok then st.fresh.erase c.toNat else st.fresh }) := by
        unfold dirUse
        dsimp only
        rw [if_pos hc, hadd]
      have hsector : (s'.inode d).sector = rootDirSector := by
        rw [heq]
        exact h.sector
      refine .inl ⟨_, _, hcall, ?_⟩
      cases ok with
      | true =>
        obtain ⟨hs', -, hmap⟩ := htrue rfl
        obtain ⟨hvalid, hnew, hroom⟩ := h.holds.canAdd.mp (hok.mp rfl)
        refine ⟨_, .called (.added hvalid hnew hroom), ⟨l, hs'⟩, hsector, ?_⟩
        refine ⟨?_, hs'.names.names, ?_, fun a ha => ?_⟩
        · have hinode := hs₁.laid.inode_eq root_live hdata root_live
          exact (length_rootSlots hinode).trans h.holds.size
        · rw [hmap, h.holds.map]
        · rcases Finmap.mem_insert.mp ha with rfl | ha
          · exact hvalid
          · exact h.holds.valid a ha
      | false =>
        obtain ⟨hs', hroot⟩ := hfalse rfl
        refine ⟨m, .called (.refused fun hcan => ?_),
          ⟨l, hs'.perm_fresh (List.perm_cons_erase hc).symm⟩, hsector, ?_⟩
        · exact Bool.false_ne_true (hok.mpr (h.holds.canAdd.mpr hcan))
        · rw [hroot]
          exact h.holds
  · refine .inr ?_
    unfold dirUse
    dsimp only
    rw [if_neg hc]

/-- `dir_remove` answers and changes as the map does. -/
theorem RootMap.of_remove (h : RootMap d cap st m) (name : CString) :
    Serves d cap st m (.call (.remove name)) := by
  obtain ⟨l, hs⟩ := h.sound
  obtain ⟨ok, s', hrem, hs', -, hun⟩ := hs.of_dirRemove h.opened h.sector name.1 {}
  have hkept := (hs.balanced.of_dirRemove hrem).2
  have hsector : (s'.inode d).sector = rootDirSector := by
    rw [(hkept.disk d (hs.balanced.counted.below d h.opened)).1]
    exact h.sector
  have hsize : (rootSlots s'.device).length = cap :=
    (length_rootSlots (hun.device _ (hs.inode_elsewhere root_live))).trans h.holds.size
  have hcall : dirUse d (.call (.remove name)) st =
      .ok (.answered (.success ok), { st with fs := s' }) := by
    show (dirStep d (.remove name) st.fs >>= fun y => _) = _
    show ((dirRemove d name.1 {} st.fs >>= fun y => _) >>= fun y => _) = _
    rw [hrem]
    rfl
  refine .inl ⟨_, _, hcall, ?_⟩
  have hmap : rootNames st.fs.device = m := h.holds.map
  cases ok with
  | true =>
    obtain ⟨hmem, herase⟩ := hun.removed rfl
    rw [hmap] at hmem herase
    exact ⟨m.erase name.1, .called (.removed hmem), ⟨l, hs'⟩, hsector, hsize, hs'.names.names,
      herase, fun a ha => h.holds.valid a (Finmap.mem_erase.mp ha).2⟩
  | false =>
    obtain ⟨hsame, hmissing⟩ := hun.refused rfl
    rw [hmap] at hsame hmissing
    exact ⟨m, .called (.missing (hmissing rfl)), ⟨l, hs'⟩, hsector, hsize, hs'.names.names, hsame,
      h.holds.valid⟩

/-- `dir_lookup` answers what the map has. -/
theorem RootMap.of_lookup (h : RootMap d cap st m) (name : CString) :
    Serves d cap st m (.call (.lookup name)) := by
  obtain ⟨l, hs⟩ := h.sound
  cases hlook : dirLookup d name {} st.fs with
  | mk o s' =>
    obtain ⟨hs', -, hdisk, hsector, hfound, hnone⟩ := hs.of_dirLookup h.opened h.sector hlook
    have hcall : dirUse d (.call (.lookup name)) st =
        .ok (.answered (.inode (o.map fun r => (s'.inode r).sector)), { st with
          fs := s'
          opened := o.toList ++ st.opened }) := by
      unfold dirUse
      dsimp only
      rw [hlook]
    have hanswer : (o.map fun r => (s'.inode r).sector) = m.lookup name.1 := by
      rw [← h.holds.map]
      cases o with
      | none => exact (hnone rfl rfl).symm
      | some r => exact ((hfound r rfl).2).symm
    refine .inl ⟨_, _, hcall, m, ?_, ⟨l, ?_⟩, hsector, ?_⟩
    · rw [hanswer]
      exact .called .lookup
    · exact hs'.perm List.perm_middle
    · rw [hdisk.device]
      exact h.holds

/-- `dir_readdir` goes through the names, and changes none. -/
theorem RootMap.of_readdir (h : RootMap d cap st m) : Serves d cap st m (.call .readdir) := by
  obtain ⟨l, hs⟩ := h.sound
  have hslots := (hs.root h.opened h.sector).1
  refine .inl ⟨_, st, rfl, m, .called (.readdir ?_ fun a => ?_), h⟩
  · rw [readdirAll_zero, hslots]
    exact h.holds.distinct
  · rw [readdirAll_zero, hslots, ← h.holds.map, View.mem_map]

/-- Closing another inode leaves the entries of the directory alone. -/
theorem RootMap.of_close (h : RootMap d cap st m) (r : InodeRef) :
    Serves d cap st m (.close r) := by
  obtain ⟨l, hs⟩ := h.sound
  by_cases hr : r ∈ st.opened
  · have hperm : (d :: st.opened).Perm (r :: d :: st.opened.erase r) :=
      ((List.perm_cons_erase hr).cons d).trans (.swap r d _)
    obtain ⟨s', hclose, hs', -, honly⟩ := (hs.perm hperm).of_inodeClose
    have hkept := ((hs.perm hperm).balanced.of_inodeClose hclose).2
    refine .inl ⟨.closed, { st with fs := s', opened := st.opened.erase r }, ?_, m, .closed,
      ⟨l, hs'⟩, ?_, ?_⟩
    · unfold dirUse
      dsimp only
      rw [if_pos hr, hclose, bind_ok]
    · rw [(hkept.disk d (hs.balanced.counted.below d h.opened)).1]
      exact h.sector
    · rw [hs.rootSlots_mapOnly honly]
      exact h.holds
  · refine .inr ?_
    unfold dirUse
    dsimp only
    rw [if_neg hr]

/-- Every event is served as the map would. -/
theorem RootMap.serves (h : RootMap d cap st m) (ev : DirEvent) : Serves d cap st m ev := by
  cases ev with
  | create length => exact h.of_create length
  | close r => exact h.of_close r
  | call op =>
    cases op with
    | add name c => exact h.of_add name c
    | remove name => exact h.of_remove name
    | lookup name => exact h.of_lookup name
    | readdir => exact h.of_readdir

/-- A run of callers is one on the map, unless one of them breaks its word. -/
theorem RootMap.runs {evs : List DirEvent} (h : RootMap d cap st m) :
    (∀ replies st', answers (dirUse d) evs st = .ok (replies, st') →
      ∃ m', Answers (UseStep cap) m evs replies m' ∧ RootMap d cap st' m') ∧
    ∀ e, answers (dirUse d) evs st = .error e → e = .notEnabled := by
  have hstep : ∀ st m ev reply st', RootMap d cap st m → dirUse d ev st = .ok (reply, st') →
      ∃ m', UseStep cap m ev reply m' ∧ RootMap d cap st' m' := by
    intro st m ev reply st' h hx
    rcases h.serves ev with ⟨reply', st₁, hx', hm⟩ | hx'
    · rw [hx] at hx'
      cases hx'
      exact hm
    · rw [hx] at hx'
      cases hx'
  refine ⟨fun replies st' hx => Answers.of_answers hstep h hx, fun e hx => ?_⟩
  by_contra hne
  refine answers_avoids (fun st m ev reply st' h hx => (hstep st m ev reply st' h hx).imp fun _ => And.right)
    (fun st m ev h hx => hne ?_) h hx
  rcases h.serves ev with ⟨_, _, hx', _⟩ | hx'
  · rw [hx] at hx'
    cases hx'
  · rw [hx] at hx'
    cases hx'
    rfl

/-! ## The root directory -/

/-- The root directory of a sound volume is ready. -/
theorem Sound.dirReady {fresh : List SectorNo} (h : Sound s l (d :: extra) fresh)
    (hsector : (s.inode d).sector = rootDirSector) : DirReady s d := by
  have hd : d ∈ s.openInodes := (h.balanced.counted.listed d).mpr List.mem_cons_self
  obtain ⟨-, hdeny, hlen, hhas⟩ := h.root hd hsector
  obtain ⟨f, r, hf, hm⟩ := h.mapFile
  refine ⟨⟨l, extra, h.balanced⟩, ⟨f, r, hm, ?_⟩, hdeny, hlen, fun x hx => ?_⟩
  · exact h.balanced.counted.below r (h.balanced.inode_open hf hm.file)
  · have hin := (hhas x).mp hx
    refine ⟨?_, fun hmap => ?_⟩
    · rintro rfl
      exact h.laid.not_data map_live root_live hin
    · exact Set.disjoint_left.mp (h.laid.apart root_live map_live (by decide)) (.inr hin) (.inr hmap)

/-- The entries that `dir_create` makes room for, `entry_cnt` if the bytes can be counted in an
`off_t`. -/
def dirCapacity (entryCnt : Nat) : Nat := (Int.bmod (20 * entryCnt) (2 ^ 32)).toNat / 20

/-- The root directory after formatting. -/
theorem rootMap_formatted {size entryCnt : Nat} {junk : Nat → Bool} {device : SectorNo → Sector}
    (hsize : 2 ≤ size) (hsmall : size < 2 ^ 32)
    (hformat : filesysFormat size junk entryCnt device = .ok s)
    (hopen : dirOpenRoot {} s = .ok (some d, s')) :
    RootMap d (dirCapacity entryCnt) { fs := s', fresh := [], opened := [] } ∅ := by
  obtain ⟨⟨f, hsound⟩, -, hunused⟩ := filesysFormat_sound hsize hsmall hformat
  have hlength := filesysFormat_root hsize hsmall hformat
  obtain ⟨o, s₁, hx, hs₁, hdisk, hd⟩ := hsound.of_dirOpenRoot {}
  rw [hopen] at hx
  cases hx
  refine ⟨⟨_, hs₁⟩, (hd d rfl).2, ?_⟩
  show DirHolds (rootSlots s'.device) _ ∅
  rw [hdisk.device]
  refine ⟨?_, ?_, View.map_of_unused hunused, fun name hmem => absurd hmem Finmap.notMem_empty⟩
  · unfold rootSlots dirCapacity
    rw [length_slots, hlength]
  · unfold View.Distinct
    rw [View.keys_of_unused hunused]
    exact List.nodup_nil

/-- What the invariant says of the entries is what the claim does of the names. -/
theorem RootMap.dirMap (h : RootMap d cap st m) : DirMap d cap st.fs m := by
  obtain ⟨l, hs⟩ := h.sound
  refine ⟨hs.dirReady h.sector, ?_⟩
  rw [(hs.root h.opened h.sector).1]
  exact h.holds

/-- The root directory is a finite map. Calls on it, in any order, are answered as those on the map
are, and afterwards its slots hold the map. Calls with the sectors of inodes that wait for a name all
return. -/
theorem directory_map {size entryCnt : Nat} {junk : Nat → Bool} {device : SectorNo → Sector}
    (hsize : 2 ≤ size) (hsmall : size < 2 ^ 32)
    (hformat : filesysFormat size junk entryCnt device = .ok s)
    (hopen : dirOpenRoot {} s = .ok (some d, s₁)) (ops : List DirOp) (evs : List DirEvent) :
    (∀ l s', answers (dirStep d) ops s₁ = .ok (l, s') →
      ∃ m, Answers (MapStep (dirCapacity entryCnt)) ∅ ops l m ∧
        DirHolds (slots (s'.inode d) s'.device) (dirCapacity entryCnt) m) ∧
    (∀ e, answers (dirStep d) ops s₁ = .error e → e = .freeMap) ∧
    (∀ l st, answers (dirUse d) evs ⟨s₁, [], []⟩ = .ok (l, st) →
      ∃ m, Answers (UseStep (dirCapacity entryCnt)) ∅ evs l m ∧
        DirHolds (slots (st.fs.inode d) st.fs.device) (dirCapacity entryCnt) m) ∧
    ∀ e, answers (dirUse d) evs ⟨s₁, [], []⟩ = .error e → e = .notEnabled := by
  have hroot := rootMap_formatted hsize hsmall hformat hopen
  have hstart : DirMap d (dirCapacity entryCnt) s₁ ∅ := hroot.dirMap
  have hstep : ∀ s m op answer s', DirMap d (dirCapacity entryCnt) s m →
      dirStep d op s = .ok (answer, s') →
      ∃ m', MapStep (dirCapacity entryCnt) m op answer m' ∧ DirMap d (dirCapacity entryCnt) s' m' :=
    fun s m op answer s' h hx => h.of_dirStep hx
  refine ⟨fun l s' hx => ?_, fun e hx => ?_, fun l st hx => ?_, hroot.runs.2⟩
  · obtain ⟨m, hrun, h⟩ := Answers.of_answers hstep hstart hx
    exact ⟨m, hrun, h.holds⟩
  · by_contra hne
    exact answers_avoids
      (fun s m op answer s' h hx => (hstep s m op answer s' h hx).imp fun _ => And.right)
      (fun s m op _ => dirStep_avoids (Ne.symm hne) op) hstart hx
  · obtain ⟨m, hrun, h⟩ := hroot.runs.1 l st hx
    exact ⟨m, hrun, h.dirMap.holds⟩

/-- The name `a` is added for an inode, added again for another, looked up, removed and looked up
again. -/
def sampleCalls : List DirEvent :=
  let a : CString := ⟨[97], by decide⟩
  [.create 600, .create 0, .call (.add a 4), .call (.add a 7), .call (.lookup a), .call .readdir,
    .call (.remove a), .call (.lookup a), .call .readdir]

/-- What the callers are told. -/
def sampleReplies : List DirReply :=
  [.created (some 4), .created (some 7), .answered (.success true), .answered (.success false),
    .answered (.inode (some 4)), .answered (.names [[97]]), .answered (.success true),
    .answered (.inode none), .answered (.names [])]

/-- A name is added, found, listed and removed again. -/
theorem directory_map_sample : ∃ s s₁ d st,
    filesysFormat 16 (fun _ => false) 16 (fun _ _ => 0) = .ok s ∧
    dirOpenRoot {} s = .ok (some d, s₁) ∧
    answers (dirUse d) sampleCalls ⟨s₁, [], []⟩ = .ok (sampleReplies, st) ∧
    ∃ m, Answers (UseStep (dirCapacity 16)) ∅ sampleCalls sampleReplies m ∧
      DirHolds (slots (st.fs.inode d) st.fs.device) (dirCapacity 16) m := by
  have heval : (do
      let s ← filesysFormat 16 (fun _ => false) 16 (fun _ _ => 0)
      let (o, s₁) ← dirOpenRoot {} s
      o.elim (.error .panic) fun d => do
        let (l, _) ← answers (dirUse d) sampleCalls ⟨s₁, [], []⟩
        .ok l : Except Assertion _).toOption = some sampleReplies := by
    decide +kernel
  obtain ⟨s, hformat, hrun⟩ := bind_eq_ok.mp (eq_ok_of_toOption heval)
  obtain ⟨⟨o, s₁⟩, hopen, hrun⟩ := bind_eq_ok.mp hrun
  cases o with
  | none => cases hrun
  | some d =>
    obtain ⟨⟨l, st⟩, hcalls, hrun⟩ := bind_eq_ok.mp hrun
    cases hrun
    exact ⟨s, s₁, d, st, hformat, hopen, hcalls,
      (directory_map (by decide) (by decide) hformat hopen [] sampleCalls).2.2.1 _ _ hcalls⟩

end Pintos.Filesys
