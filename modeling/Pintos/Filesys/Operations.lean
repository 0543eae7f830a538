import Pintos.Filesys.Volume

/-!
# Operations on a volume

The steps that the operations of `filesys/filesys.c` are made of keep a volume `Sound`: opening an
inode that is to stay, giving it back, and writing the free map.
-/

namespace Pintos.Filesys

open Pintos.Lib

variable {s s₁ s' : Files} {r d : InodeRef} {l : List FileRef} {extra : List InodeRef}
  {fresh : List SectorNo} {c x : SectorNo} {m : Mallocs}

/-- Nothing on the device has changed, nor in the free map. -/
structure SameDisk (s s' : Files) : Prop where
  device : s'.device = s.device
  freeMap : s'.freeMap = s.freeMap
  pad : s'.pad = s.pad
  freeMapFile : s'.freeMapFile = s.freeMapFile

theorem SameDisk.refl (s : Files) : SameDisk s s := ⟨rfl, rfl, rfl, rfl⟩

theorem SameDisk.trans (h : SameDisk s s₁) (h' : SameDisk s₁ s') : SameDisk s s' :=
  ⟨h'.device.trans h.device, h'.freeMap.trans h.freeMap, h'.pad.trans h.pad,
    h'.freeMapFile.trans h.freeMapFile⟩

/-! ## Opening and closing inodes -/

/-- The inodes of files are among those that are open. -/
theorem Sound.users_of_kept (h : Sound s l extra fresh) (hk : Kept s s')
    (hold : ∀ r ∈ s.openInodes, (s.inode r).Same (s'.inode r)) :
    ∀ f ∈ l, s'.freeMapFile ≠ some f → ∀ x, s'.file f = some x →
      (s'.inode x.inode).sector ≠ freeMapSector ∧ (s'.inode x.inode).sector ≠ rootDirSector := by
  intro f hf hmap x hx
  rw [hk.file] at hx
  rw [hk.freeMapFile] at hmap
  rw [(hold _ (h.balanced.inode_open hf hx)).sector]
  exact h.users f hf hmap x hx

/-- In memory only the inodes change, and none but those that are opened now is new. -/
theorem Sound.of_inodes (h : Sound s l extra fresh) {extra' : List InodeRef}
    (hb : Balanced s' l extra') (hk : Kept s s') (hd : SameDisk s s')
    (hold : ∀ r ∈ s.openInodes, (s.inode r).Same (s'.inode r))
    (hnew : ∀ r ∈ s'.openInodes, r ∈ s.openInodes ∨
      (s'.Agrees r ∧ (s'.inode r).removed = false ∧ Placed s.device fresh (s'.inode r).sector)) :
    Sound s' l extra' fresh := by
  refine h.of_tables hb hd.device hd.freeMap hd.pad hd.freeMapFile (fun f hf => ⟨?_, by rw [hk.file]⟩)
    hold hnew (h.users_of_kept hk hold)
  obtain ⟨f', r, hf', hm⟩ := h.mapFile
  rw [hm.freeMapFile] at hf
  cases hf
  exact hf'

/-- The count of openers is no part of an inode. -/
theorem same_update (ino : Inode) (hino : (s.inode r).Same ino) (r' : InodeRef) :
    (s.inode r').Same (Function.update s.inode r ino r') := by
  by_cases heq : r' = r
  · rw [heq, Function.update_self]
    exact hino
  · rw [Function.update_of_ne heq]
    exact .refl _

/-- An inode that is to stay is opened. -/
theorem Sound.of_inodeOpen {alloc : Bool} {o : Option InodeRef} (h : Sound s l extra fresh)
    (hc : Placed s.device fresh c) (hx : inodeOpen c alloc s = (o, s')) :
    Sound s' l (o.toList ++ extra) fresh ∧ SameDisk s s' ∧
      ∀ r ∈ o, r ∈ s'.openInodes ∧ (s'.inode r).sector = c := by
  obtain ⟨hb, hk⟩ := h.balanced.of_inodeOpen hx
  unfold inodeOpen at hx
  split at hx
  next r hfind =>
    cases hx
    have hr := List.mem_of_find?_eq_some hfind
    have hsector : (s.inode r).sector = c :=
      beq_iff_eq.mp (List.find?_some (p := fun r => (s.inode r).sector == c) hfind)
    have hold := same_update (s := s) (r := r)
      { s.inode r with openCnt := (s.inode r).openCnt + 1 } ⟨rfl, rfl, rfl, rfl⟩
    refine ⟨h.of_inodes hb hk ⟨rfl, rfl, rfl, rfl⟩ (fun r' _ => hold r') (fun r' hr' => .inl hr'),
      ⟨rfl, rfl, rfl, rfl⟩, fun r' hr' => ?_⟩
    cases hr'
    exact ⟨hr, (hold r).sector.trans hsector⟩
  next hnone =>
    split at hx
    · cases hx
      have hself := Function.update_self s.nextInode
        ({ sector := c, openCnt := 1, removed := false, denyWriteCnt := 0
           start := word (s.device c).byte 0
           length := Int.bmod (word (s.device c).byte 4) (2 ^ 32) } : Inode) s.inode
      refine ⟨h.of_inodes hb hk ⟨rfl, rfl, rfl, rfl⟩ (fun r hr => ?_) (fun r hr => ?_),
        ⟨rfl, rfl, rfl, rfl⟩, fun r hr => ?_⟩
      · have hne : r ≠ s.nextInode := Nat.ne_of_lt (h.balanced.counted.below r hr)
        dsimp only
        rw [Function.update_of_ne hne]
        exact .refl _
      · rcases List.mem_cons.mp hr with rfl | hr
        · refine .inr ⟨?_, ?_, ?_⟩
          · unfold Files.Agrees
            dsimp only
            rw [hself]
            exact ⟨rfl, rfl⟩
          · dsimp only
            rw [hself]
          · dsimp only
            rw [hself]
            exact hc
        · exact .inl hr
      · cases hr
        dsimp only
        rw [hself]
        exact ⟨List.mem_cons_self, rfl⟩
    · cases hx
      exact ⟨h, .refl s, fun r hr => by cases hr⟩

/-- An inode that is to stay is given back, and nothing is released. -/
theorem Sound.close_placed (h : Sound s l (r :: extra) fresh)
    (hplaced : Placed s.device fresh (s.inode r).sector) :
    ∃ s', inodeClose (some r) s = .ok s' ∧ Sound s' l extra fresh ∧ SameDisk s s' := by
  have hr : r ∈ s.openInodes := (h.balanced.counted.listed r).mpr List.mem_cons_self
  have hremoved : (s.inode r).removed = false := by
    rw [← Bool.not_eq_true, h.removed r hr]
    exact not_not_intro hplaced
  obtain ⟨s', hx, hd⟩ : ∃ s', inodeClose (some r) s = .ok s' ∧ SameDisk s s' := by
    unfold inodeClose
    dsimp only
    rw [hremoved, if_neg Bool.false_ne_true]
    split
    · exact ⟨_, rfl, rfl, rfl, rfl, rfl⟩
    · exact ⟨_, rfl, rfl, rfl, rfl, rfl⟩
  obtain ⟨hb, hk⟩ := h.balanced.of_inodeClose hx
  obtain ⟨hino, hopen, -⟩ := inodeClose_eq_ok hx
  refine ⟨s', hx, h.of_inodes hb hk hd (fun r' _ => ?_) (fun r' hr' => .inl ?_), hd⟩
  · rw [hino]
    exact same_update (s := s) (r := r)
      { s.inode r with openCnt := (s.inode r).openCnt - 1 } ⟨rfl, rfl, rfl, rfl⟩ r'
  · exact openInodes_of_inodeClose hx hr'

/-- After the last opener of an inode has given it back. -/
def Files.dropInode (r : InodeRef) (s : Files) : Files :=
  { s.setInode r { s.inode r with openCnt := (s.inode r).openCnt - 1 } with
    openInodes := s.openInodes.erase r }

theorem inodeClose_last (h : (s.inode r).openCnt - 1 = 0) : inodeClose (some r) s =
    if (s.inode r).removed then do
      let s₁ ← freeMapRelease (s.inode r).sector 1 (s.dropInode r)
      freeMapRelease (s.inode r).start (bytesToSectors (s.inode r).length) s₁
    else .ok (s.dropInode r) := by
  unfold inodeClose
  exact if_pos h

/-! ## The free map -/

/-- The data of the free map is none of the others'. -/
theorem Sound.mapOnly_eq (h : Sound s l extra fresh) {device' : SectorNo → Sector}
    (hd : MapOnly s.device device') (hc : c ∈ s.live fresh) (hx : x ∈ sectorsOf s.device c)
    (hne : c ≠ freeMapSector ∨ x = c) : device' x = s.device x := by
  rcases hx with rfl | hx
  · exact h.laid.inode_eq map_live hd hc
  · rcases hne with hne | rfl
    · exact h.laid.data_eq map_live hd hc hne hx
    · exact h.laid.inode_eq map_live hd hc

/-- The root directory is as it was. -/
theorem Sound.rootSlots_mapOnly (h : Sound s l extra fresh) {device' : SectorNo → Sector}
    (hd : MapOnly s.device device') : rootSlots device' = rootSlots s.device :=
  rootSlots_congr (h.mapOnly_eq hd root_live (.inl rfl) (.inr rfl)) fun _ hx =>
    h.mapOnly_eq hd root_live (.inr hx) (.inl (by decide))

/-- The free map becomes another in which what the inodes have is still in use. -/
theorem Sound.of_remapped {m : List Bool} (h : Sound s l extra fresh) (hre : Remapped s s' m)
    (hmarks : ∀ c ∈ s.live fresh, ∀ x ∈ sectorsOf s.device c, Marked m x) :
    Sound s' l extra fresh ∧ s'.live fresh = s.live fresh := by
  have heq := hre.eq
  have hsame : SameTables s s' := by
    rw [heq]
    exact ⟨rfl, rfl, rfl, rfl, rfl, rfl⟩
  have hmap : s'.freeMap = m := by rw [heq]
  have hfile : s.freeMapFile.isSome = true := by
    obtain ⟨f, r, -, hm⟩ := h.mapFile
    rw [hm.freeMapFile]
    rfl
  exact h.of_device hsame (by rw [heq]) (by rw [hmap, hre.length])
    (fun c hc => h.mapOnly_eq hre.mapOnly hc (.inl rfl) (.inr rfl)) (h.rootSlots_mapOnly hre.mapOnly)
    (hre.synced hfile).saved (by rw [hmap]; exact hmarks)

/-! ## The root directory -/

/-- `dir_open_root` opens the inode of the root directory. -/
theorem Sound.of_dirOpenRoot (h : Sound s l extra fresh) (m : Mallocs) :
    ∃ o s', dirOpenRoot m s = .ok (o, s') ∧ Sound s' l (o.toList ++ extra) fresh ∧ SameDisk s s' ∧
      ∀ d ∈ o, d ∈ s'.openInodes ∧ (s'.inode d).sector = rootDirSector := by
  have hroot : Placed s.device fresh rootDirSector := .inr (.inl rfl)
  unfold dirOpenRoot
  split
  next r s₁ h₁ =>
    obtain ⟨hs₁, hd₁, hr⟩ := h.of_inodeOpen hroot h₁
    obtain ⟨hopen, hsector⟩ := hr r rfl
    split
    · exact ⟨some r, s₁, rfl, hs₁, hd₁, hr⟩
    · have hplaced : Placed s₁.device fresh (s₁.inode r).sector := by
        rw [hd₁.device, hsector]
        exact hroot
      obtain ⟨s₂, hclose, hs₂, hd₂⟩ := Sound.close_placed hs₁ hplaced
      rw [hclose]
      exact ⟨none, s₂, rfl, hs₂, hd₁.trans hd₂, fun d hd => by cases hd⟩
  next s₁ h₁ =>
    obtain ⟨hs₁, hd₁, -⟩ := h.of_inodeOpen hroot h₁
    exact ⟨none, s₁, rfl, hs₁, hd₁, fun d hd => by cases hd⟩

/-- Whether `dir_open_root` succeeds. -/
def DirOpens (m : Mallocs) (s : Files) : Prop :=
  m.dir = true ∧ (m.dirInode = true ∨ s.IsOpen rootDirSector)

theorem dirOpenRoot_isSome {o : Option InodeRef} (hx : dirOpenRoot m s = .ok (o, s')) :
    o.isSome = true ↔ DirOpens m s := by
  have hinode : ∀ o s₁, inodeOpen rootDirSector m.dirInode s = (o, s₁) →
      (o.isSome = true ↔ m.dirInode = true ∨ s.IsOpen rootDirSector) := by
    intro o s₁ h₁
    unfold inodeOpen at h₁
    split at h₁
    next r hfind =>
      cases h₁
      refine iff_of_true rfl (.inr ⟨r, List.mem_of_find?_eq_some hfind, ?_⟩)
      exact beq_iff_eq.mp (List.find?_some (p := fun r => (s.inode r).sector == rootDirSector) hfind)
    next hnone =>
      have hclosed : ¬ s.IsOpen rootDirSector := by
        rintro ⟨r, hr, hsector⟩
        have := List.find?_eq_none.mp hnone r hr
        rw [hsector] at this
        exact this (beq_self_eq_true _)
      split at h₁
      next halloc =>
        cases h₁
        exact iff_of_true rfl (.inl halloc)
      next halloc =>
        cases h₁
        exact iff_of_false Bool.false_ne_true fun hor => hor.elim halloc hclosed
  unfold dirOpenRoot at hx
  unfold DirOpens
  split at hx
  next r s₁ h₁ =>
    have hor := (hinode _ _ h₁).mp rfl
    split at hx
    next hdir =>
      cases hx
      exact iff_of_true rfl ⟨hdir, hor⟩
    next hdir =>
      obtain ⟨s₂, -, hx⟩ := bind_eq_ok.mp hx
      cases hx
      exact iff_of_false Bool.false_ne_true fun h => hdir h.1
  next s₁ h₁ =>
    cases hx
    exact iff_of_false Bool.false_ne_true fun h => Bool.false_ne_true ((hinode _ _ h₁).mpr h.2)

/-- The inode of the root directory is as on the device, and nobody denies writes to it. -/
theorem Sound.root (h : Sound s l extra fresh) (hd : d ∈ s.openInodes)
    (hsector : (s.inode d).sector = rootDirSector) :
    slots (s.inode d) s.device = rootSlots s.device ∧ (s.inode d).denyWriteCnt = 0 ∧
      (s.inode d).length < 2 ^ 31 ∧
      ∀ x, (s.inode d).HasSector x ↔ (loaded s.device rootDirSector).HasSector x := by
  have hagrees := h.agrees d hd
  unfold Files.Agrees at hagrees
  rw [hsector] at hagrees
  refine ⟨slots_of_eq hagrees.1 hagrees.2 _, h.denied_zero hd (.inr hsector), ?_,
    fun x => hasSector_of_eq hagrees.1 hagrees.2⟩
  rw [hagrees.2]
  exact loaded_length_lt _ _

/-- The root directory has no data of the free map's. -/
theorem Sound.saved_rootData {device' : SectorNo → Sector} (h : Sound s l extra fresh)
    (hd : DataOnly s.device device' rootDirSector) : Saved { s with device := device' } := by
  obtain ⟨f, r, -, hm⟩ := h.mapFile
  obtain ⟨pad, hpad, hstored⟩ := h.saved
  refine ⟨pad, hpad, hstored.of_same ?_ (h.laid.inode_eq root_live hd map_live) fun _ hx =>
    h.laid.data_eq root_live hd map_live (by decide) hx⟩
  rw [hm.loaded_length, length_mapBytes hpad]

/-- The root directory is written, and its slots stay. -/
theorem Sound.of_rootData {device' : SectorNo → Sector} (h : Sound s l extra fresh)
    (hd : DataOnly s.device device' rootDirSector) (hslots : rootSlots device' = rootSlots s.device) :
    Sound { s with device := device' } l extra fresh := by
  have hsame : SameTables s { s with device := device' } := ⟨rfl, rfl, rfl, rfl, rfl, rfl⟩
  exact (h.of_device hsame rfl rfl (fun _ hc => h.laid.inode_eq root_live hd hc) hslots
    (h.saved_rootData hd) fun _ hc _ hx => h.laid.marked hc hx).1

/-- An inode that waits for a name gets one, in a slot that was free. -/
theorem Sound.of_named {device' : SectorNo → Sector} {name : List UInt8} {k : Nat} {e : DirEntry}
    (h : Sound s l extra (c :: fresh)) (hd : DataOnly s.device device' rootDirSector)
    (hslots : rootSlots device' = (rootSlots s.device).set k (newEntry name c))
    (hk : (rootSlots s.device)[k]? = some e) (hfree : e.inUse = false)
    (hnew : name ∉ dirView.keys (rootSlots s.device)) :
    Sound { s with device := device' } l extra fresh := by
  have hkeys : (sectorView.keys (rootSlots device')).Perm
      (c :: sectorView.keys (rootSlots s.device)) := by
    rw [hslots]
    exact View.keys_set_used hk hfree rfl
  have hnamed : ∀ c', Named device' c' ↔ c' = c ∨ Named s.device c' := by
    intro c'
    unfold Named
    rw [hkeys.mem_iff, List.mem_cons]
  have hplaced : ∀ c', Placed device' fresh c' ↔ Placed s.device (c :: fresh) c' := by
    intro c'
    unfold Placed
    rw [hnamed, List.mem_cons]
    tauto
  obtain ⟨hnot, hnodup⟩ := List.nodup_cons.mp h.names.nodup
  refine h.of_placed (h.balanced.of_same ⟨rfl, rfl, rfl, rfl, rfl, rfl⟩) ⟨rfl, rfl, rfl, rfl,
    fun _ => rfl, fun _ => rfl, fun _ => rfl, fun _ => rfl⟩ rfl
    (fun c' hc' => h.laid.inode_eq root_live hd hc') ?_ ?_ (fun r hr => ?_)
    (h.saved_rootData hd) fun c' hc' x hx => h.laid.marked hc' hx
  · ext c'
    exact or_congr (hplaced c') Iff.rfl
  · constructor
    case names =>
      rw [hslots]
      exact h.names.names.set_used hk hfree rfl hnew
    case sectors =>
      rw [hslots]
      exact h.names.sectors.set_used hk hfree rfl (h.names.unnamed c List.mem_cons_self)
    case proper =>
      intro c' hc'
      refine h.names.proper c' ?_
      rw [hnamed] at hc'
      rw [List.mem_cons]
      tauto
    case nodup => exact hnodup
    case unnamed =>
      intro c' hc'
      rw [hnamed, not_or]
      exact ⟨fun heq => hnot (heq ▸ hc'), h.names.unnamed c' (List.mem_cons_of_mem c hc')⟩
  · rw [hplaced]
    exact h.removed r hr

end Pintos.Filesys
