import Pintos.Filesys.Creation

/-!
# Removing, opening and closing files

`dir_remove` takes the name from an inode that it has open, and gives the inode back. Closing a file
gives its inode back as well. Each may be the end of the inode (`Sound.of_inodeClose`).
-/

namespace Pintos.Filesys

open Pintos.Lib

variable {s s₁ s' : Files} {r d : InodeRef} {f g : FileRef} {l l' : List FileRef}
  {extra : List InodeRef} {fresh : List SectorNo} {c x : SectorNo} {name : List UInt8} {ok : Bool} {m : Mallocs}

/-! ## Removing -/

/-- An inode that is open loses its name. -/
theorem Sound.of_unnamed {device : SectorNo → Sector} {k : Nat} {e : DirEntry}
    (h : Sound s l extra fresh) (hd : DataOnly s.device device rootDirSector)
    (hslots : rootSlots device = (rootSlots s.device).set k { e with inUse := false })
    (hk : (rootSlots s.device)[k]? = some e) (hused : e.inUse = true) (hr : r ∈ s.openInodes)
    (hsector : (s.inode r).sector = e.inodeSector) :
    Sound (inodeRemove r { s with device := device }) l extra fresh ∧
      Still fresh s (inodeRemove r { s with device := device }) := by
  have hnamed : ∀ c, Named device c ↔ Named s.device c ∧ c ≠ e.inodeSector := by
    intro c
    unfold Named
    rw [hslots]
    exact h.names.sectors.mem_keys_set_unused hk hused rfl
  have hname : Named s.device e.inodeSector :=
    View.mem_keys.mpr ⟨e, List.mem_of_getElem? hk, hused, rfl⟩
  obtain ⟨hmap, hroot⟩ := h.names.proper _ (.inl hname)
  have hplaced : ∀ c, Placed device fresh c ↔ Placed s.device fresh c ∧ c ≠ e.inodeSector := by
    intro c
    unfold Placed
    rw [hnamed]
    constructor
    · rintro (rfl | rfl | hc | hc)
      · exact ⟨.inl rfl, Ne.symm hmap⟩
      · exact ⟨.inr (.inl rfl), Ne.symm hroot⟩
      · exact ⟨.inr (.inr (.inl hc.1)), hc.2⟩
      · exact ⟨.inr (.inr (.inr hc)), fun heq => h.names.unnamed c hc (heq ▸ hname)⟩
    · rintro ⟨rfl | rfl | hc | hc, hne⟩
      · exact .inl rfl
      · exact .inr (.inl rfl)
      · exact .inr (.inr (.inl ⟨hc, hne⟩))
      · exact .inr (.inr (.inr hc))
  have hinodes : ∀ c ∈ s.live fresh, device c = s.device c := fun c hc => h.laid.inode_eq root_live hd hc
  have hino : ∀ r', (inodeRemove r { s with device := device }).inode r' =
      if r' = r then { s.inode r with removed := true } else s.inode r' := by
    intro r'
    show Function.update s.inode r _ r' = _
    split
    next heq => rw [heq, Function.update_self]
    next hne => rw [Function.update_of_ne hne]
  have ht : TablesButRemoved s (inodeRemove r { s with device := device }) := by
    refine ⟨rfl, rfl, rfl, rfl, fun r' => ?_, fun r' => ?_, fun r' => ?_, fun r' => ?_⟩
    all_goals
      rw [hino]
      split
      next heq => rw [heq]
      next => rfl
  have hlive : (inodeRemove r { s with device := device }).live fresh = s.live fresh := by
    ext c
    show Placed device fresh c ∨ _ ↔ Placed s.device fresh c ∨ _
    rw [hplaced, ht.isOpen]
    by_cases hc : c = e.inodeSector
    · have hopen : s.IsOpen c := ⟨r, hr, hsector.trans hc.symm⟩
      exact iff_of_true (.inr hopen) (.inr hopen)
    · exact or_congr (and_iff_left hc) Iff.rfl
  have hsame : SameTables s { s with device := device } := ⟨rfl, rfl, rfl, rfl, rfl, rfl⟩
  have hb := ((h.balanced.of_same hsame).of_inodeRemove r).1
  refine ⟨h.of_placed hb ht rfl hinodes hlive ?_ (fun r' hr' => ?_) (h.saved_rootData hd)
    fun c hc x hx => h.laid.marked hc hx, hlive, rfl, rfl, hinodes⟩
  · constructor
    case names =>
      show dirView.Distinct (rootSlots device)
      rw [hslots]
      exact h.names.names.set_unused hk hused rfl
    case sectors =>
      show sectorView.Distinct (rootSlots device)
      rw [hslots]
      exact h.names.sectors.set_unused hk hused rfl
    case proper =>
      rintro c (hc | hc)
      · exact h.names.proper c (.inl ((hnamed c).mp hc).1)
      · exact h.names.proper c (.inr hc)
    case nodup => exact h.names.nodup
    case unnamed => exact fun c hc hn => h.names.unnamed c hc ((hnamed c).mp hn).1
  · show _ ↔ ¬ Placed device fresh (s.inode r').sector
    rw [hino, hplaced, not_and, not_not]
    by_cases heq : r' = r
    · rw [if_pos heq]
      exact iff_of_true rfl fun _ => by rw [heq, hsector]
    · rw [if_neg heq, h.removed r' hr']
      refine ⟨fun hno hc => absurd hc hno, fun hc hp => ?_⟩
      exact heq (h.balanced.counted.sectors r' hr' r hr ((hc hp).trans hsector.symm))

/-- The names of the root directory, with the sectors of their inodes. -/
def rootNames (device : SectorNo → Sector) : NameMap := dirView.map (rootSlots device)

/-- The sector a name leads to is a named one. -/
theorem named_of_lookup {device : SectorNo → Sector}
    (h : (rootNames device).lookup name = some c) : Named device c := by
  unfold rootNames at h
  rw [View.lookup_map (hasName_iff name)] at h
  obtain ⟨e, hfind, rfl⟩ := Option.map_eq_some_iff.mp h
  have hused := ((hasName_iff name e).mp (List.find?_some hfind)).1
  exact View.mem_keys.mpr ⟨e, List.mem_of_find?_eq_some hfind, hused, rfl⟩

/-- Only the names may have changed, and the data of the free map. `alloc` says that there was memory. -/
structure Unnames (s s' : Files) (name : List UInt8) (alloc : Prop) (ok : Bool) : Prop where
  device : ∀ x, s.Elsewhere x → s'.device x = s.device x
  removed : ok = true → name ∈ rootNames s.device ∧
    rootNames s'.device = (rootNames s.device).erase name
  refused : ok = false → rootNames s'.device = rootNames s.device ∧
    (alloc → name ∉ rootNames s.device)

/-- `dir_remove` from the root directory. -/
theorem Sound.of_dirRemove (h : Sound s l extra fresh) (hd : d ∈ s.openInodes)
    (hsector : (s.inode d).sector = rootDirSector) (name : List UInt8) (m : Mallocs) :
    ∃ ok s', dirRemove d name m s = .ok (ok, s') ∧ Sound s' l extra fresh ∧ Passes fresh s s' ∧
      Unnames s s' name (m.inode = true) ok := by
  obtain ⟨hslots, hdeny, hlen, hhas⟩ := h.root hd hsector
  unfold dirRemove
  split
  next hnone =>
    refine ⟨false, s, rfl, h, (Still.refl s).grows.passes, fun _ _ => rfl,
      fun hf => Bool.noConfusion hf, fun _ => ⟨rfl, fun _ hmem => ?_⟩⟩
    unfold rootNames at hmem
    rw [← hslots, ← lookup_isSome, hnone] at hmem
    exact Bool.false_ne_true hmem
  next e ofs hsome =>
    obtain ⟨hk, hofs, hused, hname⟩ := lookup_eq_some hsome
    have hnamed : Named s.device e.inodeSector := by
      refine View.mem_keys.mpr ⟨e, ?_, hused, rfl⟩
      rw [← hslots]
      exact List.mem_of_getElem? hk
    have hplaced : Placed s.device fresh e.inodeSector := .inr (.inr (.inl hnamed))
    dsimp only
    split
    next s₁ h₁ =>
      obtain ⟨hs₁, hdisk, -⟩ := h.of_inodeOpen hplaced h₁
      refine ⟨false, s₁, rfl, hs₁, (h.still_inodeOpen hplaced h₁).grows.passes,
        fun x _ => by rw [hdisk.device], fun hf => Bool.noConfusion hf,
        fun _ => ⟨by rw [hdisk.device], fun halloc => ?_⟩⟩
      unfold inodeOpen at h₁
      split at h₁
      · cases h₁
      · rw [if_pos halloc] at h₁
        cases h₁
    next r s₁ h₁ =>
      obtain ⟨hs₁, hdisk, hr⟩ := h.of_inodeOpen hplaced h₁
      obtain ⟨hopen, hrs⟩ := hr r rfl
      have hstill₁ := h.still_inodeOpen hplaced h₁
      obtain ⟨hb₁, hk₁⟩ := h.balanced.of_inodeOpen h₁
      have hlt : d < s.nextInode := h.balanced.counted.below d hd
      obtain ⟨hsector₁, hstart₁, hlength₁⟩ := hk₁.disk d hlt
      have hd₁ : d ∈ s₁.openInodes := by
        rw [hb₁.counted.listed]
        have hmem := (h.balanced.counted.listed d).mp hd
        rw [hk₁.inodesOf]
        exact List.mem_append.mpr ((List.mem_append.mp hmem).imp_left (List.mem_append_right _))
      rw [hsector] at hsector₁
      obtain ⟨hslots₁, hdeny₁, hlen₁, hhas₁⟩ := hs₁.root hd₁ hsector₁
      obtain ⟨hwritten, hset⟩ := dirRemove_write hsome hdeny₁ hstart₁ hlength₁ hdisk.device
      have heq := inodeWriteAt_eq d (fun j => ((inodeReadAt d 20 ofs s).set 19 0).getD j 0) 20 ofs s₁
      have hdata : DataOnly s₁.device (inodeWriteAt d
          (fun j => ((inodeReadAt d 20 ofs s).set 19 0).getD j 0) 20 ofs s₁).2.device rootDirSector :=
        fun x hx => inodeWriteAt_other hlen₁ (by omega) fun hin => hx ((hhas₁ x).mp hin)
      rw [if_pos hwritten]
      generalize (inodeWriteAt d (fun j => ((inodeReadAt d 20 ofs s).set 19 0).getD j 0) 20 ofs s₁).2 =
        s₂ at hset heq hdata
      have hinode₂ : loaded s₂.device rootDirSector = loaded s₁.device rootDirSector :=
        loaded_congr (hs₁.laid.inode_eq root_live hdata root_live)
      have hagrees := hs₁.agrees d hd₁
      unfold Files.Agrees at hagrees
      rw [hsector₁, ← hinode₂, hstart₁, hlength₁] at hagrees
      have hroot₂ : slots (s.inode d) s₂.device = rootSlots s₂.device :=
        slots_of_eq hagrees.1 hagrees.2 _
      rw [hroot₂, hslots, ← hdisk.device] at hset
      rw [hslots, ← hdisk.device] at hk
      obtain ⟨hs₂, hstill₂⟩ := hs₁.of_unnamed hdata hset hk hused hopen hrs
      rw [heq]
      obtain ⟨s₃, h₃, hs₃, hpass, honly⟩ := Sound.of_inodeClose hs₂
      refine ⟨true, s₃, by rw [h₃, bind_ok], hs₃, (hstill₁.trans hstill₂).passes hpass,
        fun x hx => ?_, fun _ => ⟨?_, ?_⟩, fun hf => Bool.noConfusion hf⟩
      · have hmapInode : s₂.device freeMapSector = s.device freeMapSector :=
          (hs₁.laid.inode_eq root_live hdata map_live).trans (by rw [hdisk.device])
        have hrootInode : s₁.device rootDirSector = s.device rootDirSector := by rw [hdisk.device]
        have hout : ¬ (loaded s₁.device rootDirSector).HasSector x := by
          rw [loaded_congr hrootInode]
          exact hx.2.2
        refine (honly x ?_).trans ((hdata x hout).trans (by rw [hdisk.device]))
        show ¬ (loaded s₂.device freeMapSector).HasSector x
        rw [loaded_congr hmapInode]
        exact hx.2.1
      · rw [hdisk.device] at hk
        refine View.mem_map.mpr (View.mem_keys.mpr ⟨e, List.mem_of_getElem? hk, hused, hname⟩)
      · have hroot₃ : rootSlots s₃.device = rootSlots s₂.device := Sound.rootSlots_mapOnly hs₂ honly
        unfold rootNames
        rw [hroot₃, hset, hdisk.device]
        rw [hdisk.device] at hk
        rw [h.names.names.map_set_unused hk hused rfl, ← hname]
        rfl

/-- The inode is neither that of the free map nor that of the root directory. -/
def Files.Proper (s : Files) (r : InodeRef) : Prop :=
  (s.inode r).sector ≠ freeMapSector ∧ (s.inode r).sector ≠ rootDirSector

/-- `dir_lookup` in the root directory opens an inode that has a name. -/
theorem Sound.of_dirLookup {o : Option InodeRef} (h : Sound s l extra fresh) (hd : d ∈ s.openInodes)
    (hsector : (s.inode d).sector = rootDirSector) (hx : dirLookup d name m s = (o, s')) :
    Sound s' l (o.toList ++ extra) fresh ∧ Still fresh s s' ∧ SameDisk s s' ∧
      (s'.inode d).sector = rootDirSector ∧
      (∀ r ∈ o, s'.Proper r ∧ (rootNames s.device).lookup name = some (s'.inode r).sector) ∧
      (o = none → m.inode = true → (rootNames s.device).lookup name = none) := by
  obtain ⟨hslots, -⟩ := h.root hd hsector
  have hkept := (h.balanced.of_dirLookup hx).2
  have hd' : (s'.inode d).sector = rootDirSector := by
    rw [(hkept.disk d (h.balanced.counted.below d hd)).1, hsector]
  unfold dirLookup at hx
  split at hx
  next e ofs hsome =>
    obtain ⟨hk, -, hused, -⟩ := lookup_eq_some hsome
    have hnamed : Named s.device e.inodeSector := by
      refine View.mem_keys.mpr ⟨e, ?_, hused, rfl⟩
      rw [← hslots]
      exact List.mem_of_getElem? hk
    have hplaced : Placed s.device fresh e.inodeSector := .inr (.inr (.inl hnamed))
    obtain ⟨h', hdisk, hr⟩ := h.of_inodeOpen hplaced hx
    refine ⟨h', h.still_inodeOpen hplaced hx, hdisk, hd', fun r hmem => ⟨?_, ?_⟩,
      fun hnone halloc => ?_⟩
    · unfold Files.Proper
      rw [(hr r hmem).2]
      exact h.names.proper _ (.inl hnamed)
    · unfold rootNames
      rw [(hr r hmem).2, View.lookup_map (hasName_iff name), ← hslots]
      rw [lookup_eq] at hsome
      obtain ⟨e', hfind, heq⟩ := Option.map_eq_some_iff.mp hsome
      cases heq
      rw [hfind]
      rfl
    · rw [hnone] at hx
      unfold inodeOpen at hx
      split at hx
      · cases hx
      · rw [if_pos halloc] at hx
        cases hx
  next hnone =>
    cases hx
    refine ⟨h, .refl s, .refl s, hd', (fun r hr => by cases hr), fun _ _ => ?_⟩
    unfold rootNames
    rw [Finmap.lookup_eq_none, ← hslots, ← lookup_isSome, hnone]
    exact Bool.false_ne_true

/-- `filesys_remove`. -/
theorem Sound.of_filesysRemove (h : Sound s l extra []) (name : List UInt8) (m : Mallocs) :
    ∃ ok s', filesysRemove name m s = .ok (ok, s') ∧ Sound s' l extra [] ∧ Passes [] s s' ∧
      Unnames s s' name (DirOpens m s ∧ m.inode = true) ok := by
  obtain ⟨o, s₁, hopen, h₁, hd₁, hroot⟩ := h.of_dirOpenRoot m
  have hstill := h.still_dirOpenRoot hopen
  have hopens := dirOpenRoot_isSome hopen
  unfold filesysRemove
  rw [hopen, bind_ok]
  cases o with
  | none =>
    refine ⟨false, s₁, rfl, h₁, hstill.grows.passes, fun x _ => by rw [hd₁.device],
      fun hf => Bool.noConfusion hf, fun _ => ⟨by rw [hd₁.device], fun halloc => ?_⟩⟩
    exact absurd (hopens.mpr halloc.1) Bool.false_ne_true
  | some d =>
    obtain ⟨hd, hsector⟩ := hroot d rfl
    obtain ⟨ok, s₂, hrem, h₂, hpass, hun⟩ := Sound.of_dirRemove h₁ hd hsector name m
    have hkept := (h₁.balanced.of_dirRemove hrem).2
    have hplaced : Placed s₂.device [] (s₂.inode d).sector := by
      rw [(hkept.disk d (h₁.balanced.counted.below d hd)).1]
      exact .inr (.inl hsector)
    obtain ⟨s', hclose, h', hd', hstill'⟩ := Sound.still_close h₂ hplaced
    refine ⟨ok, s', ?_, h', (hstill.passes hpass).still hstill', fun x hx => ?_, fun hok => ?_,
      fun hok => ?_⟩
    · dsimp only
      rw [hrem, bind_ok]
      dsimp only
      rw [hclose, bind_ok]
    · rw [hd'.device, hun.device x (hd₁.spares.elsewhere hx), hd₁.device]
    · rw [hd'.device, ← hd₁.device]
      exact hun.removed hok
    · rw [hd'.device, ← hd₁.device]
      exact ⟨(hun.refused hok).1, fun halloc => (hun.refused hok).2 halloc.2⟩

/-! ## The files -/

/-- The order of the files does not matter. -/
theorem Balanced.perm_files (h : Balanced s l extra) (hp : l.Perm l') : Balanced s l' extra where
  nodup := hp.nodup_iff.mp h.nodup
  opened := fun f => hp.mem_iff.symm.trans (h.opened f)
  below := fun f hf => h.below f (hp.mem_iff.mpr hf)
  counted := h.counted.perm ((hp.filterMap _).append_left extra)
  denied := fun r hr => by rw [h.denied r hr, hp.countP_eq]

theorem Sound.perm_files {fresh : List SectorNo} (h : Sound s l extra fresh) (hp : l.Perm l') :
    Sound s l' extra fresh := by
  refine ⟨h.balanced.perm_files hp, ?_, h.saved, h.laid, h.names, h.agrees, h.removed,
    fun f hf => h.users f (hp.mem_iff.mpr hf)⟩
  obtain ⟨f, r, hf, hm⟩ := h.mapFile
  exact ⟨f, r, hp.mem_iff.mp hf, hm⟩

/-- Only the files have changed, and how they use their inodes. -/
structure FilesOnly (s s' : Files) : Prop extends SameDisk s s' where
  openInodes : s'.openInodes = s.openInodes
  same : ∀ r, (s.inode r).Same (s'.inode r)

/-- Where only files in memory change nothing moves on disk. -/
theorem FilesOnly.still (h : FilesOnly s s') : Still [] s s' :=
  h.toSameDisk.still fun c _ => by
    unfold Files.IsOpen
    rw [h.openInodes]
    exact exists_congr fun r => and_congr_right fun _ => by rw [(h.same r).sector]

/-- The volume stays sound if the files stay balanced. -/
theorem Sound.of_filesOnly {extra' : List InodeRef} (h : Sound s l extra [])
    (hb : Balanced s' l' extra') (hf : FilesOnly s s')
    (hmap : ∀ f, s.freeMapFile = some f → f ∈ l' ∧ s'.file f = s.file f)
    (husers : ∀ f ∈ l', s.freeMapFile ≠ some f → ∀ x, s'.file f = some x → s.Proper x.inode) :
    Sound s' l' extra' [] ∧ Still [] s s' := by
  refine ⟨h.of_tables hb hf.device hf.freeMap hf.pad hf.freeMapFile hmap (fun r _ => hf.same r)
    (fun r hr => .inl (hf.openInodes ▸ hr)) fun f hmem hne x hx => ?_, hf.still⟩
  rw [hf.freeMapFile] at hne
  rw [(hf.same x.inode).sector]
  exact husers f hmem hne x hx

/-- `free_map_file` is one of the open files. -/
theorem Sound.map_mem (h : Sound s l extra []) (hmap : s.freeMapFile = some f) : f ∈ l := by
  obtain ⟨f', r, hf', hm⟩ := h.mapFile
  rw [hm.freeMapFile] at hmap
  cases hmap
  exact hf'

/-- A file gets a reference to an inode. -/
theorem Sound.of_newFile (h : Sound s l (r :: extra) []) (hr : s.Proper r) :
    Sound { s.setFile s.nextFile (some { inode := r, pos := 0, denyWrite := false })
      with nextFile := s.nextFile + 1 } (s.nextFile :: l) extra [] ∧
    Still [] s { s.setFile s.nextFile (some { inode := r, pos := 0, denyWrite := false })
      with nextFile := s.nextFile + 1 } := by
  refine h.of_filesOnly (Balanced.of_newFile h.balanced)
    ⟨⟨rfl, rfl, rfl, rfl⟩, rfl, fun _ => .refl _⟩ (fun f hmap => ?_) fun f hf hne x hx => ?_
  · have hf := h.map_mem hmap
    exact ⟨List.mem_cons_of_mem _ hf, setFile_file_of_ne (Nat.ne_of_lt (h.balanced.below f hf))⟩
  · rcases List.mem_cons.mp hf with rfl | hf
    · have hx' : (s.setFile s.nextFile (some { inode := r, pos := 0, denyWrite := false })).file
          s.nextFile = some x := hx
      rw [setFile_file_self] at hx'
      cases hx'
      exact hr
    · have hx' : (s.setFile s.nextFile (some { inode := r, pos := 0, denyWrite := false })).file f =
          some x := hx
      rw [setFile_file_of_ne (Nat.ne_of_lt (h.balanced.below f hf))] at hx'
      exact h.users f hf hne x hx'

/-- `file_open` keeps the inode, or gives it back. -/
theorem Sound.of_fileOpen {o : Option InodeRef} (h : Sound s l (o.toList ++ extra) [])
    (hproper : ∀ r ∈ o, s.Proper r) (alloc : Bool) :
    ∃ res s', fileOpen o alloc s = .ok (res, s') ∧ Sound s' (res.toList ++ l) extra [] ∧
      Passes [] s s' ∧ MapOnly s.device s'.device ∧
      ((∀ r ∈ o, Placed s.device [] (s.inode r).sector) → SameDisk s s') ∧
      (res = none → alloc = true → o = none) := by
  cases o with
  | none =>
    exact ⟨none, s, rfl, h, (Still.refl s).grows.passes, .refl _, fun _ => .refl s, fun _ _ => rfl⟩
  | some r =>
    cases alloc with
    | true =>
      obtain ⟨h', hstill⟩ := Sound.of_newFile h (hproper r rfl)
      exact ⟨some s.nextFile, _, rfl, h', hstill.grows.passes, .refl _, fun _ => ⟨rfl, rfl, rfl, rfl⟩,
        fun hf => by cases hf⟩
    | false =>
      obtain ⟨s', hx, h', hpass, honly⟩ := Sound.of_inodeClose h
      refine ⟨none, s', ?_, h', hpass, honly, fun hplaced => ?_, fun _ hf => Bool.noConfusion hf⟩
      · show (do let s ← inodeClose (some r) s; .ok (none, s)) = _
        rw [hx, bind_ok]
      · obtain ⟨s₁, hx₁, -, hd⟩ := Sound.close_placed h (hplaced r rfl)
        rw [hx] at hx₁
        cases hx₁
        exact hd

/-- `filesys_open`. -/
theorem Sound.of_filesysOpen (h : Sound s l extra []) (name : List UInt8) (m : Mallocs) :
    ∃ res s', filesysOpen name m s = .ok (res, s') ∧ Sound s' (res.toList ++ l) extra [] ∧
      Passes [] s s' ∧ SameDisk s s' ∧
      (∀ f ∈ res, ∃ r, s'.file f = some { inode := r, pos := 0, denyWrite := false } ∧
        (rootNames s.device).lookup name = some (s'.inode r).sector) ∧
      (res = none → DirOpens m s → m.inode = true → m.file = true →
        (rootNames s.device).lookup name = none) := by
  obtain ⟨o, s₁, hopen, h₁, hd₁, hroot⟩ := h.of_dirOpenRoot m
  have hstill₁ := h.still_dirOpenRoot hopen
  have hopens := dirOpenRoot_isSome hopen
  unfold filesysOpen
  rw [hopen, bind_ok]
  cases o with
  | none =>
    obtain ⟨res, s', hx, h', hpass, -, hdisk, -⟩ :=
      Sound.of_fileOpen (o := none) h₁ (fun r hr => by cases hr) m.file
    have hopened := Balanced.of_fileOpen (o := none) h₁.balanced hx
    refine ⟨res, s', hx, h', hstill₁.passes hpass, hd₁.trans (hdisk fun r hr => by cases hr),
      fun f hf => ?_, fun _ hdir => absurd (hopens.mpr hdir) Bool.false_ne_true⟩
    cases hf
    obtain ⟨r, hr, -⟩ := hopened.2
    cases hr
  | some d =>
    obtain ⟨hd, hsector⟩ := hroot d rfl
    cases hlook : dirLookup d name m s₁ with
    | mk o s₂ =>
      obtain ⟨h₂, hstill₂, hd₂, hsector₂, hproper, hmissing⟩ := h₁.of_dirLookup hd hsector hlook
      have hplaced : Placed s₂.device [] (s₂.inode d).sector := .inr (.inl hsector₂)
      obtain ⟨s₃, hclose, h₃, hd₃, hstill₃⟩ := Sound.still_close (h₂.perm List.perm_middle) hplaced
      obtain ⟨hino, -⟩ := inodeClose_eq_ok hclose
      have hsame : ∀ r, (s₂.inode r).Same (s₃.inode r) := fun r => by
        rw [hino]
        exact same_update (s := s₂) (r := d)
          { s₂.inode d with openCnt := (s₂.inode d).openCnt - 1 } ⟨rfl, rfl, rfl, rfl⟩ r
      have hproper₃ : ∀ r ∈ o, s₃.Proper r := by
        intro r hr
        unfold Files.Proper
        rw [(hsame r).sector]
        exact (hproper r hr).1
      have hdisk₃ := (hd₁.trans hd₂).trans hd₃
      obtain ⟨res, s', hx, h', hpass, -, hdisk, hres⟩ := Sound.of_fileOpen h₃ hproper₃ m.file
      have hopened := Balanced.of_fileOpen h₃.balanced hx
      have hplaced₃ : ∀ r ∈ o, Placed s₃.device [] (s₃.inode r).sector := by
        intro r hr
        have hname := (hproper r hr).2
        rw [hdisk₃.device, (hsame r).sector]
        rw [hd₁.device] at hname
        exact .inr (.inr (.inl (named_of_lookup hname)))
      refine ⟨res, s', ?_, h', ((hstill₁.trans hstill₂).trans hstill₃).passes hpass,
        hdisk₃.trans (hdisk hplaced₃), fun f hf => ?_, fun hnone _ hinode hfile => ?_⟩
      · dsimp only
        rw [hlook]
        dsimp only
        rw [hclose, bind_ok]
        exact hx
      · cases hf
        obtain ⟨-, r, rfl, hr⟩ := hopened
        have hro : r ∈ s₃.openInodes := by
          rw [h₃.balanced.counted.listed]
          exact List.mem_cons_self
        refine ⟨r, ?_, ?_⟩
        · rw [hr.file, Function.update_self]
        · rw [(hr.disk r (h₃.balanced.counted.below r hro)).1, (hsame r).sector, ← hd₁.device]
          exact (hproper r rfl).2
      · rw [← hd₁.device]
        exact hmissing (hres hnone hfile) hinode

/-- `file_reopen`. -/
theorem Sound.of_fileReopen (h : Sound s l extra []) (hf : f ∈ l) (hmap : s.freeMapFile ≠ some f)
    (alloc : Bool) :
    ∃ res s', fileReopen f alloc s = .ok (res, s') ∧ Sound s' (res.toList ++ l) extra [] ∧
      Passes [] s s' ∧ MapOnly s.device s'.device ∧ (res = none → alloc = false) ∧
      ∀ x, s.file f = some x → ∀ g ∈ res,
        s'.file g = some { inode := x.inode, pos := 0, denyWrite := false } := by
  obtain ⟨x, hx⟩ := h.balanced.file_of_mem hf
  have hr := h.balanced.inode_open hf hx
  obtain ⟨hb, -⟩ := h.balanced.of_reopen hr
  have hsame := same_update (s := s) (r := x.inode)
    { s.inode x.inode with openCnt := (s.inode x.inode).openCnt + 1 } ⟨rfl, rfl, rfl, rfl⟩
  have hfiles : FilesOnly s (inodeReopen x.inode s) := ⟨⟨rfl, rfl, rfl, rfl⟩, rfl, hsame⟩
  obtain ⟨h₁, hstill⟩ := h.of_filesOnly hb hfiles (fun g hg => ⟨h.map_mem hg, rfl⟩)
    fun g hg hne y hy => h.users g hg hne y hy
  have hproper : ∀ r ∈ some x.inode, (inodeReopen x.inode s).Proper r := by
    intro r hr
    cases hr
    have hsector : ((inodeReopen x.inode s).inode x.inode).sector = (s.inode x.inode).sector :=
      (hsame x.inode).sector
    unfold Files.Proper
    rw [hsector]
    exact h.users f hf hmap x hx
  obtain ⟨res, s', hopen, h', hpass, honly, -, hres⟩ :=
    Sound.of_fileOpen (o := some x.inode) h₁ hproper alloc
  have hopened := Balanced.of_fileOpen (o := some x.inode) h₁.balanced hopen
  refine ⟨res, s', ?_, h', hstill.passes hpass, honly, fun hnone => ?_, fun y hy g hg => ?_⟩
  · unfold fileReopen
    rw [getFile_eq_ok.mpr hx, bind_ok]
    exact hopen
  · by_contra htrue
    have hno := hres hnone (Bool.not_eq_false _ ▸ htrue)
    cases hno
  · cases hg
    rw [hx] at hy
    cases hy
    obtain ⟨-, r, hr, hnew⟩ := hopened
    cases hr
    rw [hnew.file, Function.update_self]

/-! ## Closing -/

/-- A write does not look at the files. -/
theorem inodeWriteAt_setFile (r : InodeRef) (buffer : Nat → UInt8) (size offset : Int)
    (x : Option File) : inodeWriteAt r buffer size offset (s.setFile f x) =
      ((inodeWriteAt r buffer size offset s).1, (inodeWriteAt r buffer size offset s).2.setFile f x) := by
  unfold inodeWriteAt Files.setFile
  split <;> rfl

/-- Writing the map looks at the map's file alone. -/
theorem bitmapWrite_setFile (hne : s.freeMapFile ≠ some f) (x : Option File) :
    bitmapWrite (s.setFile f x) = ((bitmapWrite s).1, (bitmapWrite s).2.setFile f x) := by
  have hfile : (s.setFile f x).freeMapFile.bind (s.setFile f x).file = s.freeMapFile.bind s.file := by
    show s.freeMapFile.bind _ = _
    cases hmap : s.freeMapFile with
    | none => rfl
    | some g =>
      rw [hmap] at hne
      exact setFile_file_of_ne fun heq => hne (congrArg some heq)
  unfold bitmapWrite
  rw [hfile]
  split
  · rfl
  · dsimp only
    rw [inodeWriteAt_setFile]
    rfl

/-- Giving sectors back looks at the map's file alone. -/
theorem freeMapRelease_setFile (hne : s.freeMapFile ≠ some f) (x : Option File) (c cnt : Nat) :
    freeMapRelease c cnt (s.setFile f x) = (freeMapRelease c cnt s).map (Files.setFile f x) := by
  have hwrite := bitmapWrite_setFile
    (s := { s with freeMap := setMultiple s.freeMap c cnt false }) (f := f) hne x
  unfold freeMapRelease
  show (if c + cnt ≤ s.freeMap.length ∧ ((s.freeMap.drop c).take cnt).all id then
    Except.ok (bitmapWrite (({ s with freeMap := setMultiple s.freeMap c cnt false } :
      Files).setFile f x)).2 else _) = _
  rw [hwrite]
  split <;> rfl

/-- Giving an inode back and dropping a file that is not that of the free map. -/
theorem inodeClose_setFile (hne : s.freeMapFile ≠ some f) (x : Option File) (r : InodeRef) :
    inodeClose (some r) (s.setFile f x) = (inodeClose (some r) s).map (Files.setFile f x) := by
  by_cases hlast : (s.inode r).openCnt - 1 = 0
  · have hdrop : (s.setFile f x).dropInode r = (s.dropInode r).setFile f x := rfl
    have hino : (s.setFile f x).inode r = s.inode r := rfl
    rw [inodeClose_last hlast, inodeClose_last (s := s.setFile f x) hlast, hdrop, hino,
      freeMapRelease_setFile (s := s.dropInode r) hne]
    split
    · cases h₁ : freeMapRelease (s.inode r).sector 1 (s.dropInode r) with
      | error e => rfl
      | ok s₁ =>
        have hmap : s₁.freeMapFile ≠ some f := by
          rw [(freeMapRelease_same h₁).freeMapFile]
          exact hne
        exact freeMapRelease_setFile hmap x _ _
    · rfl
  · unfold inodeClose
    dsimp only
    rw [if_neg hlast]
    show (if (s.inode r).openCnt - 1 = 0 then _ else _) = _
    rw [if_neg hlast]
    rfl

theorem fileAllowWrite_filesOnly (hx : fileAllowWrite f s = .ok s') : FilesOnly s s' := by
  obtain ⟨x, -, hx⟩ := bind_eq_ok.mp hx
  split at hx
  · unfold inodeAllowWrite at hx
    dsimp only at hx
    split at hx
    · cases hx
      exact ⟨⟨rfl, rfl, rfl, rfl⟩, rfl, same_update (s := s) (r := x.inode)
        { s.inode x.inode with denyWriteCnt := (s.inode x.inode).denyWriteCnt - 1 }
        ⟨rfl, rfl, rfl, rfl⟩⟩
    · cases hx
  · cases hx
    exact ⟨.refl s, rfl, fun _ => .refl _⟩

/-- Denying writes changes files and counts in memory. -/
theorem fileDenyWrite_filesOnly (hx : fileDenyWrite f s = .ok s') : FilesOnly s s' := by
  obtain ⟨x, -, hx⟩ := bind_eq_ok.mp hx
  split at hx
  · cases hx
    exact ⟨.refl s, rfl, fun _ => .refl _⟩
  · unfold inodeDenyWrite at hx
    dsimp only at hx
    split at hx
    · cases hx
      exact ⟨⟨rfl, rfl, rfl, rfl⟩, rfl, same_update (s := s) (r := x.inode)
        { s.inode x.inode with denyWriteCnt := (s.inode x.inode).denyWriteCnt + 1 }
        ⟨rfl, rfl, rfl, rfl⟩⟩
    · cases hx

/-- A file that is not that of the free map gets another position or another permission. -/
theorem Sound.of_changedFile {x y : File} (h : Sound s l extra []) (hf : f ∈ l)
    (hmap : s.freeMapFile ≠ some f) (hx : s.file f = some x) (hi : y.inode = x.inode)
    (hb : Balanced s' l extra) (hfiles : FilesOnly s s')
    (hfile : s'.file = Function.update s.file f (some y)) : Sound s' l extra [] ∧ Still [] s s' := by
  refine h.of_filesOnly hb hfiles (fun g hg => ⟨h.map_mem hg, ?_⟩) fun g hg hne z hz => ?_
  · rw [hfile]
    refine Function.update_of_ne ?_ _ _
    rintro rfl
    exact hmap hg
  · rw [hfile] at hz
    by_cases heq : g = f
    · rw [heq, Function.update_self] at hz
      cases hz
      rw [hi]
      exact h.users f hf hmap x hx
    · rw [Function.update_of_ne heq] at hz
      exact h.users g hg hne z hz

/-- Denying writes keeps the volume sound. -/
theorem Sound.of_fileDenyWrite (h : Sound s l extra []) (hf : f ∈ l) (hmap : s.freeMapFile ≠ some f) :
    ∃ s', fileDenyWrite f s = .ok s' ∧ Sound s' l extra [] ∧ Still [] s s' := by
  obtain ⟨x, hx⟩ := h.balanced.file_of_mem hf
  obtain ⟨s', hx', hb, -, hfile, -, -⟩ := fileDenyWrite_ok h.balanced hf hx
  exact ⟨s', hx', h.of_changedFile (y := { x with denyWrite := true }) hf hmap hx rfl hb
    (fileDenyWrite_filesOnly hx') hfile⟩

/-- Allowing writes keeps the volume sound. -/
theorem Sound.of_fileAllowWrite (h : Sound s l extra []) (hf : f ∈ l)
    (hmap : s.freeMapFile ≠ some f) :
    ∃ s', fileAllowWrite f s = .ok s' ∧ Sound s' l extra [] ∧ Still [] s s' := by
  obtain ⟨x, hx⟩ := h.balanced.file_of_mem hf
  obtain ⟨s', hx', hb, -, hfile, -, -⟩ := fileAllowWrite_ok h.balanced hf hx
  exact ⟨s', hx', h.of_changedFile (y := { x with denyWrite := false }) hf hmap hx rfl hb
    (fileAllowWrite_filesOnly hx') hfile⟩

/-- A file that denies no writes is gone, and leaves its reference behind. -/
theorem Balanced.of_dropFile {x : File} (h : Balanced s l extra) (hf : f ∈ l)
    (hx : s.file f = some x) (hdeny : x.denyWrite = false) :
    Balanced (s.setFile f none) (l.erase f) (x.inode :: extra) := by
  have hout := h.not_mem_erase (f := f)
  constructor
  case nodup => exact h.nodup.sublist List.erase_sublist
  case opened =>
    intro g
    rw [List.Nodup.mem_erase_iff h.nodup]
    by_cases heq : g = f
    · rw [heq, setFile_file_self]
      exact ⟨fun hm => absurd rfl hm.1, fun hm => absurd hm Bool.false_ne_true⟩
    · rw [setFile_file_of_ne heq, ← h.opened]
      exact and_iff_right heq
  case below => exact fun g hg => h.below g (List.mem_of_mem_erase hg)
  case counted =>
    rw [inodesOf_setFile hout]
    have hperm : (extra ++ s.inodesOf l).Perm (x.inode :: extra ++ s.inodesOf (l.erase f)) :=
      ((inodesOf_perm_erase hf hx).append_left extra).trans List.perm_middle
    exact (h.counted.perm hperm).of_same rfl rfl fun _ _ => ⟨rfl, rfl⟩
  case denied =>
    intro r hr
    show (s.inode r).denyWriteCnt = _
    rw [h.denied r hr, countP_setFile hout, countP_erase_add hf, deniesOn_eq hx, hdeny,
      Bool.and_false]
    rfl

/-- `file_close`. -/
theorem Sound.of_fileClose (h : Sound s l extra []) (hf : f ∈ l) (hmap : s.freeMapFile ≠ some f) :
    ∃ s', fileClose f s = .ok s' ∧ Sound s' (l.erase f) extra [] ∧ Passes [] s s' ∧
      MapOnly s.device s'.device := by
  obtain ⟨x, hx⟩ := h.balanced.file_of_mem hf
  obtain ⟨s₁, h₁, hb₁, -, hfile, -, -⟩ := fileAllowWrite_ok h.balanced hf hx
  have hfiles := fileAllowWrite_filesOnly h₁
  obtain ⟨hs₁, hstill₁⟩ := h.of_changedFile (y := { x with denyWrite := false }) hf hmap hx rfl hb₁
    hfiles hfile
  have hx₁ : s₁.file f = some { x with denyWrite := false } := by
    rw [hfile, Function.update_self]
  have hmap₁ : s₁.freeMapFile ≠ some f := by
    rw [hfiles.freeMapFile]
    exact hmap
  have hdrop : FilesOnly s₁ (s₁.setFile f none) := ⟨⟨rfl, rfl, rfl, rfl⟩, rfl, fun _ => .refl _⟩
  obtain ⟨hs₂, hstill₂⟩ := hs₁.of_filesOnly (hs₁.balanced.of_dropFile hf hx₁ rfl) hdrop
    (fun g hg => by
      have hne : g ≠ f := by
        rintro rfl
        exact hmap₁ hg
      exact ⟨(List.mem_erase_of_ne hne).mpr (hs₁.map_mem hg), setFile_file_of_ne hne⟩)
    (fun g hg hne y hy => by
      have hgf : g ≠ f := ((List.Nodup.mem_erase_iff h.balanced.nodup).mp hg).1
      rw [setFile_file_of_ne hgf] at hy
      exact hs₁.users g (List.mem_of_mem_erase hg) hne y hy)
  obtain ⟨s₃, hclose, hs₃, hpass, honly⟩ := Sound.of_inodeClose hs₂
  rw [inodeClose_setFile hmap₁] at hclose
  cases h₃ : inodeClose (some x.inode) s₁ with
  | error e =>
    rw [h₃] at hclose
    cases hclose
  | ok s₂ =>
    rw [h₃] at hclose
    cases hclose
    refine ⟨s₂.setFile f none, ?_, hs₃, (hstill₁.trans hstill₂).passes hpass, ?_⟩
    · unfold fileClose
      rw [getFile_eq_ok.mpr hx, bind_ok, h₁, bind_ok, h₃, bind_ok]
    · rw [← hfiles.device]
      exact honly

/-! ## Reading and writing -/

/-- The data of an inode that is neither the free map's nor the root directory's is written. -/
theorem Sound.of_data {device : SectorNo → Sector} (h : Sound s l extra []) (hc : c ∈ s.live [])
    (hmap : c ≠ freeMapSector) (hroot : c ≠ rootDirSector) (hd : DataOnly s.device device c) :
    Sound { s with device := device } l extra [] ∧ Still [] s { s with device := device } := by
  have hinodes : ∀ c' ∈ s.live [], device c' = s.device c' := fun c' hc' => h.laid.inode_eq hc hd hc'
  have hslots : rootSlots device = rootSlots s.device :=
    rootSlots_congr (hinodes _ root_live) fun x hx =>
      h.laid.data_eq hc hd root_live (Ne.symm hroot) hx
  have hsaved : Saved { s with device := device } := by
    obtain ⟨f, r, -, hm⟩ := h.mapFile
    obtain ⟨pad, hpad, hstored⟩ := h.saved
    refine ⟨pad, hpad, hstored.of_same ?_ (hinodes _ map_live) fun x hx =>
      h.laid.data_eq hc hd map_live (Ne.symm hmap) hx⟩
    rw [hm.loaded_length, length_mapBytes hpad]
  have hsame : SameTables s { s with device := device } := ⟨rfl, rfl, rfl, rfl, rfl, rfl⟩
  obtain ⟨h', hlive⟩ := h.of_device hsame rfl rfl hinodes hslots hsaved fun c' hc' x hx => h.laid.marked hc' hx
  exact ⟨h', hlive, rfl, rfl, hinodes⟩

/-- `file_read` and `file_seek` move a position. -/
theorem Sound.of_pos {x : File} (h : Sound s l extra []) (hf : f ∈ l) (hmap : s.freeMapFile ≠ some f)
    (hx : s.file f = some x) (pos : Int) :
    Sound (s.setFile f (some { x with pos := pos })) l extra [] ∧
      Still [] s (s.setFile f (some { x with pos := pos })) :=
  h.of_changedFile (y := { x with pos := pos }) hf hmap hx rfl (h.balanced.of_pos hf hx)
    ⟨⟨rfl, rfl, rfl, rfl⟩, rfl, fun _ => .refl _⟩ rfl

/-- What is written to the inode of a file is data. -/
theorem Sound.dataOnly_write {x : File} (h : Sound s l extra fresh) (hf : f ∈ l)
    (hx : s.file f = some x) {pos : Int} (hpos : 0 ≤ pos) (buffer : Nat → UInt8) (size : Int) :
    DataOnly s.device (inodeWriteAt x.inode buffer size pos s).2.device (s.inode x.inode).sector := by
  obtain ⟨hstart, hlength⟩ := h.agrees x.inode (h.balanced.inode_open hf hx)
  intro y hy
  refine inodeWriteAt_other ?_ hpos fun hin => hy ((hasSector_of_eq hstart hlength).mp hin)
  rw [hlength]
  exact loaded_length_lt _ _

/-- `inode_write_at`, of the inode of a file. -/
theorem Sound.of_inodeWriteAt {x : File} (h : Sound s l extra []) (hf : f ∈ l)
    (hmap : s.freeMapFile ≠ some f) (hx : s.file f = some x) {pos : Int} (hpos : 0 ≤ pos)
    (buffer : Nat → UInt8) (size : Int) :
    Sound (inodeWriteAt x.inode buffer size pos s).2 l extra [] ∧
      Still [] s (inodeWriteAt x.inode buffer size pos s).2 := by
  have hr := h.balanced.inode_open hf hx
  obtain ⟨hm, hroot⟩ := h.users f hf hmap x hx
  have hc : (s.inode x.inode).sector ∈ s.live [] := .inr ⟨x.inode, hr, rfl⟩
  have heq := inodeWriteAt_eq x.inode buffer size pos s
  obtain ⟨h₁, hstill₁⟩ := h.of_data hc hm hroot (h.dataOnly_write hf hx hpos buffer size)
  rw [← heq] at h₁ hstill₁
  exact ⟨h₁, hstill₁⟩

/-- `file_write`. -/
theorem Sound.of_fileWrite {x : File} (h : Sound s l extra []) (hf : f ∈ l)
    (hmap : s.freeMapFile ≠ some f) (hx : s.file f = some x) (hpos : 0 ≤ x.pos)
    (buffer : Nat → UInt8) (size : Int) :
    ∃ written s', fileWrite f buffer size s = .ok (written, s') ∧ Sound s' l extra [] ∧
      Still [] s s' ∧ s'.freeMapFile = s.freeMapFile := by
  obtain ⟨h₁, hstill₁⟩ := h.of_inodeWriteAt hf hmap hx hpos buffer size
  have hsame := inodeWriteAt_same x.inode buffer size x.pos s
  unfold fileWrite
  rw [getFile_eq_ok.mpr hx, bind_ok]
  obtain ⟨h', hstill'⟩ := h₁.of_pos hf (hsame.freeMapFile ▸ hmap) (hsame.file ▸ hx)
    (x.pos + (inodeWriteAt x.inode buffer size x.pos s).1)
  exact ⟨_, _, rfl, h', hstill₁.trans hstill', hsame.freeMapFile⟩

end Pintos.Filesys
