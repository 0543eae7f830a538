import Pintos.Filesys.Histories

/-!
# Switching off and on again

When no file is open but that of the free map, `filesys_done` leaves a device from which
`filesys_init` brings back the file system: the free map, the names, and what is in each file
(`reboot`).
-/

namespace Pintos.Filesys

open Pintos.Lib

variable {s s' : Files} {f : FileRef} {l : List FileRef} {name : List UInt8} {st : FsState}
  {size entryCnt : Nat} {junk junk' : Nat → Bool} {device : SectorNo → Sector}

/-! ## What callers see -/

/-- The names in the root directory, as `dir_readdir` returns them. -/
def fileNames (s : Files) : Except Assertion (List (List UInt8)) := do
  let (d, s) ← dirOpenRoot {} s
  match d with
  | none => .ok []
  | some d => .ok (readdirAll d s (entryCount d s) 0)

/-- The length of a file, and all that is read from it. -/
def readFile (name : List UInt8) (s : Files) : Except Assertion (Option (Int × List UInt8)) := do
  let (f, s) ← filesysOpen name {} s
  match f with
  | none => .ok none
  | some f => do
    let length ← fileLength f s
    let (bytes, _) ← fileRead f length s
    .ok (some (length, bytes))

theorem Sound.fileNames_eq (h : Sound s l [] []) :
    fileNames s = .ok (dirView.keys (rootSlots s.device)) := by
  obtain ⟨o, s₁, hopen, h₁, hd₁, hroot⟩ := h.of_dirOpenRoot {}
  unfold fileNames
  rw [hopen, bind_ok]
  cases o with
  | none =>
    have hopens := (dirOpenRoot_isSome hopen).mpr ⟨rfl, .inl rfl⟩
    exact absurd hopens Bool.false_ne_true
  | some d =>
    obtain ⟨hd, hsector⟩ := hroot d rfl
    obtain ⟨hslots, -⟩ := h₁.root hd hsector
    show Except.ok (readdirAll d s₁ (entryCount d s₁) 0) = _
    rw [readdirAll_zero, hslots, hd₁.device]

/-- All of an inode is read. -/
theorem inodeReadAt_contents {r : InodeRef} {c : SectorNo}
    (hstart : (s.inode r).start = (loaded s.device c).start)
    (hlength : (s.inode r).length = (loaded s.device c).length) :
    inodeReadAt r (s.inode r).length 0 s = contents s.device c := by
  have hreach : (reach (s.inode r) (s.inode r).length 0).toNat = (s.inode r).length.toNat := by
    unfold reach
    omega
  rw [inodeReadAt_eq (Int.le_refl 0), hreach, hlength]
  unfold contents
  refine List.map_congr_left fun i _ => ?_
  rw [Int.zero_add, byteAt_of_start hstart]

theorem Sound.readFile_eq (h : Sound s l [] []) (name : List UInt8) :
    readFile name s = .ok (((rootNames s.device).lookup name).map fun c =>
      ((loaded s.device c).length, contents s.device c)) := by
  obtain ⟨res, s', hopen, h', -, hdisk, hfile, hnone⟩ := h.of_filesysOpen name {}
  unfold readFile
  rw [hopen, bind_ok]
  cases res with
  | none =>
    rw [hnone rfl ⟨rfl, .inl rfl⟩ rfl rfl]
    rfl
  | some f =>
    obtain ⟨r, hx, hname⟩ := hfile f rfl
    have hr : r ∈ s'.openInodes := h'.balanced.inode_open List.mem_cons_self hx
    obtain ⟨hstart, hlength⟩ := h'.agrees r hr
    have hlen : fileLength f s' = .ok (s'.inode r).length := by
      unfold fileLength
      rw [getFile_eq_ok.mpr hx, bind_ok]
    dsimp only
    unfold fileRead
    rw [hlen, bind_ok, getFile_eq_ok.mpr hx, bind_ok, bind_ok]
    dsimp only
    rw [inodeReadAt_contents hstart hlength, hlength, hdisk.device, hname]
    rfl

/-! ## Off and on -/

/-- With no other file open the inode of the free map is the only one in memory. -/
theorem Sound.openInodes_eq {r : InodeRef} (h : Sound s [f] [] []) (hm : MapFile s f r) :
    s.openInodes = [r] := by
  have hrefs : s.inodesOf [f] = [r] := by
    unfold Files.inodesOf
    rw [List.filterMap_cons, hm.file]
    rfl
  have hlisted := h.balanced.counted.listed
  rw [hrefs, List.nil_append] at hlisted
  have hperm : s.openInodes.Perm [r] :=
    (List.perm_ext_iff_of_nodup h.balanced.counted.nodup (List.nodup_singleton r)).mpr hlisted
  exact List.perm_singleton.mp hperm

theorem Sound.of_filesysDone (h : Sound s [f] [] []) :
    ∃ s', filesysDone s = .ok s' ∧ s'.device = s.device := by
  obtain ⟨f', r, hf, hm⟩ := h.mapFile
  rw [List.mem_singleton.mp hf] at hm
  have hopen := h.openInodes_eq hm
  have hr : r ∈ s.openInodes := by
    rw [hopen]
    exact List.mem_singleton_self r
  have hremoved : (s.inode r).removed = false := by
    rw [← Bool.not_eq_true, h.removed r hr]
    exact not_not_intro (.inl hm.sector)
  obtain ⟨s', hx, -, hdevice, -⟩ := freeMapClose_idle h.balanced hm hopen hremoved
  exact ⟨s', hx, hdevice⟩

/-- `filesys_init` of the device of a sound file system. -/
theorem Sound.of_filesysInit (h : Sound s l [] []) (hpad : Padded s) (junk : Nat → Bool) :
    ∃ s' f, filesysInit s.freeMap.length junk s.device = .ok s' ∧ Sound s' [f] [] [] ∧
      s'.device = s.device ∧ s'.freeMap = s.freeMap := by
  obtain ⟨f, r, -, hm⟩ := h.mapFile
  obtain ⟨pad, hlen, hstored⟩ := h.saved
  have hsize : (freeMapInit s.freeMap.length junk (bootFiles s.device)).freeMap.length =
      s.freeMap.length := by
    unfold freeMapInit
    rw [List.length_set, List.length_set, List.length_replicate]
  have hpadded : pad.length = (freeMapInit s.freeMap.length junk (bootFiles s.device)).pad.length := by
    unfold Padded at hpad
    unfold freeMapInit
    rw [hlen, hpad, List.length_map, List.length_range]
  have hfile : bitmapFileSize (freeMapInit s.freeMap.length junk (bootFiles s.device)).freeMap =
      bitmapFileSize s.freeMap := by
    unfold bitmapFileSize
    rw [hsize]
  have hwhole := hpad.whole rfl hlen
  have hvolume : Volume (freeMapInit s.freeMap.length junk (bootFiles s.device)) s.freeMap pad := by
    refine ⟨bootFiles_idle _ _ _, hsize.symm, hpadded, ?_, ?_, hstored, ?_, h.names⟩
    · rw [hfile, hwhole]
    · show (loaded s.device freeMapSector).length = _
      rw [hfile, hm.loaded_length, ← hwhole, length_mapBytes hlen]
    · exact h.laid.drop _ (fun c hc => .inl hc) rfl fun c hc x hx => h.laid.marked (.inl hc) hx
  obtain ⟨s', hopen, hs', hdevice, hmap, -⟩ := hvolume.freeMapOpen
  exact ⟨s', _, hopen, hs', hdevice, hmap⟩

/-! ## After any history -/

/-- The free map stays as large as it was. -/
theorem padded_of_passes (h : Padded s) (hp : Passes [] s s') : Padded s' := by
  unfold Padded at h ⊢
  rw [hp.pad, hp.size, h]

/-- What is known after a history. -/
theorem FsSound.of_history (hsize : 2 ≤ size) (hsmall : size < 2 ^ 32)
    (hformat : filesysFormat size junk entryCnt device = .ok s)
    (h : Reach (Steps fsStep) { fs := s, files := [] } st) :
    FsSound st ∧ Padded st.fs ∧ st.fs.freeMap.length = size := by
  obtain ⟨-, hlen, -⟩ := filesysFormat_sound hsize hsmall hformat
  refine h.invariant (P := fun st => FsSound st ∧ Padded st.fs ∧ st.fs.freeMap.length = size)
    ⟨fsSound_formatted hsize hsmall hformat, filesysFormat_padded hsize hsmall hformat, hlen⟩ ?_
  rintro st op st' ⟨hst, hpad, hlen⟩ hstep
  obtain ⟨hst', hp⟩ := hst.of_fsStep hstep
  exact ⟨hst', padded_of_passes hpad hp, hp.size.trans hlen⟩

/-- Mounting a device that a history has left, with all files closed. -/
theorem fsSound_mounted {s₁ s₂ : Files} {junk' : Nat → Bool} (hsize : 2 ≤ size) (hsmall : size < 2 ^ 32)
    (hformat : filesysFormat size junk entryCnt device = .ok s)
    (h : Reach (Steps fsStep) { fs := s, files := [] } st) (hclosed : st.files = [])
    (hdone : filesysDone st.fs = .ok s₁) (hinit : filesysInit size junk' s₁.device = .ok s₂) :
    FsSound { fs := s₂, files := [] } := by
  obtain ⟨hst, hpad, hlen⟩ := FsSound.of_history hsize hsmall hformat h
  obtain ⟨f, -, hs⟩ := hst.sound
  rw [hclosed] at hs
  obtain ⟨s₁', hdone', hdevice⟩ := hs.of_filesysDone
  rw [hdone] at hdone'
  cases hdone'
  obtain ⟨s₂', f₂, hinit', hs₂, -⟩ := hs.of_filesysInit hpad junk'
  rw [hlen, ← hdevice, hinit] at hinit'
  cases hinit'
  exact hs₂.fsSound

/-- After any history the file of the free map has the map that is in memory. Where all files have been
closed, `filesys_done` and then `filesys_init` bring back the free map, the names, and the length and
the bytes of every file. -/
theorem reboot (hsize : 2 ≤ size) (hsmall : size < 2 ^ 32)
    (hformat : filesysFormat size junk entryCnt device = .ok s)
    (h : Reach (Steps fsStep) { fs := s, files := [] } st) :
    bitsOf (contents st.fs.device freeMapSector) st.fs.freeMap.length = st.fs.freeMap ∧
    (st.files = [] → ∀ junk', ∃ s₁ s₂, filesysDone st.fs = .ok s₁ ∧
      filesysInit size junk' s₁.device = .ok s₂ ∧ s₂.freeMap = st.fs.freeMap ∧
      (∃ names, fileNames st.fs = .ok names ∧ fileNames s₂ = .ok names) ∧
      ∀ name, ∃ file, readFile name st.fs = .ok file ∧ readFile name s₂ = .ok file) := by
  obtain ⟨hst, hpad, hlen⟩ := FsSound.of_history hsize hsmall hformat h
  obtain ⟨f, -, hs⟩ := hst.sound
  refine ⟨hs.bitsOf_contents, fun hclosed junk' => ?_⟩
  rw [hclosed] at hs
  obtain ⟨s₁, hdone, hdevice₁⟩ := hs.of_filesysDone
  obtain ⟨s₂, f₂, hinit, hs₂, hdevice₂, hmap⟩ := hs.of_filesysInit hpad junk'
  rw [hlen] at hinit
  refine ⟨s₁, s₂, hdone, hdevice₁.symm ▸ hinit, hmap, ⟨_, hs.fileNames_eq, ?_⟩, fun name =>
    ⟨_, hs.readFile_eq name, ?_⟩⟩
  · rw [hs₂.fileNames_eq, hdevice₂]
  · rw [hs₂.readFile_eq name, hdevice₂]

/-- A byte is written to a new file. -/
def oneByte : List FsOp :=
  [.create nameA 1 {}, .open nameA {}, .write 2 (fun _ => 7) 1, .close 2]

theorem reboot_oneByte : ∃ s st, filesysFormat 8 (fun _ => false) 16 (fun _ _ => 0) = .ok s ∧
    Reach (Steps fsStep) { fs := s, files := [] } st ∧
    readFile [97] st.fs = .ok (some (1, [7])) ∧
    ∃ s₁ s₂, filesysDone st.fs = .ok s₁ ∧ filesysInit 8 (fun _ => true) s₁.device = .ok s₂ ∧
      s₂.freeMap = st.fs.freeMap ∧ readFile [97] s₂ = .ok (some (1, [7])) := by
  have heval : (do
      let s ← filesysFormat 8 (fun _ => false) 16 (fun _ _ => 0)
      .ok ((replay fsStep (fun _ _ => true) oneByte { fs := s, files := [] }).map fun st =>
        st.files.isEmpty && (readFile [97] st.fs).toOption == some (some (1, [7]))) :
          Except Assertion (Option Bool)).toOption = some (some true) := by
    decide +kernel
  obtain ⟨s, hformat, hrun⟩ := bind_eq_ok.mp (eq_ok_of_toOption heval)
  have hrun := Except.ok.inj hrun
  obtain ⟨st, hst, htest⟩ := exists_of_replay fsStep (fun _ _ => true) oneByte
    { fs := s, files := [] }
    (fun st => st.files.isEmpty && (readFile [97] st.fs).toOption == some (some (1, [7]))) hrun
  obtain ⟨hclosed, hread⟩ := Bool.and_eq_true_iff.mp htest
  have hread := eq_ok_of_toOption (beq_iff_eq.mp hread)
  obtain ⟨-, hboot⟩ := reboot (by decide) (by decide) hformat hst.reach
  obtain ⟨s₁, s₂, hdone, hinit, hmap, -, hfiles⟩ :=
    hboot (List.isEmpty_iff.mp hclosed) fun _ => true
  obtain ⟨file, hfile, hfile'⟩ := hfiles [97]
  rw [hread] at hfile
  cases hfile
  exact ⟨s, st, hformat, hst.reach, hread, s₁, s₂, hdone, hinit, hmap, hfile'⟩

end Pintos.Filesys
