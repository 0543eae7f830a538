import Pintos.Filesys.Histories

/-!
# What the file system is for

A store of files: names for files, bytes for each file, and handles, each with a file and a position
in it. A file is there as long as it has a name or a handle. `StoreStep` says what a call does to it;
of the device it knows for which sizes there is room. The calls that leave the bytes of the files
alone are shown here to do the same.
-/

namespace Pintos.Filesys

open Pintos.Lib

/-! ## The store -/

/-- An open file. -/
structure Handle where
  file : Nat
  pos : Int
  denyWrite : Bool
  deriving DecidableEq, Repr

structure FileStore where
  names : NameMap
  data : Nat → List UInt8
  handles : FileRef → Option Handle

namespace FileStore

variable (t : FileStore)

/-- No name, no handle. -/
def empty : FileStore := { names := ∅, data := fun _ => [], handles := fun _ => none }

/-- The file has a name or a handle. -/
def Alive (i : Nat) : Prop :=
  (∃ name, t.names.lookup name = some i) ∨ ∃ f h, t.handles f = some h ∧ h.file = i

/-- Someone denies writes to the file. -/
def Denied (i : Nat) : Prop := ∃ f h, t.handles f = some h ∧ h.file = i ∧ h.denyWrite = true

def setHandle (f : FileRef) (h : Option Handle) : FileStore :=
  { t with handles := Function.update t.handles f h }

/-- How much there is of a file from the position of a handle on, up to `size`. -/
def extent (h : Handle) (size : Int) : Nat := (min size ((t.data h.file).length - h.pos)).toNat

/-- The handle `f` goes on by `n` bytes. -/
def advance (f : FileRef) (h : Handle) (n : Nat) : FileStore :=
  t.setHandle f (some { h with pos := h.pos + n })

end FileStore

/-- `n` bytes of a buffer, put in at `pos`. -/
def overwrite (b : List UInt8) (pos n : Nat) (buffer : Nat → UInt8) : List UInt8 :=
  b.mapIdx fun i x => if pos ≤ i ∧ i < pos + n then buffer (i - pos) else x

theorem length_overwrite (b : List UInt8) (pos n : Nat) (buffer : Nat → UInt8) :
    (overwrite b pos n buffer).length = b.length := List.length_mapIdx

/-- The bytes in the window are the new ones, the others the old. -/
theorem getElem_overwrite {b : List UInt8} {pos n i : Nat} {buffer : Nat → UInt8} (hi : i < b.length)
    (hi' : i < (overwrite b pos n buffer).length) : (overwrite b pos n buffer)[i] =
      if pos ≤ i ∧ i < pos + n then buffer (i - pos) else b[i] := by
  simp only [overwrite, List.getElem_mapIdx]

/-- What a call does to a store with room for `cap` names, and for new files of the sizes in `room`. A
call for which there is no memory may fail, and changes nothing. -/
inductive StoreStep (cap : Nat) (room : Int → Prop) (t : FileStore) :
    FsOp → FsAnswer → FileStore → Prop
  | created {name : CString} {size : Int32} {m : Mallocs} {i : Nat} :
      0 ≤ size.toInt → room size.toInt → ValidName name → name.1 ∉ t.names →
      t.names.keys.card < cap → ¬ t.Alive i →
      StoreStep cap room t (.create name size m) (.success true)
        { t with
          names := t.names.insert name i
          data := Function.update t.data i (List.replicate size.toInt.toNat 0) }
  | notCreated {name : CString} {size : Int32} {m : Mallocs} :
      (m = {} → 0 ≤ size.toInt → room size.toInt → ValidName name → name.1 ∉ t.names →
        cap ≤ t.names.keys.card) →
      StoreStep cap room t (.create name size m) (.success false) t
  | opened {name : CString} {m : Mallocs} {i : Nat} {f : FileRef} :
      t.names.lookup name.1 = some i → t.handles f = none →
      StoreStep cap room t (.open name m) (.file (some f))
        (t.setHandle f (some { file := i, pos := 0, denyWrite := false }))
  | notOpened {name : CString} {m : Mallocs} : (m = {} → name.1 ∉ t.names) →
      StoreStep cap room t (.open name m) (.file none) t
  | removed {name : CString} {m : Mallocs} : name.1 ∈ t.names →
      StoreStep cap room t (.remove name m) (.success true) { t with names := t.names.erase name.1 }
  | notRemoved {name : CString} {m : Mallocs} : (m = {} → name.1 ∉ t.names) →
      StoreStep cap room t (.remove name m) (.success false) t
  | reopened {f g : FileRef} {h : Handle} {alloc : Bool} : t.handles f = some h →
      t.handles g = none →
      StoreStep cap room t (.reopen f alloc) (.file (some g))
        (t.setHandle g (some { file := h.file, pos := 0, denyWrite := false }))
  | notReopened {f : FileRef} {h : Handle} : t.handles f = some h →
      StoreStep cap room t (.reopen f false) (.file none) t
  | closed {f : FileRef} {h : Handle} : t.handles f = some h →
      StoreStep cap room t (.close f) .done (t.setHandle f none)
  | read {f : FileRef} {h : Handle} {size : Int32} : t.handles f = some h →
      StoreStep cap room t (.read f size)
        (.bytes (((t.data h.file).drop h.pos.toNat).take (t.extent h size.toInt)))
        (t.advance f h (t.extent h size.toInt))
  | written {f : FileRef} {h : Handle} {buffer : Nat → UInt8} {size : Int32} :
      t.handles f = some h → ¬ t.Denied h.file →
      StoreStep cap room t (.write f buffer size) (.number (t.extent h size.toInt))
        { t.advance f h (t.extent h size.toInt) with
          data := Function.update t.data h.file
            (overwrite (t.data h.file) h.pos.toNat (t.extent h size.toInt) buffer) }
  | notWritten {f : FileRef} {h : Handle} {buffer : Nat → UInt8} {size : Int32} :
      t.handles f = some h → t.Denied h.file →
      StoreStep cap room t (.write f buffer size) (.number 0) t
  | readAt {f : FileRef} {h : Handle} {size : Int32} {fileOfs : Fin (2 ^ 31)} :
      t.handles f = some h →
      StoreStep cap room t (.readAt f size fileOfs)
        (.bytes (((t.data h.file).drop fileOfs).take (t.extent { h with pos := fileOfs } size.toInt)))
        t
  | writtenAt {f : FileRef} {h : Handle} {buffer : Nat → UInt8} {size : Int32}
      {fileOfs : Fin (2 ^ 31)} : t.handles f = some h → ¬ t.Denied h.file →
      StoreStep cap room t (.writeAt f buffer size fileOfs)
        (.number (t.extent { h with pos := fileOfs } size.toInt))
        { t with
          data := Function.update t.data h.file (overwrite (t.data h.file) fileOfs
            (t.extent { h with pos := fileOfs } size.toInt) buffer) }
  | notWrittenAt {f : FileRef} {h : Handle} {buffer : Nat → UInt8} {size : Int32}
      {fileOfs : Fin (2 ^ 31)} : t.handles f = some h → t.Denied h.file →
      StoreStep cap room t (.writeAt f buffer size fileOfs) (.number 0) t
  | length {f : FileRef} {h : Handle} : t.handles f = some h →
      StoreStep cap room t (.length f) (.number (t.data h.file).length) t
  | sought {f : FileRef} {h : Handle} {newPos : Int32} : t.handles f = some h →
      0 ≤ newPos.toInt →
      StoreStep cap room t (.seek f newPos) .done (t.setHandle f (some { h with pos := newPos.toInt }))
  | told {f : FileRef} {h : Handle} : t.handles f = some h →
      StoreStep cap room t (.tell f) (.number h.pos) t
  | denied {f : FileRef} {h : Handle} : t.handles f = some h →
      StoreStep cap room t (.denyWrite f) .done (t.setHandle f (some { h with denyWrite := true }))
  | allowed {f : FileRef} {h : Handle} : t.handles f = some h →
      StoreStep cap room t (.allowWrite f) .done (t.setHandle f (some { h with denyWrite := false }))

/-! ## What of the file system is the store -/

def Files.handle (s : Files) (x : File) : Handle where
  file := (s.inode x.inode).sector
  pos := x.pos
  denyWrite := x.denyWrite

/-- The handles of callers. -/
def FsState.handles (st : FsState) (f : FileRef) : Option Handle :=
  if f ∈ st.files then (st.fs.file f).map st.fs.handle else none

/-- The file system holds the store: a file is the sector of its inode. -/
structure HoldsStore (cap : Nat) (st : FsState) (t : FileStore) : Prop where
  sound : FsSound st
  size : (rootSlots st.fs.device).length = cap
  names : rootNames st.fs.device = t.names
  data : ∀ i, t.Alive i → contents st.fs.device i = t.data i
  handles : st.handles = t.handles

variable {t t' : FileStore} {st st' : FsState} {s s' : Files} {f g : FileRef} {l : List FileRef}
  {extra : List InodeRef} {r : InodeRef} {c : SectorNo} {cap : Nat} {x : File}

/-- Files with a name or a handle have live inodes, other than those of the volume itself. -/
theorem FsSound.live (h : FsSound st) {i : Nat} (hi : Named st.fs.device i ∨
    ∃ f ∈ st.files, ∃ x, st.fs.file f = some x ∧ (st.fs.inode x.inode).sector = i) :
    i ∈ st.fs.live [] ∧ i ≠ freeMapSector ∧ i ≠ rootDirSector := by
  obtain ⟨f₀, -, hs⟩ := h.sound
  rcases hi with hnamed | ⟨f, hf, x, hx, rfl⟩
  · exact ⟨.inl (.inr (.inr (.inl hnamed))), hs.names.proper i (.inl hnamed)⟩
  · have hmem := List.mem_cons_of_mem f₀ hf
    exact ⟨.inr ⟨x.inode, hs.balanced.inode_open hmem hx, rfl⟩,
      hs.users f hmem (h.not_map hf) x hx⟩

/-- A handle shows the file it stands for. -/
theorem FsState.handles_of_mem (hf : f ∈ st.files) (hx : st.fs.file f = some x) :
    st.handles f = some (st.fs.handle x) := by
  unfold FsState.handles
  rw [if_pos hf, hx]
  rfl

/-- There is a handle for each open file, and for nothing else. -/
theorem FsState.handles_eq_some {h : Handle} : st.handles f = some h ↔
    f ∈ st.files ∧ ∃ x, st.fs.file f = some x ∧ st.fs.handle x = h := by
  unfold FsState.handles
  split
  next hf =>
    rw [Option.map_eq_some_iff]
    exact (and_iff_right hf).symm
  next hf => exact iff_of_false (fun hno => by cases hno) fun hno => hf hno.1

/-- A file that is there is an inode that is there. -/
theorem HoldsStore.live (h : HoldsStore cap st t) {i : Nat} (hi : t.Alive i) :
    i ∈ st.fs.live [] ∧ i ≠ freeMapSector ∧ i ≠ rootDirSector := by
  refine h.sound.live (hi.imp ?_ ?_)
  · rintro ⟨name, hname⟩
    rw [← h.names] at hname
    exact named_of_lookup hname
  · rintro ⟨f, hd, hf, rfl⟩
    rw [← h.handles] at hf
    obtain ⟨hmem, x, hx, rfl⟩ := FsState.handles_eq_some.mp hf
    exact ⟨f, hmem, x, hx, rfl⟩

/-- What is elsewhere on the device stays, and so what files have. -/
theorem HoldsStore.data_elsewhere (h : HoldsStore cap st t)
    (hd : ∀ x, st.fs.Elsewhere x → s'.device x = st.fs.device x) {i : Nat} (hi : t.Alive i) :
    contents s'.device i = t.data i := by
  obtain ⟨f₀, -, hs⟩ := h.sound.sound
  obtain ⟨hlive, hmap, hroot⟩ := h.live hi
  rw [← h.data i hi]
  exact contents_congr (hd i (hs.inode_elsewhere hlive)) fun x hx =>
    hd x (hs.data_elsewhere hlive hmap hroot hx)

/-- The size of the root directory is on its sector. -/
theorem rootSlots_size {device device' : SectorNo → Sector}
    (h : device' rootDirSector = device rootDirSector) :
    (rootSlots device').length = (rootSlots device).length := by
  unfold rootSlots
  rw [length_slots, length_slots, loaded_congr h]

/-- A call that leaves alone what is elsewhere. -/
theorem HoldsStore.of_elsewhere (h : HoldsStore cap st t) (hs : FsSound st')
    (hd : ∀ x, st.fs.Elsewhere x → st'.fs.device x = st.fs.device x)
    (hnames : rootNames st'.fs.device = t'.names) (hhandles : st'.handles = t'.handles)
    (hdata : ∀ i, t'.Alive i → (t.Alive i ∧ t'.data i = t.data i) ∨
      contents st'.fs.device i = t'.data i) : HoldsStore cap st' t' := by
  obtain ⟨f₀, -, hsound⟩ := h.sound.sound
  refine ⟨hs, ?_, hnames, fun i hi => ?_, hhandles⟩
  · rw [rootSlots_size (hd _ (hsound.inode_elsewhere root_live)), h.size]
  · rcases hdata i hi with ⟨halive, hsame⟩ | heq
    · rw [hsame, h.data_elsewhere hd halive]
    · exact heq

/-! ## Handles -/

/-- Inodes stay on the disk where they were. -/
theorem FsSound.handle_eq (h : FsSound st) (hk : DiskKept st.fs s') (hf : f ∈ st.files)
    (hx : st.fs.file f = some x) : s'.handle x = st.fs.handle x := by
  obtain ⟨f₀, -, hs⟩ := h.sound
  have hr := hs.balanced.inode_open (List.mem_cons_of_mem f₀ hf) hx
  unfold Files.handle
  rw [(hk.disk x.inode (hs.balanced.counted.below _ hr)).1]

/-- What keeps the open files keeps the handles. -/
theorem FsSound.handles_kept (h : FsSound st) (hk : Kept st.fs s') :
    FsState.handles { st with fs := s' } = st.handles := by
  funext f
  unfold FsState.handles
  dsimp only
  split
  next hf =>
    rw [hk.file]
    cases hx : st.fs.file f with
    | none => rfl
    | some x => exact congrArg some (h.handle_eq hk.toDiskKept hf hx)
  next => rfl

/-- One file is opened, changed or closed. -/
theorem FsSound.handles_update {o : Option File} (h : FsSound st) (hk : DiskKept st.fs s')
    (hfile : s'.file = Function.update st.fs.file f o) (hl : ∀ g, g ≠ f → (g ∈ l ↔ g ∈ st.files))
    (hf : o = none ∨ f ∈ l) :
    FsState.handles { fs := s', files := l } = Function.update st.handles f (o.map s'.handle) := by
  funext g
  unfold FsState.handles
  dsimp only
  rw [hfile]
  by_cases heq : g = f
  · subst heq
    rw [Function.update_self, Function.update_self]
    rcases hf with rfl | hf
    · exact ite_self _
    · exact if_pos hf
  · rw [Function.update_of_ne heq, Function.update_of_ne heq, if_congr (hl g heq) rfl rfl]
    split
    next hg =>
      cases hx : st.fs.file g with
      | none => rfl
      | some x => exact congrArg some (h.handle_eq hk hg hx)
    next => rfl

/-- A file that is opened is one handle more. -/
theorem FsSound.handles_opened (h : FsSound st) (ho : Opened st.fs s' f r) :
    FsState.handles { fs := s', files := f :: st.files } = Function.update st.handles f
      (some { file := (s'.inode r).sector, pos := 0, denyWrite := false }) :=
  h.handles_update ho.toDiskKept ho.file
    (fun _ hne => ⟨fun hg => (List.mem_cons.mp hg).resolve_left hne, List.mem_cons_of_mem f⟩)
    (.inr List.mem_cons_self)

/-- A new file has a new handle. -/
theorem FsSound.handles_fresh (h : FsSound st) (ho : Opened st.fs s' f r) : st.handles f = none := by
  obtain ⟨f₀, -, hs⟩ := h.sound
  unfold FsState.handles
  refine if_neg fun hf => ?_
  have hlt := hs.balanced.below f (List.mem_cons_of_mem f₀ hf)
  rw [ho.fresh] at hlt
  exact Nat.lt_irrefl _ hlt

/-- A file whose position changes is one handle changed. -/
theorem FsSound.handles_moved (h : FsSound st) (hk : DiskKept st.fs s') (hf : f ∈ st.files)
    (hfile : s'.file = Function.update st.fs.file f (some x)) :
    FsState.handles { st with fs := s' } = Function.update st.handles f (some (s'.handle x)) :=
  h.handles_update (o := some x) hk hfile (fun _ _ => Iff.rfl) (.inr hf)

/-! ## Which files there are -/

namespace FileStore

/-- A file with a name is alive. -/
theorem alive_of_name {name : List UInt8} {i : Nat} (h : t.names.lookup name = some i) : t.Alive i :=
  .inl ⟨name, h⟩

/-- A file that is open is alive. -/
theorem alive_of_handle {h : Handle} (hf : t.handles f = some h) : t.Alive h.file :=
  .inr ⟨f, h, hf, rfl⟩

/-- A handle of a file that is there adds no file. -/
theorem alive_setHandle {o : Option Handle} {i : Nat} (ho : ∀ h ∈ o, t.Alive h.file)
    (hi : (t.setHandle f o).Alive i) : t.Alive i := by
  rcases hi with hname | ⟨g, h, hg, rfl⟩
  · exact .inl hname
  · have hg' : Function.update t.handles f o g = some h := hg
    by_cases heq : g = f
    · rw [heq, Function.update_self] at hg'
      exact ho h hg'
    · rw [Function.update_of_ne heq] at hg'
      exact alive_of_handle hg'

/-- Nor does dropping a name. -/
theorem alive_erase {name : List UInt8} {i : Nat}
    (hi : ({ t with names := t.names.erase name } : FileStore).Alive i) : t.Alive i := by
  rcases hi with ⟨name', hname⟩ | hhandle
  · by_cases heq : name' = name
    · rw [heq, Finmap.lookup_erase] at hname
      cases hname
    · rw [Finmap.lookup_erase_ne heq] at hname
      exact alive_of_name hname
  · exact .inr hhandle

/-- A new name adds its file. -/
theorem alive_insert {name : List UInt8} {i j : Nat} {data : Nat → List UInt8}
    (hi : ({ t with names := t.names.insert name j, data := data } : FileStore).Alive i) :
    i = j ∨ t.Alive i := by
  rcases hi with ⟨name', hname⟩ | hhandle
  · by_cases heq : name' = name
    · rw [heq, Finmap.lookup_insert] at hname
      exact .inl (Option.some.inj hname).symm
    · rw [Finmap.lookup_insert_of_ne _ heq] at hname
      exact .inr (alive_of_name hname)
  · exact .inr (.inr hhandle)

end FileStore

/-! ## The calls -/

/-- Whatever the call does, the store does as well, with the room there is on the device. -/
def StepHolds (cap : Nat) (op : FsOp) (st : FsState) (t : FileStore) : Prop :=
  ∀ a st', fsCall op st = .ok (a, st') →
    ∃ t', StoreStep cap (HasRoom st.fs.freeMap) t op a t' ∧ HoldsStore cap st' t'

/-- A call that changes no more than a handle. -/
theorem HoldsStore.of_setHandle {o : Option Handle} (h : HoldsStore cap st t) (hs : FsSound st')
    (hd : ∀ x, st.fs.Elsewhere x → st'.fs.device x = st.fs.device x)
    (hnames : rootNames st'.fs.device = rootNames st.fs.device)
    (hhandles : st'.handles = Function.update st.handles f o) (ho : ∀ h ∈ o, t.Alive h.file) :
    HoldsStore cap st' (t.setHandle f o) := by
  refine h.of_elsewhere hs hd (hnames.trans h.names) ?_ fun i hi =>
    .inl ⟨FileStore.alive_setHandle ho hi, rfl⟩
  rw [hhandles, h.handles]
  rfl

/-- A call that changes nothing. -/
theorem HoldsStore.of_same (h : HoldsStore cap st t) (hs : FsSound st')
    (hd : ∀ x, st.fs.Elsewhere x → st'.fs.device x = st.fs.device x)
    (hnames : rootNames st'.fs.device = rootNames st.fs.device)
    (hhandles : st'.handles = st.handles) : HoldsStore cap st' t :=
  h.of_elsewhere hs hd (hnames.trans h.names) (hhandles.trans h.handles) fun _ hi => .inl ⟨hi, rfl⟩

/-- There is room for a name as long as there are fewer names than slots. -/
theorem HoldsStore.canAdd_iff {name : List UInt8} (h : HoldsStore cap st t) :
    CanAdd (rootSlots st.fs.device) name ↔
      ValidName name ∧ name ∉ t.names ∧ t.names.keys.card < cap := by
  obtain ⟨f₀, -, hs⟩ := h.sound.sound
  have hnames : dirView.map (rootSlots st.fs.device) = t.names := h.names
  have hroom := hs.names.names.findIdx_lt
  rw [hnames, h.size] at hroom
  unfold CanAdd
  rw [hnames, h.size]
  exact and_congr_right fun _ => and_congr_right fun _ => hroom

/-- With memory for all of it the root directory is opened. -/
theorem dirOpens_of_mallocs (s : Files) : DirOpens {} s := ⟨rfl, .inl rfl⟩

/-- A creation makes an empty file of its size, or says why not. -/
theorem HoldsStore.of_create (h : HoldsStore cap st t) (name : CString) (size : Int32) (m : Mallocs) :
    StepHolds cap (.create name size m) st t := by
  intro a st' hcall
  have hs' := h.sound.of_fsCall hcall
  obtain ⟨f₀, -, hs⟩ := h.sound.sound
  dsimp only [fsCall] at hcall
  obtain ⟨⟨ok, s'⟩, hx, hcall⟩ := bind_eq_ok.mp hcall
  cases hcall
  have hhandles := h.sound.handles_kept (hs.balanced.of_filesysCreate hx).2
  by_cases hsize : 0 ≤ size.toInt
  · obtain ⟨ok', s'', hx', -, hd, hmade, hfail, hok, -⟩ :=
      hs.filesysCreate_grows m hsize size.toInt_lt name.2
    rw [hx] at hx'
    cases hx'
    cases ok with
    | false =>
      refine ⟨t, .notCreated fun hm _ hroom hvalid hnew => Nat.le_of_not_lt fun hcard => ?_,
        h.of_same hs' hd ?_ hhandles⟩
      · rw [hm] at hok
        exact Bool.false_ne_true
          (hok.mpr ⟨dirOpens_of_mallocs _, hroom, h.canAdd_iff.mpr ⟨hvalid, hnew, hcard⟩⟩)
      · unfold rootNames
        rw [(hfail rfl).1]
    | true =>
      obtain ⟨hroom, hcan, c, hc, hnames, hcontents⟩ := hmade rfl
      obtain ⟨hvalid, hnew, hcard⟩ := h.canAdd_iff.mp hcan
      have hdead : ¬ t.Alive c := fun halive => hc (h.live halive).1
      refine ⟨_, .created hsize hroom hvalid hnew hcard hdead, h.of_elsewhere hs' hd ?_
        (hhandles.trans h.handles) fun i hi => ?_⟩
      · rw [← h.names]
        exact hnames
      · dsimp only
        rcases FileStore.alive_insert hi with rfl | halive
        · rw [Function.update_self]
          exact .inr hcontents
        · have hne : i ≠ c := fun heq => hdead (heq ▸ halive)
          rw [Function.update_of_ne hne]
          exact .inl ⟨halive, rfl⟩
  · rcases hs.filesysCreate_negative (Int.not_le.mp hsize) name.1 m with
      hx' | ⟨s'', hx', -, hdisk, -⟩
    · rw [hx] at hx'
      cases hx'
    · rw [hx] at hx'
      cases hx'
      refine ⟨t, .notCreated fun _ hnonneg => absurd hnonneg hsize,
        h.of_same hs' (fun x _ => ?_) ?_ hhandles⟩
      · dsimp only
        rw [hdisk.device]
      · dsimp only
        rw [hdisk.device]

/-- Opening gives a new handle on the file of the name. -/
theorem HoldsStore.of_open (h : HoldsStore cap st t) (name : CString) (m : Mallocs) :
    StepHolds cap (.open name m) st t := by
  intro a st' hcall
  have hs' := h.sound.of_fsCall hcall
  obtain ⟨f₀, -, hs⟩ := h.sound.sound
  dsimp only [fsCall] at hcall
  obtain ⟨⟨res, s'⟩, hx, hcall⟩ := bind_eq_ok.mp hcall
  cases hcall
  obtain ⟨res', s'', hx', -, -, hdisk, hfile, hnone⟩ := hs.of_filesysOpen name.1 m
  rw [hx] at hx'
  cases hx'
  have hd : ∀ x, st.fs.Elsewhere x → s'.device x = st.fs.device x := fun x _ => by rw [hdisk.device]
  have hnames : rootNames s'.device = rootNames st.fs.device := by rw [hdisk.device]
  have hnew := hs.balanced.of_filesysOpen hx
  cases res with
  | none =>
    refine ⟨t, .notOpened fun hm => ?_, h.of_same hs' hd hnames (h.sound.handles_kept hnew.2)⟩
    subst hm
    rw [← h.names, ← Finmap.lookup_eq_none]
    exact hnone rfl (dirOpens_of_mallocs _) rfl rfl
  | some f =>
    obtain ⟨-, r, hr⟩ := hnew
    obtain ⟨r', hx', hlookup⟩ := hfile f rfl
    rw [hr.file, Function.update_self] at hx'
    cases hx'
    rw [h.names] at hlookup
    refine ⟨_, .opened hlookup ?_, h.of_setHandle hs' hd hnames (h.sound.handles_opened hr) ?_⟩
    · rw [← h.handles, h.sound.handles_fresh hr]
    · rintro hd ⟨⟩
      exact FileStore.alive_of_name hlookup

/-- Removing takes the name, and leaves the file to those who have it open. -/
theorem HoldsStore.of_remove (h : HoldsStore cap st t) (name : CString) (m : Mallocs) :
    StepHolds cap (.remove name m) st t := by
  intro a st' hcall
  have hs' := h.sound.of_fsCall hcall
  obtain ⟨f₀, -, hs⟩ := h.sound.sound
  dsimp only [fsCall] at hcall
  obtain ⟨⟨ok, s'⟩, hx, hcall⟩ := bind_eq_ok.mp hcall
  cases hcall
  obtain ⟨ok', s'', hx', -, -, hun⟩ := hs.of_filesysRemove name.1 m
  rw [hx] at hx'
  cases hx'
  have hhandles := h.sound.handles_kept (hs.balanced.of_filesysRemove hx).2
  cases ok with
  | true =>
    obtain ⟨hmem, hnames⟩ := hun.removed rfl
    rw [h.names] at hmem hnames
    exact ⟨_, .removed hmem, h.of_elsewhere hs' hun.device hnames (hhandles.trans h.handles)
      fun i hi => .inl ⟨FileStore.alive_erase hi, rfl⟩⟩
  | false =>
    obtain ⟨hnames, hmissing⟩ := hun.refused rfl
    refine ⟨t, .notRemoved fun hm => ?_, h.of_same hs' hun.device hnames hhandles⟩
    subst hm
    rw [← h.names]
    exact hmissing ⟨dirOpens_of_mallocs _, rfl⟩

/-- The handle of a caller that has the file open. -/
theorem HoldsStore.handle (h : HoldsStore cap st t) (hf : f ∈ st.files) (hx : st.fs.file f = some x) :
    t.handles f = some (st.fs.handle x) := by
  rw [← h.handles, FsState.handles_of_mem hf hx]

/-- Reopening gives a second handle, at position 0. -/
theorem HoldsStore.of_reopen (h : HoldsStore cap st t) (f : FileRef) (alloc : Bool) :
    StepHolds cap (.reopen f alloc) st t := by
  intro a st' hcall
  have hs' := h.sound.of_fsCall hcall
  obtain ⟨f₀, -, hs⟩ := h.sound.sound
  dsimp only [fsCall] at hcall
  split at hcall
  next hf =>
    have hmem := List.mem_cons_of_mem f₀ hf
    obtain ⟨⟨res, s'⟩, hx, hcall⟩ := bind_eq_ok.mp hcall
    cases hcall
    obtain ⟨x, hfile⟩ := hs.balanced.file_of_mem hmem
    obtain ⟨res', s'', hx', -, -, honly, hnone, hnew⟩ :=
      hs.of_fileReopen hmem (h.sound.not_map hf) alloc
    rw [hx] at hx'
    cases hx'
    have hd : ∀ x, st.fs.Elsewhere x → s'.device x = st.fs.device x := fun x hx => honly x hx.2.1
    have hnames : rootNames s'.device = rootNames st.fs.device :=
      congrArg dirView.map (Sound.rootSlots_mapOnly hs honly)
    have hhandle : t.handles f = some (st.fs.handle x) := h.handle hf hfile
    have hopened := hs.balanced.of_fileReopen hmem hx
    cases res with
    | none =>
      rw [hnone rfl]
      exact ⟨t, .notReopened hhandle, h.of_same hs' hd hnames (h.sound.handles_kept hopened.2)⟩
    | some g =>
      obtain ⟨-, r, hr⟩ := hopened
      have hg := hnew x hfile g rfl
      rw [hr.file, Function.update_self] at hg
      cases hg
      have hlt := hs.balanced.counted.below _ (hs.balanced.inode_open hmem hfile)
      have hhandles := h.sound.handles_opened hr
      rw [(hr.disk _ hlt).1] at hhandles
      have halive := FileStore.alive_of_handle hhandle
      refine ⟨_, .reopened hhandle ?_, h.of_setHandle hs' hd hnames hhandles ?_⟩
      · rw [← h.handles, h.sound.handles_fresh hr]
      · rintro hd ⟨⟩
        exact halive
  next => cases hcall

/-- Closing takes the handle, and with the last one an unnamed file. -/
theorem HoldsStore.of_close (h : HoldsStore cap st t) (f : FileRef) : StepHolds cap (.close f) st t := by
  intro a st' hcall
  have hs' := h.sound.of_fsCall hcall
  obtain ⟨f₀, -, hs⟩ := h.sound.sound
  dsimp only [fsCall] at hcall
  split at hcall
  next hf =>
    have hmem := List.mem_cons_of_mem f₀ hf
    obtain ⟨s', hx, hcall⟩ := bind_eq_ok.mp hcall
    cases hcall
    obtain ⟨x, hfile⟩ := hs.balanced.file_of_mem hmem
    obtain ⟨s'', hx', -, -, honly⟩ := hs.of_fileClose hmem (h.sound.not_map hf)
    rw [hx] at hx'
    cases hx'
    obtain ⟨-, hk, hgone, -, -⟩ := hs.balanced.of_fileClose hmem hx
    have hnodup := (List.nodup_cons.mp hs.balanced.nodup).2
    have hhandles := h.sound.handles_update (l := st.files.erase f) hk hgone
      (fun g hne => List.mem_erase_of_ne hne) (.inl rfl)
    refine ⟨_, .closed (h.handle hf hfile), h.of_setHandle hs' (fun x hx => honly x hx.2.1)
      (congrArg dirView.map (Sound.rootSlots_mapOnly hs honly)) hhandles ?_⟩
    rintro hd ⟨⟩
  next => cases hcall

/-- A call that moves or marks a handle and leaves the device alone. -/
theorem HoldsStore.of_moved {y : File} (h : HoldsStore cap st t)
    (hs : FsSound { st with fs := s' }) (hf : f ∈ st.files) (hx : st.fs.file f = some x)
    (hd : s'.device = st.fs.device) (hk : DiskKept st.fs s')
    (hfile : s'.file = Function.update st.fs.file f (some y)) (hi : y.inode = x.inode) :
    HoldsStore cap { st with fs := s' } (t.setHandle f (some { st.fs.handle x with
      pos := y.pos, denyWrite := y.denyWrite })) := by
  obtain ⟨f₀, -, hsound⟩ := h.sound.sound
  have hlt := hsound.balanced.counted.below _
    (hsound.balanced.inode_open (List.mem_cons_of_mem f₀ hf) hx)
  have hhandle : s'.handle y = { st.fs.handle x with pos := y.pos, denyWrite := y.denyWrite } := by
    unfold Files.handle
    rw [hi, (hk.disk _ hlt).1]
  refine h.of_setHandle hs (fun x _ => congrFun hd x) (congrArg rootNames hd) ?_ ?_
  · rw [← hhandle]
    exact h.sound.handles_moved hk hf hfile
  · have halive := FileStore.alive_of_handle (h.handle hf hx)
    rintro hd ⟨⟩
    exact halive

/-- Seeking changes the position, and asserts that it is not negative. -/
theorem HoldsStore.of_seek (h : HoldsStore cap st t) (f : FileRef) (newPos : Int32) :
    StepHolds cap (.seek f newPos) st t := by
  intro a st' hcall
  have hs' := h.sound.of_fsCall hcall
  obtain ⟨f₀, -, hs⟩ := h.sound.sound
  dsimp only [fsCall] at hcall
  split at hcall
  next hf =>
    obtain ⟨s', hx, hcall⟩ := bind_eq_ok.mp hcall
    cases hcall
    obtain ⟨x, hget, hx⟩ := bind_eq_ok.mp hx
    have hfile := getFile_eq_ok.mp hget
    split at hx
    next hpos =>
      cases hx
      exact ⟨_, .sought (h.handle hf hfile) hpos, h.of_moved (y := { x with pos := newPos.toInt }) hs'
        hf hfile rfl (.of_eq rfl rfl) rfl rfl⟩
    next => cases hx
  next => cases hcall

/-- Denying concerns the file of the handle. -/
theorem HoldsStore.of_denyWrite (h : HoldsStore cap st t) (f : FileRef) :
    StepHolds cap (.denyWrite f) st t := by
  intro a st' hcall
  have hs' := h.sound.of_fsCall hcall
  obtain ⟨f₀, -, hs⟩ := h.sound.sound
  dsimp only [fsCall] at hcall
  split at hcall
  next hf =>
    have hmem := List.mem_cons_of_mem f₀ hf
    obtain ⟨s', hx, hcall⟩ := bind_eq_ok.mp hcall
    cases hcall
    obtain ⟨x, hfile⟩ := hs.balanced.file_of_mem hmem
    obtain ⟨s'', hx', -, hk, hfile', -, -⟩ := fileDenyWrite_ok hs.balanced hmem hfile
    rw [hx] at hx'
    cases hx'
    exact ⟨_, .denied (h.handle hf hfile), h.of_moved (y := { x with denyWrite := true }) hs' hf hfile
      (fileDenyWrite_filesOnly hx).device hk hfile' rfl⟩
  next => cases hcall

theorem HoldsStore.of_allowWrite (h : HoldsStore cap st t) (f : FileRef) :
    StepHolds cap (.allowWrite f) st t := by
  intro a st' hcall
  have hs' := h.sound.of_fsCall hcall
  obtain ⟨f₀, -, hs⟩ := h.sound.sound
  dsimp only [fsCall] at hcall
  split at hcall
  next hf =>
    have hmem := List.mem_cons_of_mem f₀ hf
    obtain ⟨s', hx, hcall⟩ := bind_eq_ok.mp hcall
    cases hcall
    obtain ⟨x, hfile⟩ := hs.balanced.file_of_mem hmem
    obtain ⟨s'', hx', -, hk, hfile', -, -⟩ := fileAllowWrite_ok hs.balanced hmem hfile
    rw [hx] at hx'
    cases hx'
    exact ⟨_, .allowed (h.handle hf hfile), h.of_moved (y := { x with denyWrite := false }) hs' hf
      hfile (fileAllowWrite_filesOnly hx).device hk hfile' rfl⟩
  next => cases hcall

/-- Telling the position changes nothing. -/
theorem HoldsStore.of_tell (h : HoldsStore cap st t) (f : FileRef) : StepHolds cap (.tell f) st t := by
  intro a st' hcall
  dsimp only [fsCall] at hcall
  split at hcall
  next hf =>
    obtain ⟨n, hx, hcall⟩ := bind_eq_ok.mp hcall
    cases hcall
    obtain ⟨x, hget, hx⟩ := bind_eq_ok.mp hx
    cases hx
    exact ⟨t, .told (h.handle hf (getFile_eq_ok.mp hget)), h⟩
  next => cases hcall

end Pintos.Filesys
