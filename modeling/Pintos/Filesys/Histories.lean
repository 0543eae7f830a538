import Pintos.Lib.Run
import Pintos.Filesys.Removing

/-!
# Histories of a file system

Callers create, open, remove, reopen and close files, and read and write those they have open, at
their position or at an offset. After any history no sector belongs to two inodes, what an inode has
is marked in the free map, and it is given back when the inode has neither a name nor an opener
(`sectors_apart`).
-/

namespace Pintos.Filesys

open Pintos.Lib

/-- A call of the file system, with which of its allocations succeed. An `off_t` has 32 bits. No
caller reads or writes at a negative offset. -/
inductive FsOp where
  | create (name : CString) (initialSize : Int32) (m : Mallocs)
  | open (name : CString) (m : Mallocs)
  | remove (name : CString) (m : Mallocs)
  | reopen (f : FileRef) (alloc : Bool)
  | close (f : FileRef)
  | read (f : FileRef) (size : Int32)
  | write (f : FileRef) (buffer : Nat → UInt8) (size : Int32)
  | readAt (f : FileRef) (size : Int32) (fileOfs : Fin (2 ^ 31))
  | writeAt (f : FileRef) (buffer : Nat → UInt8) (size : Int32) (fileOfs : Fin (2 ^ 31))
  | length (f : FileRef)
  | seek (f : FileRef) (newPos : Int32)
  | tell (f : FileRef)
  | denyWrite (f : FileRef)
  | allowWrite (f : FileRef)

inductive FsAnswer where
  | success (ok : Bool)
  | file (f : Option FileRef)
  | bytes (b : List UInt8)
  | number (n : Int)
  | done
  deriving DecidableEq, Repr

/-- The file system, and the files that callers have open. -/
structure FsState where
  fs : Files
  files : List FileRef

/-- A call. Callers use no file but those they have open. -/
def fsCall (op : FsOp) (st : FsState) : Except Assertion (FsAnswer × FsState) :=
  match op with
  | .create name initialSize m => do
    let (ok, s) ← filesysCreate name initialSize.toInt m st.fs
    .ok (.success ok, { st with fs := s })
  | .open name m => do
    let (f, s) ← filesysOpen name m st.fs
    .ok (.file f, { fs := s, files := f.toList ++ st.files })
  | .remove name m => do
    let (ok, s) ← filesysRemove name m st.fs
    .ok (.success ok, { st with fs := s })
  | .reopen f alloc =>
    if f ∈ st.files then do
      let (f', s) ← fileReopen f alloc st.fs
      .ok (.file f', { fs := s, files := f'.toList ++ st.files })
    else .error .notEnabled
  | .close f =>
    if f ∈ st.files then do
      let s ← fileClose f st.fs
      .ok (.done, { fs := s, files := st.files.erase f })
    else .error .notEnabled
  | .read f size =>
    if f ∈ st.files then do
      let (b, s) ← fileRead f size.toInt st.fs
      .ok (.bytes b, { st with fs := s })
    else .error .notEnabled
  | .write f buffer size =>
    if f ∈ st.files then do
      let (n, s) ← fileWrite f buffer size.toInt st.fs
      .ok (.number n, { st with fs := s })
    else .error .notEnabled
  | .readAt f size fileOfs =>
    if f ∈ st.files then do
      let b ← fileReadAt f size.toInt fileOfs st.fs
      .ok (.bytes b, st)
    else .error .notEnabled
  | .writeAt f buffer size fileOfs =>
    if f ∈ st.files then do
      let (n, s) ← fileWriteAt f buffer size.toInt fileOfs st.fs
      .ok (.number n, { st with fs := s })
    else .error .notEnabled
  | .length f =>
    if f ∈ st.files then do
      let n ← fileLength f st.fs
      .ok (.number n, st)
    else .error .notEnabled
  | .seek f newPos =>
    if f ∈ st.files then do
      let s ← fileSeek f newPos.toInt st.fs
      .ok (.done, { st with fs := s })
    else .error .notEnabled
  | .tell f =>
    if f ∈ st.files then do
      let n ← fileTell f st.fs
      .ok (.number n, st)
    else .error .notEnabled
  | .denyWrite f =>
    if f ∈ st.files then do
      let s ← fileDenyWrite f st.fs
      .ok (.done, { st with fs := s })
    else .error .notEnabled
  | .allowWrite f =>
    if f ∈ st.files then do
      let s ← fileAllowWrite f st.fs
      .ok (.done, { st with fs := s })
    else .error .notEnabled

/-- The state after a call. -/
def fsStep (op : FsOp) (st : FsState) : Except Assertion FsState := (fsCall op st).map Prod.snd

variable {st st' : FsState} {op : FsOp} {s s' : Files} {f : FileRef} {l : List FileRef}

/-! ## The invariant -/

/-- The file of the free map is open, and no other that callers do not have. -/
structure FsSound (st : FsState) : Prop where
  sound : ∃ f, st.fs.freeMapFile = some f ∧ Sound st.fs (f :: st.files) [] []
  pos : ∀ f x, st.fs.file f = some x → 0 ≤ x.pos

/-- The file of the free map is none of the open ones. -/
theorem FsSound.not_map (h : FsSound st) (hf : f ∈ st.files) : st.fs.freeMapFile ≠ some f := by
  obtain ⟨g, hmap, hs⟩ := h.sound
  rw [hmap]
  rintro heq
  cases heq
  exact (List.nodup_cons.mp hs.balanced.nodup).1 hf

/-- The file of the free map goes before those that are new. -/
theorem sound_append (o : Option FileRef) (h : Sound s (o.toList ++ f :: l) [] []) :
    Sound s (f :: (o.toList ++ l)) [] [] := h.perm_files List.perm_middle

/-- The calls that leave the files as they are. -/
theorem FsSound.of_kept (h : FsSound st) (hk : Kept st.fs s')
    (hs : ∀ f, st.fs.freeMapFile = some f → Sound s' (f :: st.files) [] []) :
    FsSound { st with fs := s' } := by
  obtain ⟨f, hmap, -⟩ := h.sound
  refine ⟨⟨f, hk.freeMapFile.trans hmap, hs f hmap⟩, fun g x hx => ?_⟩
  have hfile : s'.file = st.fs.file := hk.file
  rw [hfile] at hx
  exact h.pos g x hx

/-- The calls that may open a file. -/
theorem FsSound.of_opened {o : Option FileRef} (h : FsSound st)
    (hnew : match o with
      | some f => ∃ r, Opened st.fs s' f r
      | none => Kept st.fs s')
    (hs : ∀ f, st.fs.freeMapFile = some f → Sound s' (o.toList ++ f :: st.files) [] []) :
    FsSound { fs := s', files := o.toList ++ st.files } := by
  obtain ⟨f, hmap, -⟩ := h.sound
  cases o with
  | none => exact h.of_kept hnew hs
  | some g =>
    obtain ⟨r, hr⟩ := hnew
    refine ⟨⟨f, hr.freeMapFile.trans hmap, sound_append (some g) (hs f hmap)⟩, fun g' x hx => ?_⟩
    have hx' : s'.file g' = some x := hx
    rw [hr.file] at hx'
    by_cases heq : g' = g
    · rw [heq, Function.update_self] at hx'
      cases hx'
      exact Int.le_refl 0
    · rw [Function.update_of_ne heq] at hx'
      exact h.pos g' x hx'

/-- The calls that change one file. -/
theorem FsSound.of_moved {x : File} (h : FsSound st) (hpos : 0 ≤ x.pos)
    (hmap : s'.freeMapFile = st.fs.freeMapFile)
    (hfile : s'.file = Function.update st.fs.file f (some x))
    (hs : ∀ f, st.fs.freeMapFile = some f → Sound s' (f :: st.files) [] []) :
    FsSound { st with fs := s' } := by
  obtain ⟨g, hg, -⟩ := h.sound
  refine ⟨⟨g, hmap.trans hg, hs g hg⟩, fun g' y hy => ?_⟩
  have hy' : s'.file g' = some y := hy
  rw [hfile] at hy'
  by_cases heq : g' = f
  · rw [heq, Function.update_self] at hy'
    cases hy'
    exact hpos
  · rw [Function.update_of_ne heq] at hy'
    exact h.pos g' y hy'

/-- `filesys_create` of a file that would be shorter than nothing gets as far as `inode_create`, if
it gets there. -/
theorem Sound.filesysCreate_negative {size : Int} (h : Sound s l [] []) (hsize : size < 0)
    (name : List UInt8) (m : Mallocs) :
    filesysCreate name size m s = .error .length ∨
      ∃ s', filesysCreate name size m s = .ok (false, s') ∧ Sound s' l [] [] ∧ SameDisk s s' ∧
        Still [] s s' := by
  obtain ⟨o, s₁, hopen, h₁, hd₁, hroot⟩ := h.of_dirOpenRoot m
  have hstill₁ := h.still_dirOpenRoot hopen
  unfold filesysCreate
  rw [hopen, bind_ok]
  cases o with
  | none => exact .inr ⟨s₁, rfl, h₁, hd₁, hstill₁⟩
  | some d =>
    obtain ⟨hd, hsector⟩ := hroot d rfl
    dsimp only
    cases halloc : freeMapAllocate 1 s₁ with
    | mk o s₂ =>
      cases o with
      | none =>
        have hsame := freeMapAllocate_none h₁.ready halloc
        subst hsame
        obtain ⟨s', hclose, h', hd', hstill'⟩ := Sound.still_close h₁ (.inr (.inl hsector))
        refine .inr ⟨s', ?_, h', hd₁.trans hd', hstill₁.trans hstill'⟩
        dsimp only
        rw [hclose, bind_ok]
      | some c =>
        refine .inl ?_
        dsimp only
        unfold inodeCreate
        rw [if_pos hsize]
        rfl

/-- A call goes through, or is refused: a caller does not have the file, or a number is negative. -/
def Settles (op : FsOp) (st : FsState) : Prop :=
  (∃ a st', fsCall op st = .ok (a, st') ∧ FsSound st' ∧ Passes [] st.fs st'.fs) ∨
    ∃ e, fsCall op st = .error e ∧ e ∈ [.notEnabled, .newPos, .length]

/-- A call that returns settles by the state it leaves. -/
theorem Settles.of_ok (a : FsAnswer) (st' : FsState) (hx : fsCall op st = .ok (a, st'))
    (hs : FsSound st') (hp : Passes [] st.fs st'.fs) : Settles op st := .inl ⟨a, st', hx, hs, hp⟩

/-- A call that panics does so at one of three assertions. -/
theorem Settles.of_error {e : Assertion} (hx : fsCall op st = .error e)
    (he : e ∈ [.notEnabled, .newPos, .length]) : Settles op st := .inr ⟨e, hx, he⟩

/-- A creation reads and writes the root directory, the free map and the new inode. -/
theorem FsSound.of_create (h : FsSound st) (name : CString) (size : Int32) (m : Mallocs) :
    Settles (.create name size m) st := by
  obtain ⟨f, hmap, hs⟩ := h.sound
  by_cases hsize : 0 ≤ size.toInt
  · obtain ⟨ok, s', hx, h', -, -, -, -, hgrows⟩ :=
      hs.filesysCreate_grows m hsize size.toInt_lt name.2
    have hk := (hs.balanced.of_filesysCreate hx).2
    refine .of_ok (.success ok) { st with fs := s' } ?_
      (h.of_kept hk fun g hg => ?_) hgrows.passes
    · dsimp only [fsCall]
      rw [hx, bind_ok]
    · rw [hmap] at hg
      cases hg
      exact h'
  · rcases hs.filesysCreate_negative (Int.not_le.mp hsize) name.1 m with
      hx | ⟨s', hx, h', -, hstill⟩
    · refine .of_error (e := .length) ?_ (by decide)
      dsimp only [fsCall]
      rw [hx]
      rfl
    · have hk := (hs.balanced.of_filesysCreate hx).2
      refine .of_ok (.success false) { st with fs := s' } ?_
        (h.of_kept hk fun g hg => ?_) hstill.grows.passes
      · dsimp only [fsCall]
        rw [hx, bind_ok]
      · rw [hmap] at hg
        cases hg
        exact h'

/-- Opening adds an opener and a file. -/
theorem FsSound.of_open (h : FsSound st) (name : CString) (m : Mallocs) :
    Settles (.open name m) st := by
  obtain ⟨f, hmap, hs⟩ := h.sound
  obtain ⟨res, s', hx, h', hpass, -⟩ := hs.of_filesysOpen name.1 m
  have hnew := hs.balanced.of_filesysOpen hx
  refine .of_ok (.file res) { fs := s', files := res.toList ++ st.files } ?_
    (h.of_opened (o := res) ?_ fun g hg => ?_) hpass
  · dsimp only [fsCall]
    rw [hx, bind_ok]
  · cases res with
    | none => exact hnew.2
    | some g => exact hnew.2
  · rw [hmap] at hg
    cases hg
    exact h'

/-- Removing marks the inode, and frees its sectors if nobody has it open. -/
theorem FsSound.of_remove (h : FsSound st) (name : CString) (m : Mallocs) :
    Settles (.remove name m) st := by
  obtain ⟨f, hmap, hs⟩ := h.sound
  obtain ⟨ok, s', hx, h', hpass, -⟩ := hs.of_filesysRemove name.1 m
  have hk := (hs.balanced.of_filesysRemove hx).2
  refine .of_ok (.success ok) { st with fs := s' } ?_
    (h.of_kept hk fun g hg => ?_) hpass
  · dsimp only [fsCall]
    rw [hx, bind_ok]
  · rw [hmap] at hg
    cases hg
    exact h'

/-- A call that goes on only with a file that is open. -/
theorem Settles.of_mem {α : Type} {x : Except Assertion α} {g : α → FsAnswer × FsState}
    (hcall : fsCall op st = if f ∈ st.files then x >>= fun a => .ok (g a) else .error .notEnabled)
    (hok : f ∈ st.files → (∃ a, x = .ok a ∧ FsSound (g a).2 ∧ Passes [] st.fs (g a).2.fs) ∨
      ∃ e, x = .error e ∧ e ∈ [Assertion.notEnabled, .newPos, .length]) : Settles op st := by
  by_cases hf : f ∈ st.files
  · rw [if_pos hf] at hcall
    rcases hok hf with ⟨a, hx, hs, hp⟩ | ⟨e, hx, he⟩
    · rw [hx, bind_ok] at hcall
      exact .of_ok _ _ hcall hs hp
    · rw [hx] at hcall
      exact .of_error hcall he
  · rw [if_neg hf] at hcall
    exact .of_error hcall (by decide)

/-- Reopening adds an opener and a file. -/
theorem FsSound.of_reopen (h : FsSound st) (f : FileRef) (alloc : Bool) :
    Settles (.reopen f alloc) st := by
  obtain ⟨g, hmap, hs⟩ := h.sound
  refine .of_mem (f := f) (x := fileReopen f alloc st.fs)
    (g := fun y => (.file y.1, { fs := y.2, files := y.1.toList ++ st.files })) rfl fun hf => .inl ?_
  obtain ⟨res, s', hx, h', hpass, -⟩ :=
    hs.of_fileReopen (List.mem_cons_of_mem _ hf) (h.not_map hf) alloc
  have hnew := hs.balanced.of_fileReopen (List.mem_cons_of_mem _ hf) hx
  refine ⟨(res, s'), hx, h.of_opened (o := res) ?_ fun g' hg => ?_, hpass⟩
  · cases res with
    | none => exact hnew.2
    | some g => exact hnew.2
  · rw [hmap] at hg
    cases hg
    exact h'

/-- Closing takes a file and an opener away, and frees a removed inode with the last. -/
theorem FsSound.of_close (h : FsSound st) (f : FileRef) : Settles (.close f) st := by
  obtain ⟨g, hmap, hs⟩ := h.sound
  refine .of_mem (f := f) (x := fileClose f st.fs)
    (g := fun y => (.done, { fs := y, files := st.files.erase f })) rfl fun hf => .inl ?_
  obtain ⟨s', hx, h', hpass, -⟩ := hs.of_fileClose (List.mem_cons_of_mem _ hf) (h.not_map hf)
  obtain ⟨-, -, hfile, -, hmap'⟩ := hs.balanced.of_fileClose (List.mem_cons_of_mem _ hf) hx
  have hne : g ≠ f := by
    rintro rfl
    exact h.not_map hf hmap
  rw [List.erase_cons_tail (by rw [beq_iff_eq]; exact hne)] at h'
  refine ⟨s', hx, ⟨⟨g, hmap'.trans hmap, h'⟩, fun g' y hy => ?_⟩, hpass⟩
  have hy' : s'.file g' = some y := hy
  rw [hfile] at hy'
  by_cases heq : g' = f
  · rw [heq, Function.update_self] at hy'
    cases hy'
  · rw [Function.update_of_ne heq] at hy'
    exact h.pos g' y hy'

/-- Reading moves a position, and nothing on disk. -/
theorem FsSound.of_read (h : FsSound st) (f : FileRef) (size : Int32) : Settles (.read f size) st := by
  obtain ⟨g, hmap, hs⟩ := h.sound
  refine .of_mem (f := f) (x := fileRead f size.toInt st.fs)
    (g := fun y => (.bytes y.1, { st with fs := y.2 })) rfl fun hf => .inl ?_
  obtain ⟨x, hx⟩ := hs.balanced.file_of_mem (List.mem_cons_of_mem _ hf)
  have hpos := h.pos f x hx
  obtain ⟨h', hstill⟩ := hs.of_pos (List.mem_cons_of_mem _ hf) (h.not_map hf) hx
    (x.pos + (inodeReadAt x.inode size.toInt x.pos st.fs).length)
  refine ⟨(inodeReadAt x.inode size.toInt x.pos st.fs, st.fs.setFile f (some { x with
    pos := x.pos + (inodeReadAt x.inode size.toInt x.pos st.fs).length })), ?_, ?_, hstill.grows.passes⟩
  · unfold fileRead
    rw [getFile_eq_ok.mpr hx, bind_ok]
  · refine h.of_moved (f := f) (x := { x with
      pos := x.pos + (inodeReadAt x.inode size.toInt x.pos st.fs).length }) ?_ rfl rfl fun g' hg => ?_
    · dsimp only
      omega
    · rw [hmap] at hg
      cases hg
      exact h'

/-- Writing changes data sectors of the one file. -/
theorem FsSound.of_write (h : FsSound st) (f : FileRef) (buffer : Nat → UInt8) (size : Int32) :
    Settles (.write f buffer size) st := by
  obtain ⟨g, hmap, hs⟩ := h.sound
  refine .of_mem (f := f) (x := fileWrite f buffer size.toInt st.fs)
    (g := fun y => (.number y.1, { st with fs := y.2 })) rfl fun hf => .inl ?_
  obtain ⟨x, hx⟩ := hs.balanced.file_of_mem (List.mem_cons_of_mem _ hf)
  have hpos := h.pos f x hx
  obtain ⟨n, s', hw, h', hstill, hmap'⟩ :=
    hs.of_fileWrite (List.mem_cons_of_mem _ hf) (h.not_map hf) hx hpos buffer size.toInt
  obtain ⟨-, y, hmoved, hn, -⟩ := fileWrite_eq_ok hs.balanced (List.mem_cons_of_mem _ hf) hw
  have hnonneg := inodeWriteAt_nonneg y.inode buffer size.toInt y.pos st.fs
  rw [← hn] at hnonneg
  have hypos := h.pos f y hmoved.opened
  refine ⟨(n, s'), hw, h.of_moved (f := f) (x := { y with pos := y.pos + n }) ?_ hmap' hmoved.file
    fun g' hg => ?_, hstill.grows.passes⟩
  · dsimp only
    omega
  · rw [hmap] at hg
    cases hg
    exact h'

/-- Reading at an offset does not even move the position. -/
theorem FsSound.of_readAt (h : FsSound st) (f : FileRef) (size : Int32) (fileOfs : Fin (2 ^ 31)) :
    Settles (.readAt f size fileOfs) st := by
  obtain ⟨g, hmap, hs⟩ := h.sound
  refine .of_mem (f := f) (x := fileReadAt f size.toInt fileOfs st.fs) (g := fun b => (.bytes b, st))
    rfl fun hf => .inl ?_
  obtain ⟨x, hx⟩ := hs.balanced.file_of_mem (List.mem_cons_of_mem _ hf)
  refine ⟨inodeReadAt x.inode size.toInt fileOfs st.fs, ?_, h, (Still.refl _).grows.passes⟩
  unfold fileReadAt
  rw [getFile_eq_ok.mpr hx, bind_ok]

/-- Writing at an offset changes data sectors of the one file. -/
theorem FsSound.of_writeAt (h : FsSound st) (f : FileRef) (buffer : Nat → UInt8) (size : Int32)
    (fileOfs : Fin (2 ^ 31)) : Settles (.writeAt f buffer size fileOfs) st := by
  obtain ⟨g, hmap, hs⟩ := h.sound
  refine .of_mem (f := f) (x := fileWriteAt f buffer size.toInt fileOfs st.fs)
    (g := fun y => (.number y.1, { st with fs := y.2 })) rfl fun hf => .inl ?_
  obtain ⟨x, hx⟩ := hs.balanced.file_of_mem (List.mem_cons_of_mem _ hf)
  obtain ⟨h', hstill⟩ := hs.of_inodeWriteAt (List.mem_cons_of_mem _ hf) (h.not_map hf) hx
    (Int.natCast_nonneg fileOfs) buffer size.toInt
  have hsame := inodeWriteAt_same x.inode buffer size.toInt fileOfs st.fs
  refine ⟨inodeWriteAt x.inode buffer size.toInt fileOfs st.fs, ?_,
    ⟨⟨g, hsame.freeMapFile.trans hmap, h'⟩, fun g' y hy => ?_⟩, hstill.grows.passes⟩
  · unfold fileWriteAt
    rw [getFile_eq_ok.mpr hx, bind_ok]
  · have hy' : (inodeWriteAt x.inode buffer size.toInt fileOfs st.fs).2.file g' = some y := hy
    rw [hsame.file] at hy'
    exact h.pos g' y hy'

theorem FsSound.of_length (h : FsSound st) (f : FileRef) : Settles (.length f) st := by
  obtain ⟨g, hmap, hs⟩ := h.sound
  refine .of_mem (f := f) (x := fileLength f st.fs) (g := fun n => (.number n, st)) rfl
    fun hf => .inl ?_
  obtain ⟨x, hx⟩ := hs.balanced.file_of_mem (List.mem_cons_of_mem _ hf)
  refine ⟨(st.fs.inode x.inode).length, ?_, h, (Still.refl _).grows.passes⟩
  unfold fileLength
  rw [getFile_eq_ok.mpr hx, bind_ok]

theorem FsSound.of_tell (h : FsSound st) (f : FileRef) : Settles (.tell f) st := by
  obtain ⟨g, hmap, hs⟩ := h.sound
  refine .of_mem (f := f) (x := fileTell f st.fs) (g := fun n => (.number n, st)) rfl
    fun hf => .inl ?_
  obtain ⟨x, hx⟩ := hs.balanced.file_of_mem (List.mem_cons_of_mem _ hf)
  refine ⟨x.pos, ?_, h, (Still.refl _).grows.passes⟩
  unfold fileTell
  rw [getFile_eq_ok.mpr hx, bind_ok]

theorem FsSound.of_seek (h : FsSound st) (f : FileRef) (newPos : Int32) :
    Settles (.seek f newPos) st := by
  obtain ⟨g, hmap, hs⟩ := h.sound
  refine .of_mem (f := f) (x := fileSeek f newPos.toInt st.fs) (g := fun s => (.done, { st with fs := s }))
    rfl fun hf => ?_
  obtain ⟨x, hx⟩ := hs.balanced.file_of_mem (List.mem_cons_of_mem _ hf)
  unfold fileSeek
  rw [getFile_eq_ok.mpr hx, bind_ok]
  by_cases hpos : 0 ≤ newPos.toInt
  · obtain ⟨h', hstill⟩ :=
      hs.of_pos (List.mem_cons_of_mem _ hf) (h.not_map hf) hx newPos.toInt
    refine .inl ⟨_, if_pos hpos, h.of_moved (f := f) (x := { x with pos := newPos.toInt }) hpos rfl rfl
      fun g' hg => ?_, hstill.grows.passes⟩
    rw [hmap] at hg
    cases hg
    exact h'
  · exact .inr ⟨.newPos, if_neg hpos, by decide⟩

/-- Denying is counted at the inode. -/
theorem FsSound.of_denyWrite (h : FsSound st) (f : FileRef) : Settles (.denyWrite f) st := by
  obtain ⟨g, hmap, hs⟩ := h.sound
  refine .of_mem (f := f) (x := fileDenyWrite f st.fs) (g := fun s => (.done, { st with fs := s })) rfl
    fun hf => .inl ?_
  have hmem := List.mem_cons_of_mem g hf
  obtain ⟨x, hx⟩ := hs.balanced.file_of_mem hmem
  obtain ⟨s', hx', h', hstill⟩ := hs.of_fileDenyWrite hmem (h.not_map hf)
  obtain ⟨s₁, hx₁, -, -, hfile, -, hmap'⟩ := fileDenyWrite_ok hs.balanced hmem hx
  rw [hx'] at hx₁
  cases hx₁
  refine ⟨s', hx', h.of_moved (f := f) (x := { x with denyWrite := true }) (h.pos f x hx) hmap' hfile
    fun g' hg => ?_, hstill.grows.passes⟩
  rw [hmap] at hg
  cases hg
  exact h'

theorem FsSound.of_allowWrite (h : FsSound st) (f : FileRef) : Settles (.allowWrite f) st := by
  obtain ⟨g, hmap, hs⟩ := h.sound
  refine .of_mem (f := f) (x := fileAllowWrite f st.fs) (g := fun s => (.done, { st with fs := s })) rfl
    fun hf => .inl ?_
  have hmem := List.mem_cons_of_mem g hf
  obtain ⟨x, hx⟩ := hs.balanced.file_of_mem hmem
  obtain ⟨s', hx', h', hstill⟩ := hs.of_fileAllowWrite hmem (h.not_map hf)
  obtain ⟨s₁, hx₁, -, -, hfile, -, hmap'⟩ := fileAllowWrite_ok hs.balanced hmem hx
  rw [hx'] at hx₁
  cases hx₁
  refine ⟨s', hx', h.of_moved (f := f) (x := { x with denyWrite := false }) (h.pos f x hx) hmap' hfile
    fun g' hg => ?_, hstill.grows.passes⟩
  rw [hmap] at hg
  cases hg
  exact h'

/-- Every call goes through or is refused. -/
theorem FsSound.settles (h : FsSound st) (op : FsOp) : Settles op st := by
  cases op with
  | create name size m => exact h.of_create name size m
  | «open» name m => exact h.of_open name m
  | remove name m => exact h.of_remove name m
  | reopen f alloc => exact h.of_reopen f alloc
  | close f => exact h.of_close f
  | read f size => exact h.of_read f size
  | write f buffer size => exact h.of_write f buffer size
  | readAt f size fileOfs => exact h.of_readAt f size fileOfs
  | writeAt f buffer size fileOfs => exact h.of_writeAt f buffer size fileOfs
  | length f => exact h.of_length f
  | seek f newPos => exact h.of_seek f newPos
  | tell f => exact h.of_tell f
  | denyWrite f => exact h.of_denyWrite f
  | allowWrite f => exact h.of_allowWrite f

/-- The state after a call is as sound as before. -/
theorem FsSound.of_fsCall {a : FsAnswer} (h : FsSound st)
    (hx : fsCall op st = .ok (a, st')) : FsSound st' := by
  rcases h.settles op with ⟨a₁, st₁, hcall, hs, -⟩ | ⟨e, hcall, -⟩
  · rw [hx] at hcall
    cases hcall
    exact hs
  · rw [hx] at hcall
    cases hcall

/-- What a step of a history does. -/
theorem FsSound.of_fsStep (h : FsSound st) (hx : fsStep op st = .ok st') :
    FsSound st' ∧ Passes [] st.fs st'.fs := by
  unfold fsStep at hx
  rcases h.settles op with ⟨a, st₁, hcall, hs, hp⟩ | ⟨e, hcall, -⟩
  · rw [hcall] at hx
    cases hx
    exact ⟨hs, hp⟩
  · rw [hcall] at hx
    cases hx

/-! ## Histories -/

/-- With no file but that of the free map open. -/
theorem Sound.fsSound (h : Sound s [f] [] []) : FsSound { fs := s, files := [] } := by
  obtain ⟨f', r, hf', hm⟩ := h.mapFile
  rw [List.mem_singleton] at hf'
  subst hf'
  refine ⟨⟨f', hm.freeMapFile, h⟩, fun g x hg => ?_⟩
  have hmem := (h.balanced.opened g).mpr (by rw [hg]; rfl)
  rw [List.mem_singleton.mp hmem, hm.file] at hg
  cases hg
  exact Int.le_refl 0

/-- A file system that has just been formatted, with no file open. -/
theorem fsSound_formatted {size entryCnt : Nat} {junk : Nat → Bool} {device : SectorNo → Sector}
    (hsize : 2 ≤ size) (hsmall : size < 2 ^ 32)
    (hx : filesysFormat size junk entryCnt device = .ok s) : FsSound { fs := s, files := [] } := by
  obtain ⟨⟨f, hs⟩, -, -⟩ := filesysFormat_sound hsize hsmall hx
  exact hs.fsSound

/-- Sectors of two inodes that have a name or are open are apart, and all marked in the free map. What
an open inode uses is what it has on the device. -/
structure SectorsApart (s : Files) : Prop where
  disjoint : ∀ c ∈ s.live [], ∀ c' ∈ s.live [], c ≠ c' →
    Disjoint (sectorsOf s.device c) (sectorsOf s.device c')
  inode : ∀ c ∈ s.live [], ¬ (loaded s.device c).HasSector c
  used : ∀ c ∈ s.live [], ∀ x ∈ sectorsOf s.device c, Marked s.freeMap x
  opened : ∀ r ∈ s.openInodes, ∀ x, (s.inode r).HasSector x ↔
    (loaded s.device (s.inode r).sector).HasSector x

/-- In a sound state the sectors are apart. -/
theorem FsSound.apart (h : FsSound st) : SectorsApart st.fs := by
  obtain ⟨f, -, hs⟩ := h.sound
  refine ⟨fun c hc c' hc' hne => hs.laid.apart hc hc' hne, fun c hc => hs.laid.not_data hc hc,
    fun c hc x hx => hs.laid.marked hc hx, fun r hr x => ?_⟩
  obtain ⟨hstart, hlength⟩ := hs.agrees r hr
  exact hasSector_of_eq hstart hlength

/-- After any history the sectors of inodes are apart, and the next call releases those of inodes that
have then neither a name nor an opener, and no others. It does not fail for the free map. -/
theorem sectors_apart {size entryCnt : Nat} {junk : Nat → Bool} {device : SectorNo → Sector}
    (hsize : 2 ≤ size) (hsmall : size < 2 ^ 32)
    (hformat : filesysFormat size junk entryCnt device = .ok s)
    (h : Reach (Steps fsStep) { fs := s, files := [] } st) :
    SectorsApart st.fs ∧ ∀ op, (∃ e, fsStep op st = .error e ∧ e ∈ [.notEnabled, .newPos, .length]) ∨
      ∃ st', fsStep op st = .ok st' ∧ ∀ x, Marked st.fs.freeMap x →
        (¬ Marked st'.fs.freeMap x ↔
          ∃ c ∈ st.fs.live [], c ∉ st'.fs.live [] ∧ x ∈ sectorsOf st.fs.device c) := by
  have hst : FsSound st := h.invariant (fsSound_formatted hsize hsmall hformat)
    fun st op st' hst hstep => (hst.of_fsStep hstep).1
  refine ⟨hst.apart, fun op => ?_⟩
  rcases hst.settles op with ⟨a, st', hcall, -, hp⟩ | ⟨e, hcall, he⟩
  · refine .inr ⟨st', ?_, hp.freed⟩
    unfold fsStep
    rw [hcall]
    rfl
  · refine .inl ⟨e, ?_, he⟩
    unfold fsStep
    rw [hcall]
    rfl

theorem zero_notMem_a : (0 : UInt8) ∉ [97] := by decide

/-- The name `a`. -/
def nameA : CString := ⟨[97], zero_notMem_a⟩

/-- The file `a` is created, opened and removed before it is closed. -/
def sampleHistory : List FsOp := [.create nameA 1 {}, .open nameA {}, .remove nameA {}, .close 2]

/-- A file is created and opened on a small volume. -/
theorem sectors_apart_sample : ∃ s st, filesysFormat 8 (fun _ => false) 16 (fun _ _ => 0) = .ok s ∧
    Reach (Steps fsStep) { fs := s, files := [] } st ∧
    st.fs.freeMap = [true, true, true, true, false, false, false, false] ∧
    SectorsApart st.fs ∧ ∀ op, (∃ e, fsStep op st = .error e ∧ e ∈ [.notEnabled, .newPos, .length]) ∨
      ∃ st', fsStep op st = .ok st' ∧ ∀ x, Marked st.fs.freeMap x →
        (¬ Marked st'.fs.freeMap x ↔
          ∃ c ∈ st.fs.live [], c ∉ st'.fs.live [] ∧ x ∈ sectorsOf st.fs.device c) := by
  have heval : (do
      let s ← filesysFormat 8 (fun _ => false) 16 (fun _ _ => 0)
      .ok ((replay fsStep (fun _ _ => true) sampleHistory { fs := s, files := [] }).map fun st =>
        st.fs.freeMap == [true, true, true, true, false, false, false, false]) :
          Except Assertion (Option Bool)).toOption = some (some true) := by
    decide +kernel
  obtain ⟨s, hformat, hrun⟩ := bind_eq_ok.mp (eq_ok_of_toOption heval)
  have hrun := Except.ok.inj hrun
  obtain ⟨st, hst, hmap⟩ := exists_of_replay fsStep (fun _ _ => true) sampleHistory
    { fs := s, files := [] }
    (fun st => st.fs.freeMap == [true, true, true, true, false, false, false, false]) hrun
  exact ⟨s, st, hformat, hst.reach, beq_iff_eq.mp hmap,
    sectors_apart (by decide) (by decide) hformat hst.reach⟩

end Pintos.Filesys
