import Pintos.Filesys.Histories
import Pintos.Syscall.FdTable

/-!
# Calls that are answered

Between two steps the file system of the kernel is that of a history, whose files are those the
processes hold, and those that nobody closes any more (`Served`). On such a file system a call about
descriptors returns, with `IOLock` up, exactly when it is `Answerable` (`fileCall_returns_iff`).
-/

namespace Pintos.Syscall

open Pintos.Lib Pintos.Filesys

variable {s s' : Files} {x x' : Proc} {y y' : Option Proc} {l files : List FileRef}
  {extra : List InodeRef} {f : FileRef} {p : ProcRef} {k k' : Kernel} {ev : FileEvent}
  {out : Outcome} {c : FileCall} {opened closed : List Int}

/-! ## The file system is that of a history -/

/-- After the step of a process the file system is still sound. The process holds files of it, and
the files it did not hold are there. -/
def Keeps (y y' : Option Proc) (s' : Files) (files : List FileRef) : Prop :=
  ∃ files', FsSound { fs := s', files := files' } ∧ (∀ f ∈ held y', f ∈ files') ∧
    ∀ f ∈ files, f ∉ held y → f ∈ files'

/-- A process that holds no more than before keeps its files. -/
theorem Keeps.of_kept (h : FsSound { fs := s', files := files }) (hin : ∀ f ∈ held y, f ∈ files)
    (hsub : ∀ f ∈ held y', f ∈ held y) : Keeps y y' s' files :=
  ⟨files, h, fun f hf => hin f (hsub f hf), fun _ hf _ => hf⟩

/-- A file is opened, for the process or for nobody. -/
theorem Keeps.of_opened {o : Option FileRef} (h : FsSound { fs := s', files := o.toList ++ files })
    (hin : ∀ f ∈ held y, f ∈ files) (hsub : ∀ f ∈ held y', f ∈ o.toList ∨ f ∈ held y) :
    Keeps y y' s' files := by
  refine ⟨_, h, fun f hf => ?_, fun f hf _ => List.mem_append_right _ hf⟩
  exact List.mem_append.mpr ((hsub f hf).imp_right (hin f))

/-- A file of the process is closed. -/
theorem Keeps.of_closed (h : FsSound { fs := s', files := files.erase f })
    (hin : ∀ f ∈ held y, f ∈ files) (hn : (held y).Nodup) (hperm : (held y).Perm (f :: held y')) :
    Keeps y y' s' files := by
  have hnodup := List.nodup_cons.mp (hperm.nodup_iff.mp hn)
  refine ⟨_, h, fun g hg => ?_, fun g hg hout => ?_⟩
  · have hne : g ≠ f := fun heq => hnodup.1 (heq ▸ hg)
    exact (List.mem_erase_of_ne hne).mpr (hin g (hperm.mem_iff.mpr (List.mem_cons_of_mem _ hg)))
  · have hne : g ≠ f := fun heq => hout (heq ▸ hperm.mem_iff.mpr (List.mem_cons_self ..))
    exact (List.mem_erase_of_ne hne).mpr hg

/-- A call leaves the file system sound, whatever it answers. -/
theorem sound_of_call {files' : List FileRef} (h : FsSound { fs := s, files := files }) (op : FsOp)
    (a : FsAnswer)
    (hx : fsCall op { fs := s, files := files } = .ok (a, { fs := s', files := files' })) :
    FsSound { fs := s', files := files' } := h.of_fsCall hx

/-- A descriptor is closed. -/
theorem Keeps.of_elem {e : FileListElem} (h : FsSound { fs := s, files := files })
    (hown : Owns (some x) s l) (hin : ∀ f ∈ held (some x), f ∈ files) (he : e ∈ x.fileList)
    (hx : fileClose e.mFile s = .ok s') :
    Keeps (some x) (some { x with fileList := x.fileList.erase e }) s' files := by
  refine .of_closed (f := e.mFile) (sound_of_call h (.close e.mFile) .done ?_) hin hown.nodup ?_
  · dsimp only [fsCall]
    rw [if_pos (hin _ (mem_held_of_elem he)), hx, bind_ok]
  · exact held_erase he

/-- A word is an `off_t`. -/
theorem offT_eq (n : Nat) : offT n = (Int32.ofNat n).toInt := Int32.toInt_ofNat'.symm

/-- The name of no bytes. -/
def noName : CString := ⟨[], List.not_mem_nil⟩

/-- Before it comes to the name `filesys_create` does the same for every name. -/
theorem filesysCreate_of_fatal {size : Int} {m : Mallocs}
    (hx : filesysCreateFatal size m s = .ok (false, s')) (name : List UInt8) :
    filesysCreate name size m s = .ok (false, s') := by
  unfold filesysCreateFatal at hx
  unfold filesysCreate
  obtain ⟨⟨dir, s₁⟩, h₁, hx⟩ := bind_eq_ok.mp hx
  rw [h₁, bind_ok]
  cases dir with
  | none => exact hx
  | some dir =>
    dsimp only at hx ⊢
    cases halloc : freeMapAllocate 1 s₁ with
    | mk o s₂ =>
      rw [halloc] at hx
      cases o with
      | none => exact hx
      | some sector =>
        dsimp only at hx ⊢
        obtain ⟨⟨created, s₃⟩, h₃, hx⟩ := bind_eq_ok.mp hx
        rw [h₃, bind_ok]
        cases created with
        | true => cases hx
        | false =>
          simpa using hx

/-- Without a root directory nothing is removed. -/
theorem filesysRemove_of_none {m : Mallocs} (hx : dirOpenRoot m s = .ok (none, s'))
    (name : List UInt8) : filesysRemove name m s = .ok (false, s') := by
  unfold filesysRemove
  rw [hx, bind_ok]

/-- A file that is opened again is there beside the others. -/
theorem sound_of_reopen {alloc : Bool} {o : Option FileRef}
    (h : FsSound { fs := s, files := files }) (hf : f ∈ files)
    (hx : fileReopen f alloc s = .ok (o, s')) : FsSound { fs := s', files := o.toList ++ files } := by
  refine sound_of_call h (.reopen f alloc) (.file o) ?_
  dsimp only [fsCall]
  rw [if_pos hf, hx, bind_ok]

/-- The calls of a process. -/
theorem fileCall_keeps (h : FsSound { fs := s, files := files }) (hown : Owns (some x) s l)
    (hin : ∀ f ∈ held (some x), f ∈ files) (hx : fileCall c x s = .ok (x', s', out)) :
    Keeps (some x) (some x') s' files := by
  have hexit : ∀ g ∈ held (some x.exit), g ∈ held (some x) := (held_stage x rfl).subset
  have hsame : FsSound { fs := s', files := files } → Keeps (some x) (some x) s' files :=
    fun hs => .of_kept hs hin fun _ => id
  have hnoDir : ∀ {m}, dirOpenRoot m s = .ok (none, s') → FsSound { fs := s', files := files } := by
    intro m h₁
    refine sound_of_call h (.remove noName m) (.success false) ?_
    dsimp only [fsCall]
    rw [filesysRemove_of_none h₁, bind_ok]
  have helem : ∀ {fd e}, getFileWithFd fd x = some e → e.mFile ∈ files :=
    fun he => hin _ (mem_held_of_elem (getFileWithFd_mem he))
  cases fileCall_branch hx with
  | closing => exact .of_kept h hin (held_stage x rfl).subset
  | ends _ => exact .of_kept h hin hexit
  | leaves _ => exact hsame h
  | @createFatal size m _ h₁ =>
    refine hsame (sound_of_call h (.create noName size m) (.success false) ?_)
    dsimp only [fsCall]
    rw [filesysCreate_of_fatal h₁, bind_ok]
  | @create name size m success _ h₁ =>
    refine hsame (sound_of_call h (.create name size m) (.success success) ?_)
    dsimp only [fsCall]
    rw [h₁, bind_ok]
  | removeFatal h₁ => exact hsame (hnoDir h₁)
  | @remove name m success _ h₁ =>
    refine hsame (sound_of_call h (.remove name m) (.success success) ?_)
    dsimp only [fsCall]
    rw [h₁, bind_ok]
  | openFatal h₁ => exact hsame (hnoDir h₁)
  | @openNone name m _ h₁ =>
    refine hsame (sound_of_call h (.open name m) (.file none) ?_)
    dsimp only [fsCall]
    rw [h₁, bind_ok]
    rfl
  | @opened name m f _ h₁ =>
    have hs : FsSound { fs := s', files := f :: files } := by
      refine sound_of_call h (.open name m) (.file (some f)) ?_
      dsimp only [fsCall]
      rw [h₁, bind_ok]
      rfl
    refine .of_opened (o := some f) hs hin fun g hg => ?_
    exact (List.mem_cons.mp (held_open.subset hg)).imp_left List.mem_singleton.mpr
  | @read _ _ _ n e bytes _ he h₁ =>
    refine hsame (sound_of_call h (.read e.mFile (Int32.ofNat n)) (.bytes bytes) ?_)
    dsimp only [fsCall]
    rw [if_pos (helem he), ← offT_eq, h₁, bind_ok]
  | @write _ written buffer n e _ he h₁ =>
    refine hsame (sound_of_call h (.write e.mFile buffer.bytes (Int32.ofNat n))
      (.number written) ?_)
    dsimp only [fsCall]
    rw [if_pos (helem he), ← offT_eq, h₁, bind_ok]
  | @seek _ n e _ he h₁ =>
    refine hsame (sound_of_call h (.seek e.mFile (Int32.ofNat n)) .done ?_)
    dsimp only [fsCall]
    rw [if_pos (helem he), ← offT_eq, h₁, bind_ok]
  | close he h₁ => exact .of_elem h hown hin (getFileWithFd_mem he) h₁
  | unmapped he h₁ =>
    exact .of_opened (sound_of_reopen h (helem he) h₁) hin fun g hg => .inr (hexit g hg)
  | mapped he h₁ => exact .of_opened (sound_of_reopen h (helem he) h₁) hin fun g hg => .inr hg

/-- A step of a process that is there. -/
theorem procStep_keeps (h : FsSound { fs := s, files := files }) (hown : Owns (some x) s l)
    (hin : ∀ f ∈ held (some x), f ∈ files) (hx : procStep ev x s = .ok (y', s', out)) :
    Keeps (some x) y' s' files := by
  have hexit : Keeps (some x) (some x.exit) s files := .of_kept h hin (held_stage x rfl).subset
  unfold procStep at hx
  split at hx
  next size f hstage =>
    obtain ⟨⟨bytes, s₁⟩, h₁, hx⟩ := bind_eq_ok.mp hx
    cases hx
    refine .of_kept (sound_of_call h (.read f size) (.bytes bytes) ?_) hin fun _ => id
    dsimp only [fsCall]
    rw [if_pos (hin f (mem_held_of_loading hstage)), h₁, bind_ok]
  next ofs f hstage =>
    obtain ⟨s₁, h₁, hx⟩ := bind_eq_ok.mp hx
    cases hx
    refine .of_kept (sound_of_call h (.seek f ofs) .done ?_) hin fun _ => id
    dsimp only [fsCall]
    rw [if_pos (hin f (mem_held_of_loading hstage)), h₁, bind_ok]
  next f hstage =>
    obtain ⟨s₁, h₁, hx⟩ := bind_eq_ok.mp hx
    cases hx
    refine .of_kept (sound_of_call h (.denyWrite f) .done ?_) hin ?_
    · dsimp only [fsCall]
      rw [if_pos (hin f (mem_held_of_loading hstage)), h₁, bind_ok]
    · rw [held_loaded (hown.loading x _ rfl hstage) hstage]
      exact fun _ => id
  next file hstage =>
    obtain ⟨s₁, h₁, hx⟩ := bind_eq_ok.mp hx
    cases hx
    obtain ⟨hheld, hheld'⟩ := held_failed (hown.loading x _ rfl hstage) hstage
    cases file with
    | none =>
      cases h₁
      refine .of_kept h hin fun g hg => ?_
      rw [hheld'] at hg
      rw [hheld]
      exact List.mem_append_left _ hg
    | some f =>
      refine .of_closed (f := f) (sound_of_call h (.close f) .done ?_) hin hown.nodup ?_
      · have h₁' : fileClose f s = .ok s' := h₁
        dsimp only [fsCall]
        rw [if_pos (hin f (mem_held_of_loading hstage)), h₁', bind_ok]
      · rw [hheld, hheld']
        exact List.perm_append_singleton f _
  next c hstage =>
    obtain ⟨⟨x₁, s₁, out₁⟩, h₁, hx⟩ := bind_eq_ok.mp hx
    cases hx
    exact fileCall_keeps h hown hin h₁
  next hstage =>
    split at hx
    · cases hx
      exact hexit
    next e rest hlist =>
      obtain ⟨s₁, h₁, hx⟩ := bind_eq_ok.mp hx
      cases hx
      have hrest : x.fileList.erase e = rest := by
        rw [hlist, List.erase_cons_head]
      rw [← hrest]
      exact .of_elem h hown hin (hlist ▸ List.mem_cons_self ..) h₁
  · cases hx
    exact hexit
  · cases hx
    exact hexit
  next hstage =>
    split at hx
    · cases hx
      exact .of_kept h hin nofun
    next f hsome =>
      obtain ⟨s₁, h₁, hx⟩ := bind_eq_ok.mp hx
      cases hx
      refine .of_kept (sound_of_call h (.allowWrite f) .done ?_) hin nofun
      dsimp only [fsCall]
      rw [if_pos (hin f (mem_held_of_executable (y := some x) hsome)), h₁, bind_ok]
  · cases hx

/-- Whatever a process does keeps the files it holds. -/
theorem act_keeps (h : FsSound { fs := s, files := files }) (hown : Owns y s l)
    (hin : ∀ f ∈ held y, f ∈ files) (hx : act ev y s = .ok (y', s', out)) :
    Keeps y y' s' files := by
  unfold act at hx
  split at hx
  · cases hx
    exact .of_kept h hin nofun
  next name m =>
    obtain ⟨⟨file, s₁⟩, h₁, hx⟩ := bind_eq_ok.mp hx
    cases hx
    refine .of_opened (o := file) (sound_of_call h (.open name m) (.file file) ?_) hin
      fun g hg => .inl hg
    dsimp only [fsCall]
    rw [h₁, bind_ok]
  · exact procStep_keeps h hown hin hx
  · cases hx

/-- The file system is sound, and the processes hold files of it. -/
def Served (k : Kernel) : Prop :=
  ∃ files, FsSound { fs := k.files, files := files } ∧ ∀ p, ∀ f ∈ held (k.proc p), f ∈ files

theorem Served.start (h : FsSound { fs := s, files := [] }) : Served (.start s) :=
  ⟨[], h, fun _ => nofun⟩

/-- Every step keeps the file system sound, and keeps in it the files that are held. -/
theorem Served.step (h : Served k) (hl : Holding k l extra)
    (hx : Syscall.step ev k = .ok (k', out)) : Served k' := by
  obtain ⟨files, hs, hin⟩ := h
  obtain ⟨hact, hothers⟩ := step_eq_ok hx
  obtain ⟨files', hs', hmine, hkept⟩ := act_keeps hs (hl.owns ev.proc) (hin ev.proc) hact
  refine ⟨files', hs', fun p f hf => ?_⟩
  by_cases hp : p = ev.proc
  · exact hmine f (hp ▸ hf)
  · rw [hothers p hp] at hf
    exact hkept f (hin p f hf) (hl.apart p ev.proc hp f hf)

/-! ## The answer -/

/-- The calls about descriptors. A write to the console is none. -/
def FileCall.AboutFiles : FileCall → Prop
  | .sysExit | .sysOpen _ _ | .sysFilesize _ | .sysRead _ _ _ _ | .sysSeek _ _ | .sysTell _
  | .sysClose _ => True
  | .sysWrite fd _ _ => fd ≠ 1
  | .sysCreate _ _ _ | .sysRemove _ _ | .sysMmap _ _ _ => False

/-- The call comes back, and `IOLock` is up. -/
def Returns (c : FileCall) (x : Proc) (s : Files) : Prop :=
  ∃ x' s' out, fileCall c x s = .ok (x', s', out) ∧ out ≠ .terminatedLocked

/-- A call that returns with the lock up is one that may be answered. -/
theorem returns_iff_of_ok (x' : Proc) (s' : Files) (out : Outcome)
    (hx : fileCall c x s = .ok (x', s', out)) (hout : out ≠ .terminatedLocked)
    (hans : c.Answerable x s) : Returns c x s ↔ c.Answerable x s :=
  iff_of_true ⟨x', s', out, hx, hout⟩ hans

/-- A call that panics is one that may not be answered. -/
theorem returns_iff_of_error {e : Assertion} (hx : fileCall c x s = .error e)
    (hans : ¬ c.Answerable x s) : Returns c x s ↔ c.Answerable x s := by
  refine iff_of_false ?_ hans
  rintro ⟨x', s', out, hx', -⟩
  rw [hx] at hx'
  cases hx'

/-- Nor may one that ends with the lock down. -/
theorem returns_iff_of_locked (x' : Proc) (s' : Files)
    (hx : fileCall c x s = .ok (x', s', .terminatedLocked))
    (hans : ¬ c.Answerable x s) : Returns c x s ↔ c.Answerable x s := by
  refine iff_of_false ?_ hans
  rintro ⟨x₁, s₁, out, hx', hout⟩
  rw [hx] at hx'
  cases hx'
  exact hout rfl

/-- Opening a file returns. -/
theorem returns_open (h : FsSound { fs := s, files := files }) (name : FileName) (m : Mallocs) :
    Returns (.sysOpen name m) x s ↔ FileCall.Answerable x s (.sysOpen name m) := by
  obtain ⟨g, -, hs⟩ := h.sound
  cases name with
  | refused => exact returns_iff_of_ok _ _ .terminated rfl (by simp) nofun
  | fatal =>
    obtain ⟨o, s₁, hx, -⟩ := hs.of_dirOpenRoot m
    have hopens := dirOpenRoot_isSome hx
    cases o with
    | none =>
      refine returns_iff_of_ok x s₁ (.eax (-1)) ?_ (by simp) fun _ hd =>
        Bool.false_ne_true (hopens.mpr hd)
      dsimp only [fileCall]
      rw [hx, bind_ok]
      rfl
    | some d =>
      refine returns_iff_of_error (e := .panic) ?_ fun hans => hans rfl (hopens.mp rfl)
      dsimp only [fileCall]
      rw [hx, bind_ok]
      rfl
  | bytes name =>
    obtain ⟨res, s₁, hx, -⟩ := hs.of_filesysOpen name.1 m
    cases res with
    | none =>
      refine returns_iff_of_ok x s₁ (.eax (-1)) ?_ (by simp) nofun
      dsimp only [fileCall]
      rw [hx, bind_ok]
    | some f =>
      refine returns_iff_of_ok { x with
        fileList := x.fileList ++ [{ mFile := f, fd := x.fdCounter }]
        fdCounter := Int.bmod (x.fdCounter + 1) (2 ^ 32) } s₁ (.eax x.fdCounter) ?_ (by simp) nofun
      dsimp only [fileCall]
      rw [hx, bind_ok]

/-- A file that is there can be read, and at its position. -/
theorem exists_fileRead {z : File} (hz : s.file f = some z) (size : Int) :
    ∃ s₁, fileRead f size s = .ok (inodeReadAt z.inode size z.pos s, s₁) := by
  unfold fileRead
  rw [getFile_eq_ok.mpr hz, bind_ok]
  exact ⟨_, rfl⟩

/-- A file that is there can be written. -/
theorem exists_fileWrite {z : File} (hz : s.file f = some z) (buffer : Nat → UInt8) (size : Int) :
    ∃ s₁, fileWrite f buffer size s = .ok ((inodeWriteAt z.inode buffer size z.pos s).1, s₁) := by
  unfold fileWrite
  rw [getFile_eq_ok.mpr hz, bind_ok]
  exact ⟨_, rfl⟩

/-- Reading returns if its buffer is the process's. -/
theorem returns_read (h : FsSound { fs := s, files := files })
    (hin : ∀ f ∈ held (some x), f ∈ files) (hge : ∀ e ∈ x.fileList, 5 ≤ e.fd) (fd : Int)
    (buffer : Buffer) (size : Nat) (key : Int) :
    Returns (.sysRead fd buffer size key) x s ↔
      FileCall.Answerable x s (.sysRead fd buffer size key) := by
  obtain ⟨g, -, hs⟩ := h.sound
  by_cases hchecked : buffer.checked = true
  case neg =>
    refine returns_iff_of_locked x.exit s ?_ fun hans => hchecked hans.1
    simp only [fileCall, if_neg hchecked]
  case pos =>
    cases he : getFileWithFd fd x with
    | none =>
      refine returns_iff_of_ok x.exit s .terminated ?_ (by simp)
        ⟨hchecked, fun e he' => ?_⟩
      · simp only [fileCall, if_pos hchecked, he]
      · rw [he] at he'
        cases he'
    | some e =>
      have hmem := getFileWithFd_mem he
      have hfd : fd ≠ 0 := by
        have := hge e hmem
        rw [getFileWithFd_fd he] at this
        omega
      obtain ⟨z, hz⟩ := hs.balanced.file_of_mem (List.mem_cons_of_mem _ (hin _ (mem_held_of_elem hmem)))
      have hlen : (inodeReadAt z.inode (offT size) z.pos s).length = transfer s e.mFile (offT size) :=
        length_fileRead hz (h.pos _ z hz)
      obtain ⟨s₁, hread⟩ := exists_fileRead hz (offT size)
      have hans : FileCall.Answerable x s (.sysRead fd buffer size key) ↔
          buffer.faults (transfer s e.mFile (offT size)) = false := by
        constructor
        · exact fun h => h.2 e he
        · refine fun h => ⟨hchecked, fun e' he' => ?_⟩
          rw [he] at he'
          cases he'
          exact h
      by_cases hfaults : buffer.faults (transfer s e.mFile (offT size)) = true
      · have hno : ¬ FileCall.Answerable x s (.sysRead fd buffer size key) := by
          rw [hans, hfaults]
          decide
        by_cases hdies : buffer.dies = true
        · refine returns_iff_of_locked x.exit s ?_ hno
          simp only [fileCall, if_pos hchecked, he, if_neg hfd, hread, bind_ok, hlen, if_pos hfaults,
            if_pos hdies]
        · refine returns_iff_of_error (e := .panic) ?_ hno
          simp only [fileCall, if_pos hchecked, he, if_neg hfd, hread, bind_ok, hlen, if_pos hfaults,
            if_neg hdies]
      · refine returns_iff_of_ok x s₁ (.bytes (inodeReadAt z.inode (offT size) z.pos s)) ?_ (by simp)
          (hans.mpr (Bool.eq_false_iff.mpr hfaults))
        simp only [fileCall, if_pos hchecked, he, if_neg hfd, hread, bind_ok, hlen, if_neg hfaults]

/-- A write comes to no byte, or to those of the transfer. -/
theorem faults_written {z : File} {buffer : Buffer} {size : Int} (hz : s.file f = some z)
    (hpos : 0 ≤ z.pos) :
    buffer.faults (inodeWriteAt z.inode buffer.bytes size z.pos s).1.toNat = false ↔
      (¬ Denied s f → buffer.faults (transfer s f size) = false) := by
  have hdenied : Denied s f ↔ (s.inode z.inode).denyWriteCnt ≠ 0 := by
    constructor
    · rintro ⟨w, hw, hd⟩
      rw [hz] at hw
      cases hw
      exact hd
    · exact fun hd => ⟨z, hz, hd⟩
  rw [hdenied, not_not]
  by_cases hzero : (s.inode z.inode).denyWriteCnt = 0
  · rw [inodeWriteAt_count hzero hpos]
    unfold transfer
    rw [hz]
    exact ⟨fun h _ => h, fun h => h hzero⟩
  · rw [inodeWriteAt_denied hzero]
    refine iff_of_true ?_ fun h => absurd h hzero
    unfold Buffer.faults
    cases buffer.fatal with
    | none => rfl
    | some n => exact decide_eq_false (Nat.not_lt_zero n)

/-- Writing returns if its buffer is the process's. -/
theorem returns_write (h : FsSound { fs := s, files := files }) (hown : Owns (some x) s l)
    (hin : ∀ f ∈ held (some x), f ∈ files) (hge : ∀ e ∈ x.fileList, 5 ≤ e.fd) (fd : Int)
    (hone : fd ≠ 1) (buffer : Buffer) (size : Nat) :
    Returns (.sysWrite fd buffer size) x s ↔ FileCall.Answerable x s (.sysWrite fd buffer size) := by
  obtain ⟨g, -, hs⟩ := h.sound
  by_cases hchecked : buffer.checked = true
  case neg =>
    refine returns_iff_of_ok x.exit s .terminated ?_ (by simp)
      fun _ hc => absurd hc hchecked
    simp only [fileCall, if_neg hchecked]
  case pos =>
    cases he : getFileWithFd fd x with
    | none =>
      refine returns_iff_of_ok x.exit s .terminated ?_ (by simp)
        fun _ _ e he' => ?_
      · simp only [fileCall, if_pos hchecked, he, if_neg hone]
      · rw [he] at he'
        cases he'
    | some e =>
      have hmem := getFileWithFd_mem he
      have hfd : fd ≠ 0 := by
        have := hge e hmem
        rw [getFileWithFd_fd he] at this
        omega
      obtain ⟨z, hz⟩ := hs.balanced.file_of_mem (List.mem_cons_of_mem _ (hin _ (mem_held_of_elem hmem)))
      have hallowed := hown.denies_exec (mem_held_of_elem hmem) hz (hown.ne_executable hmem)
      obtain ⟨s₁, hwrite⟩ := exists_fileWrite hz buffer.bytes (offT size)
      have hcall : fileCall (.sysWrite fd buffer size) x s =
          if buffer.faults (inodeWriteAt z.inode buffer.bytes (offT size) z.pos s).1.toNat then
            .error .panic
          else .ok (x, s₁, .eax (inodeWriteAt z.inode buffer.bytes (offT size) z.pos s).1) := by
        simp only [fileCall, if_pos hchecked, he, if_neg hone, if_neg hfd, writeFile,
          getFile_eq_ok.mpr hz, bind_ok, hallowed, if_neg Bool.false_ne_true, hwrite]
      have hans : FileCall.Answerable x s (.sysWrite fd buffer size) ↔
          buffer.faults (inodeWriteAt z.inode buffer.bytes (offT size) z.pos s).1.toNat = false := by
        rw [faults_written hz (h.pos _ z hz)]
        constructor
        · exact fun h => h hone hchecked e he
        · intro h _ _ e' he'
          rw [he] at he'
          cases he'
          exact h
      by_cases hfaults :
          buffer.faults (inodeWriteAt z.inode buffer.bytes (offT size) z.pos s).1.toNat = true
      · refine returns_iff_of_error (hcall.trans (if_pos hfaults)) ?_
        rw [hans, hfaults]
        decide
      · exact returns_iff_of_ok _ _ _ (hcall.trans (if_neg hfaults)) (by simp)
          (hans.mpr (Bool.eq_false_iff.mpr hfaults))

/-- Seeking returns below 2³¹. -/
theorem returns_seek (h : FsSound { fs := s, files := files })
    (hin : ∀ f ∈ held (some x), f ∈ files) (fd : Int) (position : Nat) :
    Returns (.sysSeek fd position) x s ↔ FileCall.Answerable x s (.sysSeek fd position) := by
  obtain ⟨g, -, hs⟩ := h.sound
  cases he : getFileWithFd fd x with
  | none =>
    refine returns_iff_of_ok x.exit s .terminated ?_ (by simp) fun hsome => ?_
    · simp only [fileCall, he]
    · rw [he] at hsome
      cases hsome
  | some e =>
    have hans : FileCall.Answerable x s (.sysSeek fd position) ↔ 0 ≤ offT position := by
      show (_ → _) ↔ _
      rw [he]
      exact ⟨fun h => h rfl, fun h _ => h⟩
    obtain ⟨z, hz⟩ := hs.balanced.file_of_mem
      (List.mem_cons_of_mem _ (hin _ (mem_held_of_elem (getFileWithFd_mem he))))
    by_cases hpos : 0 ≤ offT position
    · refine returns_iff_of_ok x (s.setFile e.mFile (some { z with pos := offT position })) .done ?_
        (by simp) (hans.mpr hpos)
      simp only [fileCall, he, fileSeek, getFile_eq_ok.mpr hz, bind_ok, if_pos hpos]
    · refine returns_iff_of_error (e := .newPos) ?_ (mt hans.mp hpos)
      simp only [fileCall, he, fileSeek, getFile_eq_ok.mpr hz, bind_ok, if_neg hpos]
      rfl

/-- A call about descriptors comes back, with `IOLock` up, exactly when it is answerable. -/
theorem fileCall_returns_iff (h : FsSound { fs := s, files := files }) (hown : Owns (some x) s l)
    (hin : ∀ f ∈ held (some x), f ∈ files) (hge : ∀ e ∈ x.fileList, 5 ≤ e.fd)
    (hc : c.AboutFiles) : Returns c x s ↔ c.Answerable x s := by
  obtain ⟨g, -, hs⟩ := h.sound
  have hnone : ∀ c, fileCall c x s = .ok (x.exit, s, .terminated) → c.Answerable x s →
      (Returns c x s ↔ c.Answerable x s) := fun c hx => returns_iff_of_ok _ _ _ hx (by simp)
  have hopen : ∀ fd e, getFileWithFd fd x = some e → ∃ z, s.file e.mFile = some z :=
    fun fd e he => hs.balanced.file_of_mem
      (List.mem_cons_of_mem _ (hin _ (mem_held_of_elem (getFileWithFd_mem he))))
  cases c with
  | sysExit => exact returns_iff_of_ok _ _ .done rfl (by simp) trivial
  | sysCreate name size m => exact hc.elim
  | sysRemove name m => exact hc.elim
  | sysOpen name m => exact returns_open h name m
  | sysRead fd buffer size key => exact returns_read h hin hge fd buffer size key
  | sysWrite fd buffer size => exact returns_write h hown hin hge fd hc buffer size
  | sysSeek fd position => exact returns_seek h hin fd position
  | sysFilesize fd =>
    cases he : getFileWithFd fd x with
    | none =>
      refine hnone _ ?_ trivial
      simp only [fileCall, he]
    | some e =>
      obtain ⟨z, hz⟩ := hopen fd e he
      refine returns_iff_of_ok x s (.eax (s.inode z.inode).length) ?_ (by simp)
        trivial
      simp only [fileCall, he, fileLength, getFile_eq_ok.mpr hz, bind_ok]
  | sysTell fd =>
    cases he : getFileWithFd fd x with
    | none =>
      refine hnone _ ?_ trivial
      simp only [fileCall, he]
    | some e =>
      obtain ⟨z, hz⟩ := hopen fd e he
      refine returns_iff_of_ok x s (.eax z.pos) ?_ (by simp) trivial
      simp only [fileCall, he, fileTell, getFile_eq_ok.mpr hz, bind_ok]
  | sysClose fd =>
    cases he : getFileWithFd fd x with
    | none =>
      refine hnone _ ?_ trivial
      simp only [fileCall, he]
    | some e =>
      have hf := hin _ (mem_held_of_elem (getFileWithFd_mem he))
      obtain ⟨s₁, hx, -⟩ := hs.of_fileClose (List.mem_cons_of_mem _ hf) (h.not_map hf)
      refine returns_iff_of_ok { x with fileList := x.fileList.erase e } s₁ .done ?_ (by simp) trivial
      simp only [fileCall, he, hx, bind_ok]
  | sysMmap fd alloc dies => exact hc.elim

/-- The next close of `SYS_EXIT` goes through. -/
theorem closeNext_returns (h : FsSound { fs := s, files := files })
    (hin : ∀ f ∈ held (some x), f ∈ files) (hstage : x.stage = .closing) (p : ProcRef) :
    ∃ y s' out, procStep (.closeNext p) x s = .ok (y, s', out) := by
  obtain ⟨g, -, hs⟩ := h.sound
  unfold procStep
  rw [hstage]
  dsimp only
  cases hlist : x.fileList with
  | nil => exact ⟨_, _, _, rfl⟩
  | cons e rest =>
    have hf := hin e.mFile (mem_held_of_elem (hlist ▸ List.mem_cons_self ..))
    obtain ⟨s₁, hx, -⟩ := hs.of_fileClose (List.mem_cons_of_mem _ hf) (h.not_map hf)
    dsimp only
    rw [hx, bind_ok]
    exact ⟨_, _, _, rfl⟩

end Pintos.Syscall
