import Pintos.Lib.Run
import Pintos.Filesys.Counting
import Pintos.Filesys.Mounting
import Pintos.Syscall.Branches

/-!
# Who holds which file

A live process holds the files of its descriptors, its executable and the file it is loading. No
file is held twice, all are open, and the ones that deny writes are the executables. `Owns` says so
of one process, `Acted` what a step of it may do to the files, and `Holding` is the invariant of the
whole kernel. Files that nobody holds may still be open: a process that is killed leaves them.
-/

namespace Pintos.Syscall

open Pintos.Lib Pintos.Filesys

variable {s s' : Files} {x x' : Proc} {y y' : Option Proc} {l l' : List FileRef}
  {extra extra' : List InodeRef} {f : FileRef} {p : ProcRef} {k k' : Kernel} {ev : FileEvent}
  {out : Outcome} {c : FileCall}

/-! ## One process -/

/-- The file that `load` has in hand. -/
def Stage.file : Stage → Option FileRef
  | .loading file => file
  | _ => none

/-- The files a process holds. -/
def Proc.held (x : Proc) : List FileRef :=
  x.fileList.map (·.mFile) ++ x.mFile.toList ++ x.stage.file.toList

/-- No process, no files. -/
def held (y : Option Proc) : List FileRef := y.elim [] Proc.held

/-- The executable of a process. -/
def executable (y : Option Proc) : Option FileRef := y.bind (·.mFile)

/-- A process holds its executable. -/
theorem mem_held_of_executable (h : executable y = some f) : f ∈ held y := by
  cases y with
  | none => cases h
  | some x =>
    have hx : x.mFile = some f := h
    apply List.mem_append_left
    apply List.mem_append_right
    rw [hx]
    exact List.mem_singleton_self f

/-- A process holds the files of its descriptors. -/
theorem mem_held_of_elem {e : FileListElem} (h : e ∈ x.fileList) : e.mFile ∈ held (some x) :=
  List.mem_append_left _ (List.mem_append_left _ (List.mem_map_of_mem h))

/-- A process holds the file it is being loaded from. -/
theorem mem_held_of_loading (h : x.stage = .loading (some f)) : f ∈ held (some x) := by
  apply List.mem_append_right
  rw [h]
  exact List.mem_singleton_self f

/-- In `load` a process holds the file it has in hand, and its executable afterwards. -/
theorem held_loading {file : Option FileRef} (hnone : x.mFile = none)
    (hstage : x.stage = .loading file) :
    held (some x) = x.fileList.map (·.mFile) ++ file.toList := by
  show x.fileList.map (·.mFile) ++ x.mFile.toList ++ x.stage.file.toList = _
  rw [hnone, hstage, Option.toList_none, List.append_nil]
  rfl

/-- The file it was loaded from becomes its executable. -/
theorem held_loaded (hnone : x.mFile = none) (hstage : x.stage = .loading (some f)) :
    held (some { x with mFile := some f, stage := .user }) = held (some x) := by
  rw [held_loading hnone hstage]
  show x.fileList.map (·.mFile) ++ [f] ++ [] = _
  rw [List.append_nil]
  rfl

/-- Where the load fails the file is closed. -/
theorem held_failed {file : Option FileRef} (hnone : x.mFile = none)
    (hstage : x.stage = .loading file) :
    held (some x) = x.fileList.map (·.mFile) ++ file.toList ∧
      held (some { x with mFile := none, stage := .exiting }) = x.fileList.map (·.mFile) := by
  refine ⟨held_loading hnone hstage, ?_⟩
  show x.fileList.map (·.mFile) ++ [] ++ [] = _
  rw [List.append_nil, List.append_nil]

/-- With a new descriptor a process holds its file too. -/
theorem held_open {fd fd' : Int} : (held (some { x with
    fileList := x.fileList ++ [{ mFile := f, fd := fd }], fdCounter := fd' })).Perm
      (f :: held (some x)) := by
  show ((x.fileList ++ [_]).map FileListElem.mFile ++ x.mFile.toList ++ x.stage.file.toList).Perm
    (f :: (x.fileList.map FileListElem.mFile ++ x.mFile.toList ++ x.stage.file.toList))
  rw [List.map_append, List.append_assoc, List.append_assoc, List.append_assoc]
  exact List.perm_middle

/-- Without one of its descriptors a process holds one file less. -/
theorem held_erase {e : FileListElem} (h : e ∈ x.fileList) :
    (held (some x)).Perm (e.mFile :: held (some { x with fileList := x.fileList.erase e })) := by
  show (x.fileList.map FileListElem.mFile ++ x.mFile.toList ++ x.stage.file.toList).Perm
    (e.mFile :: ((x.fileList.erase e).map FileListElem.mFile ++ x.mFile.toList ++
      x.stage.file.toList))
  rw [List.append_assoc, List.append_assoc, ← List.cons_append]
  exact ((List.perm_cons_erase h).map FileListElem.mFile).append_right _

/-- The files of a process are open, each once, and of these the executable denies writes. -/
structure Owns (y : Option Proc) (s : Files) (l : List FileRef) : Prop where
  nodup : (held y).Nodup
  opened : ∀ f ∈ held y, f ∈ l
  denies : ∀ f ∈ held y, ∀ z, s.file f = some z → (z.denyWrite = true ↔ executable y = some f)
  loading : ∀ x file, y = some x → x.stage = .loading file → x.mFile = none

/-- Only the executable denies writes. -/
theorem Owns.denies_exec {z : File} (h : Owns y s l) (hf : f ∈ held y) (hz : s.file f = some z)
    (hne : executable y ≠ some f) : z.denyWrite = false :=
  Bool.eq_false_iff.mpr fun hd => hne ((h.denies f hf z hz).mp hd)

/-- What a step of a process may do to the files. -/
structure Acted (y y' : Option Proc) (s s' : Files) (l l' : List FileRef) : Prop where
  owns : Owns y' s' l'
  fresh : ∀ f ∈ held y', f ∈ held y ∨ f ∉ l
  others : ∀ f ∈ l, f ∉ held y → f ∈ l' ∧ s'.file f = s.file f
  /-- A file it lets go of, or opens without holding it, does not deny writes. -/
  left : ∀ f ∈ l', f ∉ held y' → (f ∈ held y ∨ f ∉ l) → ∀ z, s'.file f = some z →
    z.denyWrite = false
  positions : (∀ f z, s.file f = some z → 0 ≤ z.pos) → ∀ f z, s'.file f = some z → 0 ≤ z.pos

/-- The files are as they were. -/
theorem Acted.of_kept (h : Owns y s l) (hk : s'.file = s.file)
    (hsub : (held y').Sublist (held y)) (hexe : executable y' = executable y)
    (hload : ∀ (x : Proc) file, y' = some x → x.stage = .loading file → x.mFile = none) :
    Acted y y' s s' l l := by
  constructor
  case owns =>
    refine ⟨h.nodup.sublist hsub, fun f hf => h.opened f (hsub.subset hf), fun f hf z hz => ?_,
      hload⟩
    rw [hk] at hz
    rw [hexe]
    exact h.denies f (hsub.subset hf) z hz
  case fresh => exact fun f hf => .inl (hsub.subset hf)
  case others =>
    intro f hf _
    rw [hk]
    exact ⟨hf, rfl⟩
  case left =>
    intro f hf hout hin z hz
    rw [hk] at hz
    refine h.denies_exec (hin.resolve_right (not_not_intro hf)) hz fun hex => hout ?_
    apply mem_held_of_executable
    rw [hexe]
    exact hex
  case positions =>
    rw [hk]
    exact id

/-- Past `load` a process holds what it held, or less. -/
theorem held_stage (x : Proc) {stage : Stage} (hs : stage.file = none) :
    (held (some { x with stage := stage })).Sublist (held (some x)) := by
  show (x.fileList.map FileListElem.mFile ++ x.mFile.toList ++ stage.file.toList).Sublist _
  rw [hs]
  exact (List.Sublist.refl _).append (List.nil_sublist _)

/-- An exit that is begun does not go on loading. -/
theorem not_loading_exit (x' : Proc) (file : Option FileRef) (hx : some x.exit = some x')
    (hs : x'.stage = .loading file) : x'.mFile = none := by
  cases hx
  cases hs

/-- The process calls `thread_exit`. -/
theorem Acted.of_exit (h : Owns (some x) s l) (hk : s'.file = s.file) :
    Acted (some x) (some x.exit) s s' l l :=
  .of_kept h hk (held_stage x rfl) rfl not_loading_exit

/-- And leaves the process as it was. -/
theorem Acted.of_same (h : Owns y s l) (hk : s'.file = s.file) : Acted y y s s' l l :=
  .of_kept h hk (.refl _) rfl h.loading

/-- A file it holds is read, written or sought in. -/
theorem Acted.of_moved {z : File} {pos : Int} (h : Owns y s l) (hf : f ∈ held y)
    (hm : Moved s s' f z pos) : Acted y y s s' l l := by
  have hdeny : ∀ g w, s'.file g = some w → ∃ w', s.file g = some w' ∧ w.denyWrite = w'.denyWrite := by
    intro g w hw
    rw [hm.file] at hw
    by_cases heq : g = f
    · rw [heq, Function.update_self] at hw
      cases hw
      exact ⟨z, heq ▸ hm.opened, rfl⟩
    · rw [Function.update_of_ne heq] at hw
      exact ⟨w, hw, rfl⟩
  constructor
  case owns =>
    refine ⟨h.nodup, h.opened, fun g hg w hw => ?_, h.loading⟩
    obtain ⟨w', hw', heq⟩ := hdeny g w hw
    rw [heq]
    exact h.denies g hg w' hw'
  case fresh => exact fun _ => .inl
  case others =>
    intro g hg hout
    rw [hm.file, Function.update_of_ne]
    · exact ⟨hg, rfl⟩
    · exact fun heq => hout (heq ▸ hf)
  case left =>
    intro g hg hout hin
    exact absurd (hin.resolve_right (not_not_intro hg)) hout
  case positions =>
    intro hpos g w hw
    rw [hm.file] at hw
    by_cases heq : g = f
    · rw [heq, Function.update_self] at hw
      cases hw
      exact hm.nonneg (hpos f z hm.opened)
    · rw [Function.update_of_ne heq] at hw
      exact hpos g w hw

/-- A file is opened, for the process to hold or for nobody. -/
theorem Acted.of_opened {r : InodeRef} (h : Owns y s l) (hb : Balanced s' (f :: l) extra)
    (ho : Opened s s' f r) (hsub : (held y').Subperm (f :: held y))
    (hexe : executable y' = executable y)
    (hload : ∀ (x : Proc) file, y' = some x → x.stage = .loading file → x.mFile = none) :
    Acted y y' s s' l (f :: l) := by
  have hfresh : f ∉ l := (List.nodup_cons.mp hb.nodup).1
  have hnew : f ∉ held y := fun hf => hfresh (h.opened f hf)
  have hin : ∀ g ∈ held y', g = f ∨ g ∈ held y := fun g hg => List.mem_cons.mp (hsub.subset hg)
  have hself : ∀ z, s'.file f = some z → z.denyWrite = false := by
    intro z hz
    rw [ho.file, Function.update_self] at hz
    cases hz
    rfl
  have hold : ∀ g, g ≠ f → s'.file g = s.file g := by
    intro g hg
    rw [ho.file, Function.update_of_ne hg]
  have hexe' : executable y' ≠ some f := by
    rw [hexe]
    exact fun hex => hnew (mem_held_of_executable hex)
  constructor
  case owns =>
    refine ⟨?_, fun g hg => ?_, fun g hg z hz => ?_, hload⟩
    · obtain ⟨l₁, hperm, hsub⟩ := hsub
      exact hperm.nodup_iff.mp ((List.nodup_cons.mpr ⟨hnew, h.nodup⟩).sublist hsub)
    · rcases hin g hg with heq | hg
      · exact heq ▸ List.mem_cons_self ..
      · exact List.mem_cons_of_mem _ (h.opened g hg)
    · rcases hin g hg with heq | hg
      · rw [heq] at hz ⊢
        rw [hself z hz]
        exact ⟨fun hd => absurd hd Bool.false_ne_true, fun hex => absurd hex hexe'⟩
      · rw [hold g fun heq => hnew (heq ▸ hg)] at hz
        rw [hexe]
        exact h.denies g hg z hz
  case fresh =>
    intro g hg
    exact (hin g hg).elim (fun heq => .inr (heq ▸ hfresh)) .inl
  case others =>
    intro g hg _
    exact ⟨List.mem_cons_of_mem _ hg, hold g fun heq => hfresh (heq ▸ hg)⟩
  case left =>
    intro g hg hout hin z hz
    by_cases heq : g = f
    · exact hself z (heq ▸ hz)
    · rw [hold g heq] at hz
      have hgl := (List.mem_cons.mp hg).resolve_left heq
      refine h.denies_exec (hin.resolve_right (not_not_intro hgl)) hz fun hex => hout ?_
      apply mem_held_of_executable
      rw [hexe]
      exact hex
  case positions =>
    intro hpos g z hz
    by_cases heq : g = f
    · rw [heq, ho.file, Function.update_self] at hz
      cases hz
      exact Int.le_refl 0
    · exact hpos g z (hold g heq ▸ hz)

/-- A file it holds is closed. -/
theorem Acted.of_closed (h : Owns y s l) (hn : l.Nodup)
    (hfile : s'.file = Function.update s.file f none) (hperm : (held y).Perm (f :: held y'))
    (hexe : executable y' = executable y)
    (hload : ∀ (x : Proc) file, y' = some x → x.stage = .loading file → x.mFile = none) :
    Acted y y' s s' l (l.erase f) := by
  have hnodup := List.nodup_cons.mp (hperm.nodup_iff.mp h.nodup)
  have hin : ∀ g ∈ held y', g ∈ held y := fun g hg =>
    hperm.mem_iff.mpr (List.mem_cons_of_mem _ hg)
  have hne : ∀ g ∈ held y', g ≠ f := fun g hg heq => hnodup.1 (heq ▸ hg)
  have hold : ∀ g, g ≠ f → s'.file g = s.file g := by
    intro g hg
    rw [hfile, Function.update_of_ne hg]
  constructor
  case owns =>
    refine ⟨hnodup.2, fun g hg => ?_, fun g hg z hz => ?_, hload⟩
    · exact (List.mem_erase_of_ne (hne g hg)).mpr (h.opened g (hin g hg))
    · rw [hold g (hne g hg)] at hz
      rw [hexe]
      exact h.denies g (hin g hg) z hz
  case fresh => exact fun g hg => .inl (hin g hg)
  case others =>
    intro g hg hout
    have hgf : g ≠ f := fun heq => hout (heq ▸ hperm.mem_iff.mpr (List.mem_cons_self ..))
    exact ⟨(List.mem_erase_of_ne hgf).mpr hg, hold g hgf⟩
  case left =>
    intro g hg hout hin z hz
    obtain ⟨hgf, hgl⟩ := (List.Nodup.mem_erase_iff hn).mp hg
    rw [hold g hgf] at hz
    refine h.denies_exec (hin.resolve_right (not_not_intro hgl)) hz fun hex => hout ?_
    apply mem_held_of_executable
    rw [hexe]
    exact hex
  case positions =>
    intro hpos g z hz
    by_cases heq : g = f
    · rw [heq, hfile, Function.update_self] at hz
      cases hz
    · exact hpos g z (hold g heq ▸ hz)

/-- `load` succeeds: the file it has in hand becomes the executable and denies writes. -/
theorem Acted.of_loaded {z : File} (h : Owns (some x) s l) (hstage : x.stage = .loading (some f))
    (hz : s.file f = some z)
    (hfile : s'.file = Function.update s.file f (some { z with denyWrite := true })) :
    Acted (some x) (some { x with mFile := some f, stage := .user }) s s' l l := by
  have hnone := h.loading x _ rfl hstage
  have hheld' := held_loaded hnone hstage
  have hin : f ∈ held (some x) := mem_held_of_loading hstage
  have hold : ∀ g, g ≠ f → s'.file g = s.file g := by
    intro g hg
    rw [hfile, Function.update_of_ne hg]
  have hexe : executable (some x) = none := hnone
  constructor
  case owns =>
    refine ⟨hheld' ▸ h.nodup, hheld' ▸ h.opened, fun g hg w hw => ?_, fun x' file hx' hs' => ?_⟩
    · show w.denyWrite = true ↔ some f = some g
      by_cases heq : g = f
      · rw [heq, hfile, Function.update_self] at hw
        cases hw
        exact ⟨fun _ => by rw [heq], fun _ => rfl⟩
      · rw [hold g heq] at hw
        rw [h.denies_exec (hheld' ▸ hg) hw (by rw [hexe]; exact nofun)]
        exact ⟨fun hd => absurd hd Bool.false_ne_true, fun hs => absurd (Option.some.inj hs).symm heq⟩
    · cases hx'
      cases hs'
  case fresh => exact fun g hg => .inl (hheld' ▸ hg)
  case others =>
    intro g hg hout
    exact ⟨hg, hold g fun heq => hout (heq ▸ hin)⟩
  case left =>
    intro g hg hout hin' _ _
    rw [hheld'] at hout
    exact absurd (hin'.resolve_right (not_not_intro hg)) hout
  case positions =>
    intro hpos g w hw
    by_cases heq : g = f
    · rw [heq, hfile, Function.update_self] at hw
      cases hw
      exact hpos f z hz
    · exact hpos g w (hold g heq ▸ hw)

/-- The process is gone, and its executable allows writes. -/
theorem Acted.of_gone (h : Owns (some x) s l)
    (hfile : ∀ g z, s'.file g = some z →
      (x.mFile = some g ∧ z.denyWrite = false ∧ ∃ w, s.file g = some w ∧ z.pos = w.pos) ∨
      x.mFile ≠ some g ∧ s.file g = some z)
    (hothers : ∀ g, x.mFile ≠ some g → s'.file g = s.file g) :
    Acted (some x) none s s' l l := by
  constructor
  case owns => exact ⟨List.nodup_nil, nofun, nofun, nofun⟩
  case fresh => exact nofun
  case others =>
    intro g hg hout
    exact ⟨hg, hothers g fun hex => hout (mem_held_of_executable hex)⟩
  case left =>
    intro g hg _ hin z hz
    rcases hfile g z hz with ⟨-, hd, -⟩ | ⟨hne, hz⟩
    · exact hd
    · exact h.denies_exec (hin.resolve_right (not_not_intro hg)) hz hne
  case positions =>
    intro hpos g z hz
    rcases hfile g z hz with ⟨-, -, w, hw, heq⟩ | ⟨-, hz⟩
    · rw [heq]
      exact hpos g w hw
    · exact hpos g z hz

/-! ## Every step of a process -/

/-- The files a step leaves open, and the references to inodes that are out. -/
def Lands (y y' : Option Proc) (s s' : Files) (l : List FileRef) : Prop :=
  ∃ l' extra', Balanced s' l' extra' ∧ Acted y y' s s' l l'

/-- A descriptor that is found is in the list. -/
theorem getFileWithFd_mem {fd : Int} {e : FileListElem} (h : getFileWithFd fd x = some e) :
    e ∈ x.fileList := List.mem_of_find?_eq_some h

/-- A call on a descriptor, or the end of the process. -/
theorem Lands.of_exit (hb : Balanced s l extra) (h : Owns (some x) s l) :
    Lands (some x) (some x.exit) s s l := ⟨l, extra, hb, .of_exit h rfl⟩

/-- Where nothing changes, all lands where it was. -/
theorem Lands.of_same (hb : Balanced s l extra) (h : Owns y s l) : Lands y y s s l :=
  ⟨l, extra, hb, .of_same h rfl⟩

/-- A file that is opened lands in the list. -/
theorem Lands.of_open {fd fd' : Int} (h : Owns (some x) s l) (hstage : x.stage = .user)
    {r : InodeRef} (hb : Balanced s' (f :: l) extra) (ho : Opened s s' f r) :
    Lands (some x) (some { x with
      fileList := x.fileList ++ [{ mFile := f, fd := fd }], fdCounter := fd' }) s s' l := by
  refine ⟨f :: l, extra, hb, .of_opened h hb ho held_open.subperm rfl fun x' file hx' hs' => ?_⟩
  cases hx'
  rw [hstage] at hs'
  cases hs'

/-- A file that is closed is gone from the list and from the kernel. -/
theorem Lands.of_close {e : FileListElem} (hb : Balanced s l extra) (h : Owns (some x) s l)
    (hstage : ∀ file, x.stage ≠ .loading file) (he : e ∈ x.fileList)
    (hx : fileClose e.mFile s = .ok s') :
    Lands (some x) (some { x with fileList := x.fileList.erase e }) s s' l := by
  obtain ⟨hb', -, hfile, -⟩ := hb.of_fileClose (h.opened _ (mem_held_of_elem he)) hx
  refine ⟨_, extra, hb', .of_closed h hb.nodup hfile (held_erase he) rfl fun x' file hx' hs' => ?_⟩
  cases hx'
  exact absurd hs' (hstage file)

/-- `load` has failed. -/
theorem Lands.of_failed {file : Option FileRef} (hb : Balanced s l extra) (h : Owns (some x) s l)
    (hstage : x.stage = .loading file) (hx : closeFile file s = .ok s') :
    Lands (some x) (some { x with mFile := none, stage := .exiting }) s s' l := by
  have hnone := h.loading x _ rfl hstage
  obtain ⟨hheld, hheld'⟩ := held_failed hnone hstage
  have hload : ∀ (x' : Proc) file',
      some { x with mFile := none, stage := .exiting } = some x' → x'.stage = .loading file' →
      x'.mFile = none := by
    intro x' file' hx' hs'
    cases hx'
    cases hs'
  cases file with
  | none =>
    cases hx
    refine ⟨l, extra, hb, .of_kept h rfl ?_ hnone.symm hload⟩
    rw [hheld', hheld, Option.toList_none, List.append_nil]
  | some f =>
    obtain ⟨hb', -, hfile, -⟩ := hb.of_fileClose (h.opened f (mem_held_of_loading hstage)) hx
    refine ⟨_, extra, hb', .of_closed h hb.nodup hfile ?_ hnone.symm hload⟩
    rw [hheld', hheld]
    exact List.perm_append_singleton f _

/-- A file that is held has only moved its position. -/
theorem Lands.of_moved {z : File} {pos : Int} (hb : Balanced s' l extra) (h : Owns (some x) s l)
    (hin : f ∈ held (some x)) (hm : Moved s s' f z pos) : Lands (some x) (some x) s s' l :=
  ⟨l, extra, hb, .of_moved h hin hm⟩

/-- Every call keeps the counts and acts on the files of its process only. -/
theorem fileCall_lands (hb : Balanced s l extra) (h : Owns (some x) s l) (hstage : x.stage = .user)
    (hx : fileCall c x s = .ok (x', s', out)) : Lands (some x) (some x') s s' l := by
  have hkept : ∀ {extra₁}, Balanced s' l extra₁ → Kept s s' → Lands (some x) (some x) s s' l :=
    fun hb₁ hk₁ => ⟨l, _, hb₁, .of_same h hk₁.file⟩
  have hin : ∀ {fd e}, getFileWithFd fd x = some e → e.mFile ∈ held (some x) :=
    fun he => mem_held_of_elem (getFileWithFd_mem he)
  cases fileCall_branch hx with
  | closing =>
    refine ⟨l, extra, hb, .of_kept h rfl (held_stage x rfl) rfl fun x' file hx' hs' => ?_⟩
    cases hx'
    cases hs'
  | ends _ => exact .of_exit hb h
  | leaves _ => exact .of_same hb h
  | createFatal h₁ =>
    obtain ⟨⟨extra₁, hb₁⟩, hk₁⟩ := hb.of_filesysCreateFatal h₁
    exact hkept hb₁ hk₁
  | create h₁ => exact hkept (hb.of_filesysCreate h₁).1 (hb.of_filesysCreate h₁).2
  | removeFatal h₁ => exact hkept (hb.of_dirOpenRoot h₁).1 (hb.of_dirOpenRoot h₁).2
  | remove h₁ => exact hkept (hb.of_filesysRemove h₁).1 (hb.of_filesysRemove h₁).2
  | openFatal h₁ => exact hkept (hb.of_dirOpenRoot h₁).1 (hb.of_dirOpenRoot h₁).2
  | openNone h₁ => exact hkept (hb.of_filesysOpen h₁).1 (hb.of_filesysOpen h₁).2
  | opened h₁ =>
    obtain ⟨hb₁, r, ho⟩ := hb.of_filesysOpen h₁
    exact .of_open h hstage hb₁ ho
  | read he h₁ =>
    obtain ⟨hb₁, z, hm, -⟩ := fileRead_eq_ok hb (h.opened _ (hin he)) h₁
    exact .of_moved hb₁ h (hin he) hm
  | write he h₁ =>
    obtain ⟨hb₁, z, hm, -⟩ := fileWrite_eq_ok hb (h.opened _ (hin he)) h₁
    exact .of_moved hb₁ h (hin he) hm
  | seek he h₁ =>
    obtain ⟨hb₁, z, hm⟩ := fileSeek_eq_ok hb (h.opened _ (hin he)) h₁
    exact .of_moved hb₁ h (hin he) hm
  | close he h₁ =>
    refine .of_close hb h (fun file hs => ?_) (getFileWithFd_mem he) h₁
    rw [hstage] at hs
    cases hs
  | @unmapped _ _ _ _ o _ he h₁ =>
    have hopen := hb.of_fileReopen (h.opened _ (hin he)) h₁
    cases o with
    | none => exact ⟨l, extra, hopen.1, .of_exit h hopen.2.file⟩
    | some f =>
      obtain ⟨hb₁, r, ho⟩ := hopen
      exact ⟨_, extra, hb₁, .of_opened h hb₁ ho ((held_stage x rfl).cons f).subperm rfl
        not_loading_exit⟩
  | mapped he h₁ =>
    obtain ⟨hb₁, r, ho⟩ := hb.of_fileReopen (h.opened _ (hin he)) h₁
    exact ⟨_, extra, hb₁, .of_opened h hb₁ ho (List.sublist_cons_self _ _).subperm rfl h.loading⟩

/-- A step of a process that is there. -/
theorem procStep_lands (hb : Balanced s l extra) (h : Owns (some x) s l)
    (hx : procStep ev x s = .ok (y', s', out)) : Lands (some x) y' s s' l := by
  unfold procStep at hx
  split at hx
  next size f hstage =>
    obtain ⟨⟨bytes, s₁⟩, h₁, hx⟩ := bind_eq_ok.mp hx
    cases hx
    have hin := mem_held_of_loading hstage
    obtain ⟨hb₁, z, hm, -⟩ := fileRead_eq_ok hb (h.opened _ hin) h₁
    exact ⟨l, extra, hb₁, .of_moved h hin hm⟩
  next ofs f hstage =>
    obtain ⟨s₁, h₁, hx⟩ := bind_eq_ok.mp hx
    cases hx
    have hin := mem_held_of_loading hstage
    obtain ⟨hb₁, z, hm⟩ := fileSeek_eq_ok hb (h.opened _ hin) h₁
    exact ⟨l, extra, hb₁, .of_moved h hin hm⟩
  next f hstage =>
    obtain ⟨s₁, h₁, hx⟩ := bind_eq_ok.mp hx
    cases hx
    have hin := h.opened _ (mem_held_of_loading hstage)
    obtain ⟨z, hz⟩ := hb.file_of_mem hin
    obtain ⟨s₂, h₂, hb₂, -, hfile, -⟩ := fileDenyWrite_ok hb hin hz
    rw [h₁] at h₂
    cases h₂
    exact ⟨l, extra, hb₂, .of_loaded h hstage hz hfile⟩
  next file hstage =>
    obtain ⟨s₁, h₁, hx⟩ := bind_eq_ok.mp hx
    cases hx
    exact .of_failed hb h hstage h₁
  next c hstage =>
    obtain ⟨⟨x₁, s₁, out₁⟩, h₁, hx⟩ := bind_eq_ok.mp hx
    cases hx
    exact fileCall_lands hb h hstage h₁
  next hstage =>
    split at hx
    · cases hx
      exact .of_exit hb h
    next e rest hlist =>
      obtain ⟨s₁, h₁, hx⟩ := bind_eq_ok.mp hx
      cases hx
      have hrest : x.fileList.erase e = rest := by
        rw [hlist, List.erase_cons_head]
      rw [← hrest]
      refine .of_close hb h (fun file hs => ?_) (hlist ▸ List.mem_cons_self ..) h₁
      rw [hstage] at hs
      cases hs
  · cases hx
    exact .of_exit hb h
  · cases hx
    exact .of_exit hb h
  next hstage =>
    split at hx
    next hnone =>
      cases hx
      refine ⟨l, extra, hb, .of_gone h (fun g z hz => .inr ⟨?_, hz⟩) fun _ _ => rfl⟩
      rw [hnone]
      exact nofun
    next f hsome =>
      obtain ⟨s₁, h₁, hx⟩ := bind_eq_ok.mp hx
      cases hx
      have hin := h.opened f (mem_held_of_executable (y := some x) hsome)
      obtain ⟨z, hz⟩ := hb.file_of_mem hin
      obtain ⟨s₂, h₂, hb₂, -, hfile, -⟩ := fileAllowWrite_ok hb hin hz
      rw [h₁] at h₂
      cases h₂
      refine ⟨l, extra, hb₂, .of_gone h (fun g w hw => ?_) fun g hg => ?_⟩
      · rw [hfile] at hw
        by_cases heq : g = f
        · rw [heq, Function.update_self] at hw
          cases hw
          exact .inl ⟨heq ▸ hsome, rfl, z, heq ▸ hz, rfl⟩
        · rw [Function.update_of_ne heq] at hw
          refine .inr ⟨fun hg => heq ?_, hw⟩
          exact Option.some.inj (hg.symm.trans hsome)
      · rw [hfile, Function.update_of_ne]
        intro heq
        exact hg (heq ▸ hsome)
  · cases hx

/-- Whatever a process does, the kernel's files are those its list and executable hold. -/
theorem act_lands (hb : Balanced s l extra) (h : Owns y s l) (hx : act ev y s = .ok (y', s', out)) :
    Lands y y' s s' l := by
  unfold act at hx
  split at hx
  · cases hx
    refine ⟨l, extra, hb, .of_kept h rfl (List.nil_sublist _) rfl fun x file hx' _ => ?_⟩
    cases hx'
    rfl
  next name m =>
    obtain ⟨⟨file, s₁⟩, h₁, hx⟩ := bind_eq_ok.mp hx
    cases hx
    have hload : ∀ (x : Proc) file', some (Proc.init file) = some x → x.stage = .loading file' →
        x.mFile = none := by
      intro x file' hx' _
      cases hx'
      rfl
    have hopen := hb.of_filesysOpen h₁
    cases file with
    | none => exact ⟨l, extra, hopen.1, .of_kept h hopen.2.file (List.nil_sublist _) rfl hload⟩
    | some f =>
      obtain ⟨hb₁, r, ho⟩ := hopen
      exact ⟨_, extra, hb₁, .of_opened h hb₁ ho (List.Perm.refl _).subperm rfl hload⟩
  · exact procStep_lands hb h hx
  · cases hx

/-! ## The kernel -/

/-- Who holds what, of the open files `l`. -/
structure Holding (k : Kernel) (l : List FileRef) (extra : List InodeRef) : Prop where
  balanced : Balanced k.files l extra
  owns : ∀ p, Owns (k.proc p) k.files l
  apart : ∀ p q, p ≠ q → ∀ f ∈ held (k.proc p), f ∉ held (k.proc q)
  /-- A file that nobody holds does not deny writes. -/
  unheld : ∀ f ∈ l, (∀ p, f ∉ held (k.proc p)) → ∀ z, k.files.file f = some z →
    z.denyWrite = false
  positions : ∀ f z, k.files.file f = some z → 0 ≤ z.pos

/-- One step, taken apart. -/
theorem step_eq_ok (h : step ev k = .ok (k', out)) :
    act ev (k.proc ev.proc) k.files = .ok (k'.proc ev.proc, k'.files, out) ∧
      ∀ q, q ≠ ev.proc → k'.proc q = k.proc q := by
  unfold step at h
  split at h
  · cases h
  obtain ⟨⟨y, s, out'⟩, h₁, h⟩ := bind_eq_ok.mp h
  cases h
  refine ⟨?_, fun q hq => Function.update_of_ne hq _ _⟩
  show act ev (k.proc ev.proc) k.files = .ok (Function.update k.proc ev.proc y ev.proc, s, out)
  rw [Function.update_self]
  exact h₁

/-- The files of the other processes are left alone. -/
theorem Holding.acted (h : Holding k l extra) (hx : step ev k = .ok (k', out)) :
    ∃ l' extra', Balanced k'.files l' extra' ∧
      Acted (k.proc ev.proc) (k'.proc ev.proc) k.files k'.files l l' :=
  act_lands h.balanced (h.owns ev.proc) (step_eq_ok hx).1

/-- After every step the kernel's files are those that the processes hold. -/
theorem Holding.step (h : Holding k l extra) (hx : Syscall.step ev k = .ok (k', out)) :
    ∃ l' extra', Holding k' l' extra' := by
  obtain ⟨l', extra', hb, ha⟩ := h.acted hx
  have hothers := (step_eq_ok hx).2
  -- what another process holds is not held by this one, so the step leaves it alone
  have hkeep : ∀ q, q ≠ ev.proc → ∀ f ∈ held (k.proc q), f ∈ l' ∧ k'.files.file f = k.files.file f :=
    fun q hq f hf => ha.others f ((h.owns q).opened f hf) (h.apart q ev.proc hq f hf)
  have hsplit : ∀ q, q ≠ ev.proc → ∀ f ∈ held (k.proc q), f ∉ held (k'.proc ev.proc) := by
    intro q hq f hf hf'
    rcases ha.fresh f hf' with hin | hnew
    · exact h.apart q ev.proc hq f hf hin
    · exact hnew ((h.owns q).opened f hf)
  refine ⟨l', extra', hb, fun q => ?_, fun q q' hqq f hf hf' => ?_, fun f hf hout z hz => ?_,
    ha.positions h.positions⟩
  · by_cases hq : q = ev.proc
    · rw [hq]
      exact ha.owns
    · rw [hothers q hq]
      refine ⟨(h.owns q).nodup, fun f hf => (hkeep q hq f hf).1, fun f hf z hz => ?_,
        (h.owns q).loading⟩
      rw [(hkeep q hq f hf).2] at hz
      exact (h.owns q).denies f hf z hz
  · by_cases hq : q = ev.proc
    · have hq' : q' ≠ ev.proc := fun heq => hqq (hq.trans heq.symm)
      rw [hothers q' hq'] at hf'
      rw [hq] at hf
      exact hsplit q' hq' f hf' hf
    · rw [hothers q hq] at hf
      by_cases hq' : q' = ev.proc
      · rw [hq'] at hf'
        exact hsplit q hq f hf hf'
      · rw [hothers q' hq'] at hf'
        exact h.apart q q' hqq f hf hf'
  · by_cases hmine : f ∈ held (k.proc ev.proc) ∨ f ∉ l
    · exact ha.left f hf (hout ev.proc) hmine z hz
    · obtain ⟨hnot, hin⟩ := not_or.mp hmine
      rw [(ha.others f (not_not.mp hin) hnot).2] at hz
      refine h.unheld f (not_not.mp hin) (fun q hq => ?_) z hz
      by_cases heq : q = ev.proc
      · exact hnot (heq ▸ hq)
      · apply hout q
        rw [hothers q heq]
        exact hq

/-! ## From the start -/

/-- The file of the free map is the one that is open. -/
theorem Boots.balanced (h : Boots s) :
    ∃ f, Balanced s [f] [] ∧ ∀ g z, s.file g = some z → z.denyWrite = false ∧ z.pos = 0 := by
  cases h with
  | formatted hsize hsmall hx =>
    obtain ⟨⟨f, hs⟩, -, -⟩ := filesysFormat_sound hsize hsmall hx
    obtain ⟨f', r, hf', hm⟩ := hs.mapFile
    rw [List.mem_singleton] at hf'
    subst hf'
    refine ⟨f', hs.balanced, fun g z hz => ?_⟩
    have hg := (hs.balanced.opened g).mpr (by rw [hz]; rfl)
    rw [List.mem_singleton.mp hg, hm.file] at hz
    cases hz
    exact ⟨rfl, rfl⟩
  | @mounted device f s₀ freeMap pad hx =>
    have hidle : Idle (bootFiles device) := ⟨rfl, (accounted_init device []).balanced⟩
    rw [hidle.openFreeMapFile] at hx
    cases hx
    refine ⟨_, hidle.withMapFile_balanced.of_same ⟨rfl, rfl, rfl, rfl, rfl, rfl⟩, fun g z hz => ?_⟩
    have hz' : Function.update (bootFiles device).file (bootFiles device).nextFile
        (some { inode := (bootFiles device).nextInode, pos := 0, denyWrite := false }) g =
          some z := hz
    by_cases heq : g = (bootFiles device).nextFile
    · rw [heq, Function.update_self] at hz'
      cases hz'
      exact ⟨rfl, rfl⟩
    · rw [Function.update_of_ne heq] at hz'
      cases hz'

/-- `filesys_init (false)`. -/
theorem Boots.of_filesysInit {size : Nat} {junk : Nat → Bool} {device : SectorNo → Sector}
    (hx : filesysInit size junk device = .ok s) : Boots s := by
  have hidle : Idle (bootFiles device) := ⟨rfl, (accounted_init device []).balanced⟩
  unfold filesysInit freeMapOpen at hx
  rw [(bootFiles_idle size junk device).openFreeMapFile, bind_ok] at hx
  obtain ⟨⟨ok, s₁⟩, hread, hx⟩ := bind_eq_ok.mp hx
  unfold bitmapRead at hread
  obtain ⟨z, -, hread⟩ := bind_eq_ok.mp hread
  cases hread
  dsimp only at hx
  split at hx
  · cases hx
    exact Boots.mounted (s := (bootFiles device).withMapFile) _ _ hidle.openFreeMapFile
  · cases hx

/-- Before the first process. -/
def Kernel.start (s : Files) : Kernel where
  files := s
  proc := fun _ => none
  ioLock := true

/-- At first no process holds a file. -/
theorem Holding.start (h : Boots s) : ∃ l, Holding (Kernel.start s) l [] := by
  obtain ⟨f, hb, hno⟩ := h.balanced
  exact ⟨[f], hb, fun _ => ⟨List.nodup_nil, nofun, nofun, nofun⟩, fun _ _ _ => nofun,
    fun f _ _ z hz => (hno f z hz).1, fun f z hz => (hno f z hz).2.ge⟩

/-- In every run. -/
theorem Holding.reach (h : Boots s)
    (hr : Reach (Steps kernelStep) (Kernel.start s) k) : ∃ l extra, Holding k l extra := by
  refine Reach.invariant (P := fun k => ∃ l extra, Holding k l extra) ?_
    (fun k ev k' hk hstep => ?_) hr
  · obtain ⟨l, hl⟩ := Holding.start h
    exact ⟨l, [], hl⟩
  · obtain ⟨l, extra, hl⟩ := hk
    obtain ⟨⟨k₁, out⟩, h₁, hstep⟩ := bind_eq_ok.mp hstep
    cases hstep
    exact hl.step h₁

/-! ## Assertions -/

/-- The assertions a step may fail, and the steps that cannot be taken. -/
def mayFail : List Assertion := [.freeMap, .length, .newPos, .panic, .notEnabled]

section Avoiding

variable {e : Assertion}

/-- A call on a file that is held fails none of the assertions about files. -/
theorem fileCall_avoids (he : e ∉ mayFail) (hb : Balanced s l extra) (h : Owns (some x) s l)
    (c : FileCall) : Avoids e (fileCall c x s) := by
  have hmap : .freeMap ≠ e := fun heq => he (heq ▸ by decide)
  have hlen : .length ≠ e := fun heq => he (heq ▸ by decide)
  have hpos : .newPos ≠ e := fun heq => he (heq ▸ by decide)
  have hpanic : .panic ≠ e := fun heq => he (heq ▸ by decide)
  have hopen : ∀ fd e', getFileWithFd fd x = some e' → e'.mFile ∈ l :=
    fun fd e' hfd => h.opened _ (mem_held_of_elem (getFileWithFd_mem hfd))
  cases c with
  | sysExit => exact .of_ok
  | sysCreate name size m =>
    cases name with
    | refused => exact .of_ok
    | fatal =>
      apply Avoids.bind (filesysCreateFatal_avoids hmap hlen _ _ _)
      exact fun _ _ => .ite (fun _ => .of_ne hpanic) fun _ => .of_ok
    | bytes name => exact .bind (filesysCreate_avoids hmap hlen _ _ _ _) fun _ _ => .of_ok
  | sysRemove name m =>
    cases name with
    | refused => exact .of_ok
    | fatal =>
      apply Avoids.bind (dirOpenRoot_avoids hmap _ _)
      exact fun _ _ => .ite (fun _ => .of_ne hpanic) fun _ => .of_ok
    | bytes name => exact .bind (filesysRemove_avoids hmap _ _ _) fun _ _ => .of_ok
  | sysOpen name m =>
    cases name with
    | refused => exact .of_ok
    | fatal =>
      apply Avoids.bind (dirOpenRoot_avoids hmap _ _)
      exact fun _ _ => .ite (fun _ => .of_ne hpanic) fun _ => .of_ok
    | bytes name =>
      apply Avoids.bind (filesysOpen_avoids hmap _ _ _)
      rintro ⟨_ | f, s₁⟩ _
      · exact .of_ok
      · exact .of_ok
  | sysFilesize fd =>
    simp only [fileCall]
    split
    · exact .of_ok
    next e' he' =>
      exact .bind (getFile_avoids hb (hopen _ _ he') fun _ _ => .of_ok) fun _ _ => .of_ok
  | sysRead fd buffer size key =>
    simp only [fileCall]
    split
    · split
      · exact .of_ok
      next e' he' =>
        apply Avoids.ite
        · exact fun _ => .of_ok
        · intro _
          apply Avoids.bind (getFile_avoids hb (hopen _ _ he') fun _ _ => .of_ok)
          exact fun _ _ => .ite (fun _ => .ite (fun _ => .of_ok) fun _ => .of_ne hpanic)
            fun _ => .of_ok
    · exact .of_ok
  | sysWrite fd buffer size =>
    simp only [fileCall]
    split
    · split
      · exact .ite (fun _ => .ite (fun _ => .of_ne hpanic) fun _ => .of_ok) fun _ => .of_ok
      next e' he' =>
        apply Avoids.ite
        · exact fun _ => .ite (fun _ => .of_ne hpanic) fun _ => .of_ok
        · intro _
          apply Avoids.ite
          · exact fun _ => .of_ok
          · intro _
            apply getFile_avoids hb (hopen _ _ he')
            intro z hz
            apply Avoids.ite
            · exact fun _ => .of_ok
            · intro _
              apply Avoids.ite
              · exact fun _ => .of_ne hpanic
              · exact fun _ => .bind (getFile_avoids hb (hopen _ _ he') fun _ _ => .of_ok)
                  fun _ _ => .of_ok
    · exact .of_ok
  | sysSeek fd position =>
    simp only [fileCall]
    split
    · exact .of_ok
    next e' he' => exact .bind (fileSeek_avoids hpos hb (hopen _ _ he') _) fun _ _ => .of_ok
  | sysTell fd =>
    simp only [fileCall]
    split
    · exact .of_ok
    next e' he' =>
      exact .bind (getFile_avoids hb (hopen _ _ he') fun _ _ => .of_ok) fun _ _ => .of_ok
  | sysClose fd =>
    simp only [fileCall]
    split
    · exact .of_ok
    next e' he' => exact .bind (fileClose_avoids hmap hb (hopen _ _ he')) fun _ _ => .of_ok
  | sysMmap fd alloc dies =>
    simp only [fileCall]
    split
    · exact .of_ok
    next e' he' =>
      apply Avoids.bind (fileReopen_avoids hmap hb (hopen _ _ he') _)
      exact fun _ _ => .ite (fun _ => .of_ok) fun _ => .of_ok

/-- No step of a process on files it holds fails one of these assertions. -/
theorem procStep_avoids (he : e ∉ mayFail) (hb : Balanced s l extra) (h : Owns (some x) s l)
    (ev : FileEvent) : Avoids e (procStep ev x s) := by
  have hmap : .freeMap ≠ e := fun heq => he (heq ▸ by decide)
  have hpos : .newPos ≠ e := fun heq => he (heq ▸ by decide)
  have hno : .notEnabled ≠ e := fun heq => he (heq ▸ by decide)
  unfold procStep
  split
  next size f hstage =>
    exact .bind (getFile_avoids hb (h.opened _ (mem_held_of_loading hstage)) fun _ _ => .of_ok)
      fun _ _ => .of_ok
  next ofs f hstage =>
    exact .bind (fileSeek_avoids hpos hb (h.opened _ (mem_held_of_loading hstage)) _)
      fun _ _ => .of_ok
  next f hstage =>
    have hin := h.opened _ (mem_held_of_loading hstage)
    obtain ⟨z, hz⟩ := hb.file_of_mem hin
    obtain ⟨s₁, h₁, -⟩ := fileDenyWrite_ok hb hin hz
    rw [h₁, bind_ok]
    exact .of_ok
  next file hstage =>
    refine .bind ?_ fun _ _ => .of_ok
    cases file with
    | none => exact .of_ok
    | some f => exact fileClose_avoids hmap hb (h.opened _ (mem_held_of_loading hstage))
  next c _ => exact .bind (fileCall_avoids he hb h c) fun _ _ => .of_ok
  next hstage =>
    split
    · exact .of_ok
    next e' rest hlist =>
      have hin : e' ∈ x.fileList := by
        rw [hlist]
        exact List.mem_cons_self ..
      exact .bind (fileClose_avoids hmap hb (h.opened _ (mem_held_of_elem hin)))
        fun _ _ => .of_ok
  · exact .of_ok
  · exact .of_ok
  next hstage =>
    split
    · exact .of_ok
    next f hsome =>
      have hin := h.opened f (mem_held_of_executable (y := some x) hsome)
      obtain ⟨z, hz⟩ := hb.file_of_mem hin
      obtain ⟨s₁, h₁, -⟩ := fileAllowWrite_ok hb hin hz
      rw [h₁, bind_ok]
      exact .of_ok
  · exact .of_ne hno

/-- No step fails an assertion of `inode_deny_write` or `inode_allow_write`, or uses a file that has
been closed. -/
theorem Holding.avoids (h : Holding k l extra) (he : e ∉ mayFail) (ev : FileEvent) :
    Avoids e (Syscall.step ev k) := by
  have hmap : .freeMap ≠ e := fun heq => he (heq ▸ by decide)
  have hno : .notEnabled ≠ e := fun heq => he (heq ▸ by decide)
  refine .ite (fun _ => .of_ne hno) fun _ => .bind ?_ fun _ _ => .of_ok
  have howns := h.owns ev.proc
  unfold act
  split
  · exact .of_ok
  · exact .bind (filesysOpen_avoids hmap _ _ _) fun _ _ => .of_ok
  next x hx =>
    rw [hx] at howns
    exact procStep_avoids he h.balanced howns _
  · exact .of_ne hno

end Avoiding

end Pintos.Syscall
