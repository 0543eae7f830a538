import Pintos.Syscall.Descriptors

/-!
# The branches of a system call

Which way a call has gone that comes back from `fileCall`. It ends the process and leaves the file
system alone (`Ends`), it answers from what is there (`Leaves`), or it has called a function of the
file system, which has returned (`Branch`). What is said of every call is proved branch by branch,
and does not open `fileCall` again.
-/

namespace Pintos.Syscall

open Pintos.Lib Pintos.Filesys

/-- The calls that end the process, and leave the file system as it is. -/
inductive Ends (x : Proc) (s : Files) : FileCall → Outcome → Prop
  | createName {size : Int32} {m : Mallocs} : Ends x s (.sysCreate .refused size m) .terminated
  | removeName {m : Mallocs} : Ends x s (.sysRemove .refused m) .terminated
  | openName {m : Mallocs} : Ends x s (.sysOpen .refused m) .terminated
  | filesize {fd : Int} (hno : getFileWithFd fd x = none) :
      Ends x s (.sysFilesize fd) .terminated
  | read {fd key : Int} {buffer : Buffer} {n : Nat} (hno : getFileWithFd fd x = none) :
      Ends x s (.sysRead fd buffer n key) .terminated
  | readBuffer {fd key : Int} {buffer : Buffer} {n : Nat} (hchecked : ¬ buffer.checked) :
      Ends x s (.sysRead fd buffer n key) .terminatedLocked
  | readFault {fd key : Int} {buffer : Buffer} {n : Nat} {e : FileListElem} {bytes : List UInt8}
      {s' : Files} (he : getFileWithFd fd x = some e)
      (hx : fileRead e.mFile (offT n) s = .ok (bytes, s')) (hfaults : buffer.faults bytes.length) :
      Ends x s (.sysRead fd buffer n key) .terminatedLocked
  | write {fd : Int} {buffer : Buffer} {n : Nat} (hno : getFileWithFd fd x = none) :
      Ends x s (.sysWrite fd buffer n) .terminated
  | writeBuffer {fd : Int} {buffer : Buffer} {n : Nat} (hchecked : ¬ buffer.checked) :
      Ends x s (.sysWrite fd buffer n) .terminated
  | writeZero {buffer : Buffer} {n : Nat} {e : FileListElem} (he : getFileWithFd 0 x = some e) :
      Ends x s (.sysWrite 0 buffer n) .terminatedLocked
  | writeDenied {fd : Int} {buffer : Buffer} {n : Nat} {e : FileListElem} {z : File}
      (he : getFileWithFd fd x = some e) (hz : s.getFile e.mFile = .ok z)
      (hdenied : z.denyWrite = true) : Ends x s (.sysWrite fd buffer n) .terminatedLocked
  | seek {fd : Int} {n : Nat} (hno : getFileWithFd fd x = none) :
      Ends x s (.sysSeek fd n) .terminated
  | tell {fd : Int} (hno : getFileWithFd fd x = none) : Ends x s (.sysTell fd) .terminated
  | close {fd : Int} (hno : getFileWithFd fd x = none) : Ends x s (.sysClose fd) .terminated
  | mmap {fd : Int} {alloc dies : Bool} (hno : getFileWithFd fd x = none) :
      Ends x s (.sysMmap fd alloc dies) .terminated

/-- The calls that change nothing. -/
inductive Leaves (x : Proc) (s : Files) : FileCall → Outcome → Prop
  | filesize {fd k : Int} {e : FileListElem} (he : getFileWithFd fd x = some e)
      (hx : fileLength e.mFile s = .ok k) : Leaves x s (.sysFilesize fd) (.eax k)
  | key {key : Int} {buffer : Buffer} {n : Nat} {e : FileListElem}
      (he : getFileWithFd 0 x = some e) : Leaves x s (.sysRead 0 buffer n key) (.eax key)
  | console {buffer : Buffer} {n : Nat} : Leaves x s (.sysWrite 1 buffer n) (.eax n)
  | tell {fd k : Int} {e : FileListElem} (he : getFileWithFd fd x = some e)
      (hx : fileTell e.mFile s = .ok k) : Leaves x s (.sysTell fd) (.eax k)

/-- The branches of `fileCall` that come back. -/
inductive Branch (x : Proc) (s : Files) : FileCall → Proc → Files → Outcome → Prop
  | closing : Branch x s .sysExit { x with stage := .closing } s .done
  | ends {c : FileCall} {out : Outcome} (h : Ends x s c out) : Branch x s c x.exit s out
  | leaves {c : FileCall} {out : Outcome} (h : Leaves x s c out) : Branch x s c x s out
  | createFatal {size : Int32} {m : Mallocs} {s' : Files}
      (hx : filesysCreateFatal size.toInt m s = .ok (false, s')) :
      Branch x s (.sysCreate .fatal size m) x s' (.eax 0)
  | create {name : CString} {size : Int32} {m : Mallocs} {success : Bool} {s' : Files}
      (hx : filesysCreate name.1 size.toInt m s = .ok (success, s')) :
      Branch x s (.sysCreate (.bytes name) size m) x s' (.eax (if success then 1 else 0))
  | removeFatal {m : Mallocs} {s' : Files} (hx : dirOpenRoot m s = .ok (none, s')) :
      Branch x s (.sysRemove .fatal m) x s' (.eax 0)
  | remove {name : CString} {m : Mallocs} {success : Bool} {s' : Files}
      (hx : filesysRemove name.1 m s = .ok (success, s')) :
      Branch x s (.sysRemove (.bytes name) m) x s' (.eax (if success then 1 else 0))
  | openFatal {m : Mallocs} {s' : Files} (hx : dirOpenRoot m s = .ok (none, s')) :
      Branch x s (.sysOpen .fatal m) x s' (.eax (-1))
  | openNone {name : CString} {m : Mallocs} {s' : Files}
      (hx : filesysOpen name.1 m s = .ok (none, s')) :
      Branch x s (.sysOpen (.bytes name) m) x s' (.eax (-1))
  | opened {name : CString} {m : Mallocs} {f : FileRef} {s' : Files}
      (hx : filesysOpen name.1 m s = .ok (some f, s')) :
      Branch x s (.sysOpen (.bytes name) m)
        { x with
          fileList := x.fileList ++ [{ mFile := f, fd := x.fdCounter }]
          fdCounter := Int.bmod (x.fdCounter + 1) (2 ^ 32) } s' (.eax x.fdCounter)
  | read {fd key : Int} {buffer : Buffer} {n : Nat} {e : FileListElem} {bytes : List UInt8}
      {s' : Files} (he : getFileWithFd fd x = some e)
      (hx : fileRead e.mFile (offT n) s = .ok (bytes, s')) :
      Branch x s (.sysRead fd buffer n key) x s' (.bytes bytes)
  | write {fd written : Int} {buffer : Buffer} {n : Nat} {e : FileListElem} {s' : Files}
      (he : getFileWithFd fd x = some e)
      (hx : fileWrite e.mFile buffer.bytes (offT n) s = .ok (written, s')) :
      Branch x s (.sysWrite fd buffer n) x s' (.eax written)
  | seek {fd : Int} {n : Nat} {e : FileListElem} {s' : Files} (he : getFileWithFd fd x = some e)
      (hx : fileSeek e.mFile (offT n) s = .ok s') : Branch x s (.sysSeek fd n) x s' .done
  | close {fd : Int} {e : FileListElem} {s' : Files} (he : getFileWithFd fd x = some e)
      (hx : fileClose e.mFile s = .ok s') :
      Branch x s (.sysClose fd) { x with fileList := x.fileList.erase e } s' .done
  | unmapped {fd : Int} {alloc dies : Bool} {e : FileListElem} {o : Option FileRef} {s' : Files}
      (he : getFileWithFd fd x = some e) (hx : fileReopen e.mFile alloc s = .ok (o, s')) :
      Branch x s (.sysMmap fd alloc dies) x.exit s' .terminated
  | mapped {fd : Int} {alloc dies : Bool} {e : FileListElem} {f : FileRef} {s' : Files}
      (he : getFileWithFd fd x = some e) (hx : fileReopen e.mFile alloc s = .ok (some f, s')) :
      Branch x s (.sysMmap fd alloc dies) x s' .done

variable {x x' : Proc} {s s' : Files} {out : Outcome} {c : FileCall} {e : FileListElem}
  {fd key : Int} {buffer : Buffer} {n : Nat}

/-- The branches of `write`, of a file. -/
theorem writeFile_branch (he : getFileWithFd fd x = some e)
    (hx : writeFile e buffer n x s = .ok (x', s', out)) :
    Branch x s (.sysWrite fd buffer n) x' s' out := by
  obtain ⟨z, hz, hx⟩ := bind_eq_ok.mp hx
  split at hx
  next hdenied =>
    cases hx
    exact .ends (.writeDenied he hz hdenied)
  next =>
    dsimp only at hx
    split at hx
    · cases hx
    · obtain ⟨⟨written, s₁⟩, h₁, hx⟩ := bind_eq_ok.mp hx
      cases hx
      exact .write he h₁

/-- `read` with its buffer checked. -/
theorem sysRead_branch (hx : fileCall (.sysRead fd buffer n key) x s = .ok (x', s', out)) :
    Branch x s (.sysRead fd buffer n key) x' s' out := by
  simp only [fileCall] at hx
  split at hx
  · split at hx
    next hno =>
      cases hx
      exact .ends (.read hno)
    next e he =>
      split at hx
      next hzero =>
        cases hx
        subst hzero
        exact .leaves (.key he)
      next =>
        obtain ⟨⟨bytes, s₁⟩, h₁, hx⟩ := bind_eq_ok.mp hx
        dsimp only at hx
        split at hx
        next hfaults =>
          split at hx
          · cases hx
            exact .ends (.readFault he h₁ hfaults)
          · cases hx
        next =>
          cases hx
          exact .read he h₁
  next hchecked =>
    cases hx
    exact .ends (.readBuffer hchecked)

/-- `write`, to the console or to a file. -/
theorem sysWrite_branch (hx : fileCall (.sysWrite fd buffer n) x s = .ok (x', s', out)) :
    Branch x s (.sysWrite fd buffer n) x' s' out := by
  simp only [fileCall] at hx
  split at hx
  next =>
    by_cases hone : fd = 1
    · subst hone
      have hconsole : x' = x ∧ s' = s ∧ out = .eax n := by
        split at hx
        · rw [if_pos rfl] at hx
          split at hx
          · cases hx
          · cases hx
            exact ⟨rfl, rfl, rfl⟩
        · rw [if_pos rfl] at hx
          split at hx
          · cases hx
          · cases hx
            exact ⟨rfl, rfl, rfl⟩
      obtain ⟨rfl, rfl, rfl⟩ := hconsole
      exact .leaves .console
    · split at hx
      next hno =>
        rw [if_neg hone] at hx
        cases hx
        exact .ends (.write hno)
      next e he =>
        rw [if_neg hone] at hx
        split at hx
        next hzero =>
          cases hx
          subst hzero
          exact .ends (.writeZero he)
        next => exact writeFile_branch he hx
  next hchecked =>
    cases hx
    exact .ends (.writeBuffer hchecked)

/-- A call that comes back has gone one of the branches. -/
theorem fileCall_branch (hx : fileCall c x s = .ok (x', s', out)) : Branch x s c x' s' out := by
  cases c with
  | sysExit =>
    cases hx
    exact .closing
  | sysCreate name size m =>
    cases name with
    | refused =>
      cases hx
      exact .ends .createName
    | fatal =>
      obtain ⟨⟨_ | _, s₁⟩, h₁, hx⟩ := bind_eq_ok.mp hx
      · cases hx
        exact .createFatal h₁
      · cases hx
    | bytes name =>
      obtain ⟨⟨success, s₁⟩, h₁, hx⟩ := bind_eq_ok.mp hx
      cases hx
      exact .create h₁
  | sysRemove name m =>
    cases name with
    | refused =>
      cases hx
      exact .ends .removeName
    | fatal =>
      obtain ⟨⟨_ | _, s₁⟩, h₁, hx⟩ := bind_eq_ok.mp hx
      · cases hx
        exact .removeFatal h₁
      · cases hx
    | bytes name =>
      obtain ⟨⟨success, s₁⟩, h₁, hx⟩ := bind_eq_ok.mp hx
      cases hx
      exact .remove h₁
  | sysOpen name m =>
    cases name with
    | refused =>
      cases hx
      exact .ends .openName
    | fatal =>
      obtain ⟨⟨_ | _, s₁⟩, h₁, hx⟩ := bind_eq_ok.mp hx
      · cases hx
        exact .openFatal h₁
      · cases hx
    | bytes name =>
      obtain ⟨⟨_ | f, s₁⟩, h₁, hx⟩ := bind_eq_ok.mp hx
      · cases hx
        exact .openNone h₁
      · cases hx
        exact .opened h₁
  | sysRead fd buffer size key => exact sysRead_branch hx
  | sysWrite fd buffer size => exact sysWrite_branch hx
  | sysFilesize fd =>
    simp only [fileCall] at hx
    split at hx
    next hno =>
      cases hx
      exact .ends (.filesize hno)
    next e he =>
      obtain ⟨k, h₁, hx⟩ := bind_eq_ok.mp hx
      cases hx
      exact .leaves (.filesize he h₁)
  | sysSeek fd position =>
    simp only [fileCall] at hx
    split at hx
    next hno =>
      cases hx
      exact .ends (.seek hno)
    next e he =>
      obtain ⟨s₁, h₁, hx⟩ := bind_eq_ok.mp hx
      cases hx
      exact .seek he h₁
  | sysTell fd =>
    simp only [fileCall] at hx
    split at hx
    next hno =>
      cases hx
      exact .ends (.tell hno)
    next e he =>
      obtain ⟨k, h₁, hx⟩ := bind_eq_ok.mp hx
      cases hx
      exact .leaves (.tell he h₁)
  | sysClose fd =>
    simp only [fileCall] at hx
    split at hx
    next hno =>
      cases hx
      exact .ends (.close hno)
    next e he =>
      obtain ⟨s₁, h₁, hx⟩ := bind_eq_ok.mp hx
      cases hx
      exact .close he h₁
  | sysMmap fd alloc dies =>
    simp only [fileCall] at hx
    split at hx
    next hno =>
      cases hx
      exact .ends (.mmap hno)
    next e he =>
      obtain ⟨⟨o, s₁⟩, h₁, hx⟩ := bind_eq_ok.mp hx
      dsimp only at hx
      split at hx
      next =>
        cases hx
        exact .unmapped he h₁
      next hgoes =>
        cases hx
        cases o with
        | none => exact absurd (.inl rfl) hgoes
        | some f => exact .mapped he h₁

end Pintos.Syscall
