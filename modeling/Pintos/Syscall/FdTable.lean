import Mathlib.Data.List.Nodup
import Pintos.Syscall.Holding

/-!
# Descriptors as a finite map

To its process the list of descriptors is a map from numbers to an inode and a position in it.
`Does` says what each call does to the map that is `Answerable`: a call that is not may panic, or
leave `IOLock` down. A history has, beside the kernel, the descriptors that the opens of a process
have returned and those that have been closed; with fewer opens than there are numbers, a new
descriptor has never been returned before.
-/

namespace Pintos.Syscall

open Pintos.Lib Pintos.Filesys

variable {s s' : Files} {x x' : Proc} {y y' : Option Proc} {l : List FileRef}
  {extra : List InodeRef} {f : FileRef} {p : ProcRef} {k : Kernel} {ev : FileEvent}
  {out : Outcome} {c : FileCall} {e : FileListElem}

/-! ## The map -/

/-- The inode a descriptor is open on, and the position in it. -/
abbrev Table := Int → Option (InodeRef × Int)

def table (y : Option Proc) (s : Files) : Table := fun fd =>
  y.bind fun x => (getFileWithFd fd x).bind fun e => (s.file e.mFile).map fun z => (z.inode, z.pos)

def Proc.fds (x : Proc) : List Int := x.fileList.map (·.fd)

/-- What is found has the descriptor that was looked for. -/
theorem getFileWithFd_fd {fd : Int} (h : getFileWithFd fd x = some e) : e.fd = fd := by
  have hfd : (e.fd == fd) = true :=
    List.find?_some (p := fun e : FileListElem => e.fd == fd) h
  exact beq_iff_eq.mp hfd

/-- Descriptors are unique, so what has the descriptor is found. -/
theorem getFileWithFd_eq_some {fd : Int} (hn : x.fds.Nodup) :
    getFileWithFd fd x = some e ↔ e ∈ x.fileList ∧ e.fd = fd := by
  constructor
  · intro h
    exact ⟨getFileWithFd_mem h, getFileWithFd_fd h⟩
  · rintro ⟨hin, hfd⟩
    cases hfound : getFileWithFd fd x with
    | none =>
      have hno := List.find?_eq_none.mp hfound e hin
      rw [hfd, beq_self_eq_true] at hno
      exact absurd rfl hno
    | some e' =>
      have hin' := getFileWithFd_mem hfound
      rw [List.inj_on_of_nodup_map hn hin' hin ((getFileWithFd_fd hfound).trans hfd.symm)]

/-- The table has the inode and the position of every descriptor in the list. -/
theorem table_eq_some {fd : Int} {v : InodeRef × Int} (hn : x.fds.Nodup) :
    table (some x) s fd = some v ↔
      ∃ e ∈ x.fileList, e.fd = fd ∧ ∃ z, s.file e.mFile = some z ∧ (z.inode, z.pos) = v := by
  show ((getFileWithFd fd x).bind fun e => (s.file e.mFile).map fun z => (z.inode, z.pos)) = some v ↔ _
  rw [Option.bind_eq_some_iff]
  constructor
  · rintro ⟨e, he, hz⟩
    obtain ⟨hin, hfd⟩ := (getFileWithFd_eq_some hn).mp he
    exact ⟨e, hin, hfd, Option.map_eq_some_iff.mp hz⟩
  · rintro ⟨e, hin, hfd, hz⟩
    exact ⟨e, (getFileWithFd_eq_some hn).mpr ⟨hin, hfd⟩, Option.map_eq_some_iff.mpr hz⟩

/-- An element of the list is a row of the table. -/
theorem table_of_elem {z : File} (hn : x.fds.Nodup) (he : e ∈ x.fileList)
    (hz : s.file e.mFile = some z) : table (some x) s e.fd = some (z.inode, z.pos) :=
  (table_eq_some hn).mpr ⟨e, he, rfl, z, hz, rfl⟩

/-- A number that no descriptor has. -/
theorem table_of_not_mem {fd : Int} (h : getFileWithFd fd x = none) : table (some x) s fd = none := by
  show ((getFileWithFd fd x).bind fun e => (s.file e.mFile).map fun z => (z.inode, z.pos)) = none
  rw [h]
  rfl

/-- The table depends on the list and on its files. -/
theorem table_congr (hlist : x'.fileList = x.fileList)
    (h : ∀ e ∈ x.fileList, s'.file e.mFile = s.file e.mFile) :
    table (some x') s' = table (some x) s := by
  ext1 fd
  show ((getFileWithFd fd x').bind fun e => (s'.file e.mFile).map fun z => (z.inode, z.pos)) =
    ((getFileWithFd fd x).bind fun e => (s.file e.mFile).map fun z => (z.inode, z.pos))
  have hfound : getFileWithFd fd x' = getFileWithFd fd x := by
    unfold getFileWithFd
    rw [hlist]
  rw [hfound]
  cases he : getFileWithFd fd x with
  | none => rfl
  | some e =>
    show (s'.file e.mFile).map _ = (s.file e.mFile).map _
    rw [h e (getFileWithFd_mem he)]

/-- Two descriptors have two files. -/
theorem Owns.mFile_inj {e' : FileListElem} (h : Owns (some x) s l) (he : e ∈ x.fileList)
    (he' : e' ∈ x.fileList) (heq : e.mFile = e'.mFile) : e = e' := by
  have hn : (x.fileList.map FileListElem.mFile ++ x.mFile.toList ++ x.stage.file.toList).Nodup :=
    h.nodup
  exact List.inj_on_of_nodup_map (List.nodup_append.mp (List.nodup_append.mp hn).1).1 he he' heq

/-- And neither is the executable. -/
theorem Owns.ne_executable (h : Owns (some x) s l) (he : e ∈ x.fileList) :
    executable (some x) ≠ some e.mFile := by
  intro hexe
  have hexe' : x.mFile = some e.mFile := hexe
  have hn : (x.fileList.map FileListElem.mFile ++ x.mFile.toList ++ x.stage.file.toList).Nodup :=
    h.nodup
  refine (List.nodup_append.mp (List.nodup_append.mp hn).1).2.2 e.mFile
    (List.mem_map_of_mem he) e.mFile ?_ rfl
  rw [hexe']
  exact List.mem_singleton_self _

/-- One file of the list changes. -/
theorem table_update {z : File} (hn : x.fds.Nodup) (h : Owns (some x) s l) (he : e ∈ x.fileList)
    (hfile : s'.file = Function.update s.file e.mFile (some z)) :
    table (some x) s' = Function.update (table (some x) s) e.fd (some (z.inode, z.pos)) := by
  ext1 fd
  by_cases hfd : fd = e.fd
  · rw [hfd, Function.update_self]
    apply table_of_elem hn he
    rw [hfile, Function.update_self]
  · rw [Function.update_of_ne hfd]
    ext v
    rw [table_eq_some hn, table_eq_some hn]
    refine exists_congr fun e' => and_congr_right fun he' => and_congr_right fun hfd' => ?_
    have hne : e'.mFile ≠ e.mFile := by
      intro heq
      rw [h.mFile_inj he' he heq] at hfd'
      exact hfd hfd'.symm
    rw [hfile, Function.update_of_ne hne]

/-- A descriptor is added. -/
theorem table_open {r : InodeRef} {fd fd' : Int} (h : Owns (some x) s l) (hfresh : f ∉ l)
    (hn : (x.fds ++ [fd]).Nodup) (ho : Opened s s' f r) :
    table (some { x with fileList := x.fileList ++ [{ mFile := f, fd := fd }], fdCounter := fd' })
        s' = Function.update (table (some x) s) fd (some (r, 0)) := by
  have hn' : (Proc.fds { x with
      fileList := x.fileList ++ [{ mFile := f, fd := fd }], fdCounter := fd' }).Nodup := by
    show ((x.fileList ++ [_]).map FileListElem.fd).Nodup
    rw [List.map_append]
    exact hn
  have hx : x.fds.Nodup := (List.nodup_append.mp hn).1
  have hnew : ∀ e ∈ x.fileList, e.fd ≠ fd := fun e he =>
    (List.nodup_append.mp hn).2.2 e.fd (List.mem_map_of_mem he) fd (List.mem_singleton_self fd)
  ext1 g
  by_cases hg : g = fd
  · rw [hg, Function.update_self]
    have hin : (⟨f, fd⟩ : FileListElem) ∈ x.fileList ++ [⟨f, fd⟩] :=
      List.mem_append_right _ (List.mem_singleton_self _)
    have hz : s'.file f = some { inode := r, pos := 0, denyWrite := false } := by
      rw [ho.file, Function.update_self]
    exact table_of_elem (e := ⟨f, fd⟩) hn' hin hz
  · rw [Function.update_of_ne hg]
    ext v
    rw [table_eq_some hn', table_eq_some hx]
    constructor
    · rintro ⟨e, he, hfd, z, hz, hv⟩
      rcases List.mem_append.mp he with he | he
      · rw [ho.file, Function.update_of_ne] at hz
        · exact ⟨e, he, hfd, z, hz, hv⟩
        · exact fun heq => hfresh (heq ▸ h.opened _ (mem_held_of_elem he))
      · rw [List.mem_singleton.mp he] at hfd
        exact absurd hfd.symm hg
    · rintro ⟨e, he, hfd, z, hz, hv⟩
      refine ⟨e, List.mem_append_left _ he, hfd, z, ?_, hv⟩
      rw [ho.file, Function.update_of_ne]
      · exact hz
      · exact fun heq => hfresh (heq ▸ h.opened _ (mem_held_of_elem he))

/-- A descriptor is taken out, with its file. -/
theorem table_close (hn : x.fds.Nodup) (h : Owns (some x) s l) (he : e ∈ x.fileList)
    (hfile : s'.file = Function.update s.file e.mFile none) :
    table (some { x with fileList := x.fileList.erase e }) s' =
      Function.update (table (some x) s) e.fd none := by
  have hn' : (Proc.fds { x with fileList := x.fileList.erase e }).Nodup :=
    hn.sublist (List.erase_sublist.map FileListElem.fd)
  have hlist : x.fileList.Nodup := List.Nodup.of_map _ hn
  ext1 g
  ext v
  rw [table_eq_some hn']
  by_cases hg : g = e.fd
  · rw [hg, Function.update_self]
    constructor
    · rintro ⟨e', he', hfd, -⟩
      obtain ⟨hne, hin⟩ := (List.Nodup.mem_erase_iff hlist).mp he'
      exact absurd (List.inj_on_of_nodup_map hn hin he hfd) hne
    · exact nofun
  · rw [Function.update_of_ne hg, table_eq_some hn]
    constructor
    · rintro ⟨e', he', hfd, z, hz, hv⟩
      obtain ⟨hne, hin⟩ := (List.Nodup.mem_erase_iff hlist).mp he'
      rw [hfile, Function.update_of_ne fun heq => hne (h.mFile_inj hin he heq)] at hz
      exact ⟨e', hin, hfd, z, hz, hv⟩
    · rintro ⟨e', hin, hfd, z, hz, hv⟩
      have hne : e' ≠ e := by
        intro heq
        rw [heq] at hfd
        exact hg hfd.symm
      refine ⟨e', (List.Nodup.mem_erase_iff hlist).mpr ⟨hne, hin⟩, hfd, z, ?_, hv⟩
      rw [hfile, Function.update_of_ne fun heq => hne (h.mFile_inj hin he heq)]
      exact hz

/-! ## What the calls do to it -/

/-- A call on a descriptor of the table is about its inode and position; on any other it ends the
process. -/
def OnDescriptor (T : Table) (fd : Int) (out : Outcome) (T' : Table)
    (P : InodeRef → Int → Prop) : Prop :=
  match T fd with
  | none => out = .terminated ∧ T' = T
  | some (r, pos) => P r pos

/-- The bytes that a transfer of an open file comes to. -/
def transfer (s : Files) (f : FileRef) (size : Int) : Nat :=
  (s.file f).elim 0 fun z => (reach (s.inode z.inode) size z.pos).toNat

/-- Someone denies writes to the inode of an open file. -/
def Denied (s : Files) (f : FileRef) : Prop :=
  ∃ z, s.file f = some z ∧ (s.inode z.inode).denyWriteCnt ≠ 0

/-- The kernel can have what it reads and writes for the call, and the call sets no negative
position. -/
def FileCall.Answerable (x : Proc) (s : Files) : FileCall → Prop
  | .sysOpen name m => name = .fatal → ¬ DirOpens m s
  | .sysRead fd buffer size _ => buffer.checked = true ∧ ∀ e, getFileWithFd fd x = some e →
      buffer.faults (transfer s e.mFile (offT size)) = false
  | .sysWrite fd buffer size => fd ≠ 1 → buffer.checked = true → ∀ e, getFileWithFd fd x = some e →
      ¬ Denied s e.mFile → buffer.faults (transfer s e.mFile (offT size)) = false
  | .sysSeek fd position => (getFileWithFd fd x).isSome = true → 0 ≤ offT position
  | _ => True

/-- What a call does: its outcome, and the table after it. The descriptors that have been returned
before are `opened`. A write to the console is not one to a descriptor. -/
def Does (opened : List Int) (T T' : Table) (s s' : Files) (out : Outcome) : FileCall → Prop
  | .sysOpen name _ =>
    (∃ fd r, out = .eax fd ∧ 5 ≤ fd ∧ fd ∉ opened ∧ T fd = none ∧
      T' = Function.update T fd (some (r, 0))) ∨
    out = .eax (-1) ∧ T' = T ∨ out = .terminated ∧ T' = T ∧ name = .refused
  | .sysFilesize fd =>
    OnDescriptor T fd out T' fun r _ => out = .eax (s.inode r).length ∧ T' = T
  | .sysRead fd _ size _ =>
    OnDescriptor T fd out T' fun r pos =>
      ∃ bytes, out = .bytes bytes ∧ bytes = inodeReadAt r (offT size) pos s ∧
        T' = Function.update T fd (some (r, pos + bytes.length))
  | .sysWrite fd buffer size =>
    fd ≠ 1 → OnDescriptor T fd out T' fun r pos =>
      (∃ n, out = .eax n ∧ n = (inodeWriteAt r buffer.bytes (offT size) pos s).1 ∧
        s'.device = (inodeWriteAt r buffer.bytes (offT size) pos s).2.device ∧
        T' = Function.update T fd (some (r, pos + n))) ∨
      buffer.checked = false ∧ out = .terminated ∧ T' = T
  | .sysSeek fd position =>
    OnDescriptor T fd out T' fun r _ =>
      out = .done ∧ T' = Function.update T fd (some (r, offT position))
  | .sysTell fd => OnDescriptor T fd out T' fun _ pos => out = .eax pos ∧ T' = T
  | .sysClose fd =>
    OnDescriptor T fd out T' fun _ _ => out = .done ∧ T' = Function.update T fd none
  | .sysExit | .sysCreate _ _ _ | .sysRemove _ _ | .sysMmap _ _ _ => T' = T

/-- A number that is no descriptor ends the process. -/
theorem OnDescriptor.of_none {fd : Int} {T' : Table} {P : InodeRef → Int → Prop}
    (h : getFileWithFd fd x = none) (hT : T' = table (some x) s) :
    OnDescriptor (table (some x) s) fd .terminated T' P := by
  unfold OnDescriptor
  rw [table_of_not_mem h]
  exact ⟨rfl, hT⟩

/-- A descriptor that is open is spoken of by its row. -/
theorem OnDescriptor.of_some {fd : Int} {T' : Table} {P : InodeRef → Int → Prop} {z : File}
    (hn : x.fds.Nodup) (h : getFileWithFd fd x = some e) (hz : s.file e.mFile = some z)
    (hP : P z.inode z.pos) : OnDescriptor (table (some x) s) fd out T' P := by
  obtain ⟨he, hfd⟩ := (getFileWithFd_eq_some hn).mp h
  unfold OnDescriptor
  rw [← hfd, table_of_elem hn he hz]
  exact hP

/-- The process ends, on a descriptor or not. -/
theorem OnDescriptor.of_terminated {fd : Int} {T T' : Table} {P : InodeRef → Int → Prop}
    (hT : T' = T) (hP : ∀ r pos, P r pos) : OnDescriptor T fd .terminated T' P := by
  unfold OnDescriptor
  cases T fd with
  | none => exact ⟨rfl, hT⟩
  | some v => exact hP v.1 v.2

/-- An exit that is begun still has the table. -/
theorem table_exit : table (some x.exit) s = table (some x) s := table_congr rfl fun _ _ => rfl

/-- The table depends on the files alone. -/
theorem table_of_file (h : s'.file = s.file) : table y s' = table y s := by
  unfold table
  rw [h]

/-- The descriptors that have been returned are the numbers from 5 on, and are closed or in the
list. -/
structure Numbered (x : Proc) (opened closed : List Int) : Prop where
  counter : x.fdCounter = 5 + opened.length
  opened_eq : opened = (List.range opened.length).map fun i : Nat => (5 + i : Int)
  split : (closed ++ x.fds).Perm opened

section Numbering

variable {opened closed : List Int}

/-- No descriptor is one of the console's. -/
theorem Numbered.ge (h : Numbered x opened closed) : ∀ fd ∈ opened, 5 ≤ fd := by
  intro fd hfd
  rw [h.opened_eq] at hfd
  obtain ⟨i, -, rfl⟩ := List.mem_map.mp hfd
  omega

/-- No descriptor was given twice. -/
theorem Numbered.nodup (h : Numbered x opened closed) : opened.Nodup := by
  rw [h.opened_eq]
  apply List.Nodup.map _ List.nodup_range
  intro i j hij
  have hij' : (5 + i : Int) = 5 + j := hij
  omega

/-- No descriptor is in the list twice. -/
theorem Numbered.fds_nodup (h : Numbered x opened closed) : x.fds.Nodup :=
  (List.nodup_append.mp (h.split.nodup_iff.mpr h.nodup)).2.1

/-- No descriptor was closed twice. -/
theorem Numbered.closed_nodup (h : Numbered x opened closed) : closed.Nodup :=
  (List.nodup_append.mp (h.split.nodup_iff.mpr h.nodup)).1

/-- A descriptor of the list was given. -/
theorem Numbered.mem_opened (h : Numbered x opened closed) {fd : Int} (hfd : fd ∈ x.fds) :
    fd ∈ opened := h.split.mem_iff.mp (List.mem_append_right _ hfd)

/-- A descriptor is in the list while it has been returned and not closed. -/
theorem Numbered.mem_fds (h : Numbered x opened closed) {fd : Int} :
    fd ∈ x.fds ↔ fd ∈ opened ∧ fd ∉ closed := by
  have hn := List.nodup_append.mp (h.split.nodup_iff.mpr h.nodup)
  constructor
  · intro hfd
    exact ⟨h.mem_opened hfd, fun hc => hn.2.2 fd hc fd hfd rfl⟩
  · rintro ⟨ho, hc⟩
    exact (List.mem_append.mp (h.split.mem_iff.mpr ho)).resolve_left hc

/-- The next one was not. -/
theorem Numbered.counter_new (h : Numbered x opened closed) : x.fdCounter ∉ opened := by
  intro hin
  rw [h.opened_eq] at hin
  obtain ⟨i, hi, heq⟩ := List.mem_map.mp hin
  have hlt := List.mem_range.mp hi
  have hcount := h.counter
  omega

/-- As many bytes are read as the transfer comes to. -/
theorem length_fileRead {z : File} {size : Int} (hz : s.file f = some z) (hpos : 0 ≤ z.pos) :
    (inodeReadAt z.inode size z.pos s).length = transfer s f size := by
  unfold transfer
  rw [hz, inodeReadAt_eq hpos, List.length_map, List.length_range]
  rfl

/-- An open descriptor is none of the console's. -/
theorem Numbered.ge_of_elem (h : Numbered x opened closed) {fd : Int}
    (he : getFileWithFd fd x = some e) : 5 ≤ fd := by
  refine h.ge fd (h.mem_opened ?_)
  rw [← getFileWithFd_fd he]
  exact List.mem_map_of_mem (getFileWithFd_mem he)

/-- A call that may be answered lets go of `IOLock` before it ends the process. -/
theorem Ends.terminated (hb : Balanced s l extra) (h : Owns (some x) s l)
    (hpos : ∀ f z, s.file f = some z → 0 ≤ z.pos) (hnum : Numbered x opened closed)
    (hans : c.Answerable x s) (hx : Ends x s c out) : out = .terminated := by
  cases hx with
  | readBuffer hchecked => exact absurd hans.1 hchecked
  | @readFault _ _ _ _ e _ _ he h₁ hfaults =>
    have hin := mem_held_of_elem (getFileWithFd_mem he)
    obtain ⟨-, z, hm, hbytes⟩ := fileRead_eq_ok hb (h.opened _ hin) h₁
    rw [hbytes, length_fileRead hm.opened (hpos _ _ hm.opened), hans.2 e he] at hfaults
    exact absurd hfaults Bool.false_ne_true
  | writeZero he =>
    have hge := hnum.ge_of_elem he
    omega
  | writeDenied he hz hdenied =>
    -- only the executable denies writes, and it is none of the descriptors
    have hin := getFileWithFd_mem he
    rw [h.denies_exec (mem_held_of_elem hin) (getFile_eq_ok.mp hz) (h.ne_executable hin)] at hdenied
    exact absurd hdenied Bool.false_ne_true
  | createName | removeName | openName | filesize _ | read _ | write _ | writeBuffer _ | seek _
  | tell _ | close _ | mmap _ => rfl

/-- A call that ends the process is on a number that is no descriptor, or on a name or a buffer that
is refused. -/
theorem Ends.does (hx : Ends x s c .terminated) :
    Does opened (table (some x) s) (table (some x.exit) s) s s .terminated c := by
  have hno : ∀ {fd P}, getFileWithFd fd x = none →
      OnDescriptor (table (some x) s) fd .terminated (table (some x.exit) s) P :=
    fun hfd => .of_none hfd table_exit
  cases hx with
  | createName => exact table_exit
  | removeName => exact table_exit
  | openName => exact .inr (.inr ⟨rfl, table_exit, rfl⟩)
  | filesize hfd => exact hno hfd
  | read hfd => exact hno hfd
  | write hfd => exact fun _ => hno hfd
  | writeBuffer hchecked =>
    exact fun _ => .of_terminated table_exit fun _ _ =>
      .inr ⟨Bool.eq_false_iff.mpr hchecked, rfl, table_exit⟩
  | seek hfd => exact hno hfd
  | tell hfd => exact hno hfd
  | close hfd => exact hno hfd
  | mmap _ => exact table_exit

/-- A call that changes nothing answers from the row of its descriptor. -/
theorem Leaves.does (hb : Balanced s l extra) (h : Owns (some x) s l)
    (hnum : Numbered x opened closed) (hx : Leaves x s c out) :
    Does opened (table (some x) s) (table (some x) s) s s out c := by
  have hfile : ∀ {fd e}, getFileWithFd fd x = some e → ∃ z, s.file e.mFile = some z :=
    fun he => hb.file_of_mem (h.opened _ (mem_held_of_elem (getFileWithFd_mem he)))
  cases hx with
  | filesize he h₁ =>
    obtain ⟨z, hz⟩ := hfile he
    unfold fileLength at h₁
    rw [getFile_eq_ok.mpr hz, bind_ok] at h₁
    cases h₁
    exact .of_some hnum.fds_nodup he hz ⟨rfl, rfl⟩
  | key he =>
    have hge := hnum.ge_of_elem he
    omega
  | console => exact fun hone => absurd rfl hone
  | tell he h₁ =>
    obtain ⟨z, hz⟩ := hfile he
    unfold fileTell at h₁
    rw [getFile_eq_ok.mpr hz, bind_ok] at h₁
    cases h₁
    exact .of_some hnum.fds_nodup he hz ⟨rfl, rfl⟩

/-- A file that is opened gets the next number, which is in no row yet. -/
theorem does_open {name : FileName} {m : Mallocs} {r : InodeRef} (h : Owns (some x) s l)
    (hnum : Numbered x opened closed) (hnew : f ∉ l) (ho : Opened s s' f r) :
    Does opened (table (some x) s)
      (table (some { x with
        fileList := x.fileList ++ [{ mFile := f, fd := x.fdCounter }]
        fdCounter := Int.bmod (x.fdCounter + 1) (2 ^ 32) }) s') s s' (.eax x.fdCounter)
      (.sysOpen name m) := by
  have hn := hnum.fds_nodup
  have hfresh : x.fdCounter ∉ x.fds := fun hc => hnum.counter_new (hnum.mem_opened hc)
  refine .inl ⟨x.fdCounter, r, rfl, ?_, hnum.counter_new, ?_, ?_⟩
  · have hcount := hnum.counter
    omega
  · cases hT : table (some x) s x.fdCounter with
    | none => rfl
    | some v =>
      obtain ⟨e, he, hfd, -⟩ := (table_eq_some hn).mp hT
      exact absurd (hfd ▸ List.mem_map_of_mem he) hfresh
  · refine table_open h hnew ?_ ho
    apply List.nodup_append.mpr
    refine ⟨hn, List.nodup_singleton _, fun a ha b hab heq => hfresh ?_⟩
    rw [← List.mem_singleton.mp hab, ← heq]
    exact ha

/-- `mmap` opens the file once more, for nobody. -/
theorem table_reopen {alloc : Bool} {o : Option FileRef} (hb : Balanced s l extra)
    (h : Owns (some x) s l) (hf : f ∈ l) (hx : fileReopen f alloc s = .ok (o, s')) :
    table (some x) s' = table (some x) s := by
  have hopen := hb.of_fileReopen hf hx
  refine table_congr rfl fun e' he' => ?_
  cases o with
  | none => rw [hopen.2.file]
  | some g =>
    obtain ⟨hb₁, r, ho⟩ := hopen
    rw [ho.file, Function.update_of_ne]
    intro heq
    exact (List.nodup_cons.mp hb₁.nodup).1 (heq ▸ h.opened _ (mem_held_of_elem he'))

/-- What a call does to the table. -/
theorem fileCall_does (hb : Balanced s l extra) (h : Owns (some x) s l)
    (hpos : ∀ f z, s.file f = some z → 0 ≤ z.pos) (hnum : Numbered x opened closed)
    (hans : c.Answerable x s) (hx : fileCall c x s = .ok (x', s', out)) :
    Does opened (table (some x) s) (table (some x') s') s s' out c := by
  have hn := hnum.fds_nodup
  have hin : ∀ {fd e}, getFileWithFd fd x = some e → e.mFile ∈ l :=
    fun he => h.opened _ (mem_held_of_elem (getFileWithFd_mem he))
  have hmoved : ∀ {fd e z pos}, getFileWithFd fd x = some e → Moved s s' e.mFile z pos →
      table (some x) s' = Function.update (table (some x) s) fd (some (z.inode, pos)) := by
    intro fd e z pos he hm
    rw [← getFileWithFd_fd he]
    exact table_update hn h (getFileWithFd_mem he) hm.file
  cases fileCall_branch hx with
  | closing => exact table_congr rfl fun _ _ => rfl
  | ends he =>
    cases he.terminated hb h hpos hnum hans
    exact he.does
  | leaves hl => exact hl.does hb h hnum
  | createFatal h₁ => exact table_of_file (y := some x) (hb.of_filesysCreateFatal h₁).2.file
  | create h₁ => exact table_of_file (y := some x) (hb.of_filesysCreate h₁).2.file
  | removeFatal h₁ => exact table_of_file (y := some x) (hb.of_dirOpenRoot h₁).2.file
  | remove h₁ => exact table_of_file (y := some x) (hb.of_filesysRemove h₁).2.file
  | openFatal h₁ => exact .inr (.inl ⟨rfl, table_of_file (hb.of_dirOpenRoot h₁).2.file⟩)
  | openNone h₁ => exact .inr (.inl ⟨rfl, table_of_file (hb.of_filesysOpen h₁).2.file⟩)
  | opened h₁ =>
    obtain ⟨hb₁, r, ho⟩ := hb.of_filesysOpen h₁
    exact does_open h hnum (List.nodup_cons.mp hb₁.nodup).1 ho
  | @read _ _ _ _ _ bytes _ he h₁ =>
    obtain ⟨-, z, hm, hbytes⟩ := fileRead_eq_ok hb (hin he) h₁
    exact .of_some hn he hm.opened ⟨bytes, rfl, hbytes, hmoved he hm⟩
  | @write _ written _ _ _ _ he h₁ =>
    obtain ⟨-, w, hm, hwritten, hdevice⟩ := fileWrite_eq_ok hb (hin he) h₁
    exact fun _ => .of_some hn he hm.opened (.inl ⟨written, rfl, hwritten, hdevice, hmoved he hm⟩)
  | seek he h₁ =>
    obtain ⟨-, z, hm⟩ := fileSeek_eq_ok hb (hin he) h₁
    exact .of_some hn he hm.opened ⟨rfl, hmoved he hm⟩
  | close he h₁ =>
    obtain ⟨z, hz⟩ := hb.file_of_mem (hin he)
    obtain ⟨-, -, hfile, -⟩ := hb.of_fileClose (hin he) h₁
    refine .of_some hn he hz ⟨rfl, ?_⟩
    rw [← getFileWithFd_fd he]
    exact table_close hn h (getFileWithFd_mem he) hfile
  | unmapped he h₁ => exact table_exit.trans (table_reopen hb h (hin he) h₁)
  | mapped he h₁ => exact table_reopen hb h (hin he) h₁

/-! ## What the calls do to the numbering -/

/-- What a call adds to the descriptors that have been returned. -/
def FileCall.opens : FileCall → Outcome → List Int
  | .sysOpen (.bytes _) _, .eax fd => if fd = -1 then [] else [fd]
  | _, _ => []

/-- And to those that have been closed. -/
def FileCall.closes : FileCall → Outcome → List Int
  | .sysClose fd, .done => [fd]
  | _, _ => []

/-- Neither the list nor the counter changes. -/
structure SameList (x x' : Proc) : Prop where
  fileList : x'.fileList = x.fileList
  fdCounter : x'.fdCounter = x.fdCounter

theorem SameList.exit (x : Proc) : SameList x x.exit := ⟨rfl, rfl⟩

/-- Where the list stays so does the count. -/
theorem Numbered.of_same (h : Numbered x opened closed) (hs : SameList x x') :
    Numbered x' opened closed where
  counter := hs.fdCounter.trans h.counter
  opened_eq := h.opened_eq
  split := by
    show (closed ++ x'.fileList.map FileListElem.fd).Perm opened
    rw [hs.fileList]
    exact h.split

/-- The next number, as long as there is one. -/
theorem Numbered.of_open (h : Numbered x opened closed) (hfew : opened.length + 1 < 2 ^ 31 - 5)
    (hlist : x'.fileList = x.fileList ++ [{ mFile := f, fd := x.fdCounter }])
    (hcounter : x'.fdCounter = Int.bmod (x.fdCounter + 1) (2 ^ 32)) :
    Numbered x' (opened ++ [x.fdCounter]) closed where
  counter := by
    rw [hcounter, h.counter, List.length_append, List.length_singleton, Int.bmod_eq_of_le]
    · omega
    · omega
    · omega
  opened_eq := by
    rw [List.length_append, List.length_singleton, List.range_succ, List.map_append,
      ← h.opened_eq, h.counter]
    rfl
  split := by
    show (closed ++ x'.fileList.map FileListElem.fd).Perm _
    rw [hlist, List.map_append, ← List.append_assoc]
    exact h.split.append_right _

/-- A close moves one from the list to those that were closed. -/
theorem Numbered.of_close (h : Numbered x opened closed) (he : e ∈ x.fileList)
    (hlist : x'.fileList = x.fileList.erase e) (hcounter : x'.fdCounter = x.fdCounter) :
    Numbered x' opened (closed ++ [e.fd]) where
  counter := hcounter.trans h.counter
  opened_eq := h.opened_eq
  split := by
    show (closed ++ [e.fd] ++ x'.fileList.map FileListElem.fd).Perm opened
    rw [hlist, List.append_assoc]
    have hperm := (List.perm_cons_erase he).map FileListElem.fd
    exact (hperm.symm.append_left closed).trans h.split

/-- A call that ends the process opens nothing. -/
theorem Ends.opens (h : Ends x s c out) : c.opens out = [] := by cases h <;> rfl

/-- And closes nothing: that is left to the exit. -/
theorem Ends.closes (h : Ends x s c out) : c.closes out = [] := by cases h <;> rfl

/-- A call that changes nothing opens nothing. -/
theorem Leaves.opens (h : Leaves x s c out) : c.opens out = [] := by cases h <;> rfl

/-- And closes nothing. -/
theorem Leaves.closes (h : Leaves x s c out) : c.closes out = [] := by cases h <;> rfl

/-- A call opens, closes, or leaves the list. -/
theorem fileCall_list (hx : fileCall c x s = .ok (x', s', out)) :
    (SameList x x' ∧ c.opens out = [] ∧ c.closes out = []) ∨
    (∃ name m f, c = .sysOpen (.bytes name) m ∧ out = .eax x.fdCounter ∧
      x'.fileList = x.fileList ++ [{ mFile := f, fd := x.fdCounter }] ∧
      x'.fdCounter = Int.bmod (x.fdCounter + 1) (2 ^ 32)) ∨
    (∃ e ∈ x.fileList, c = .sysClose e.fd ∧ out = .done ∧ x'.fileList = x.fileList.erase e ∧
      x'.fdCounter = x.fdCounter) := by
  cases fileCall_branch hx with
  | closing => exact .inl ⟨⟨rfl, rfl⟩, rfl, rfl⟩
  | ends h => exact .inl ⟨.exit x, h.opens, h.closes⟩
  | leaves h => exact .inl ⟨⟨rfl, rfl⟩, h.opens, h.closes⟩
  | createFatal _ => exact .inl ⟨⟨rfl, rfl⟩, rfl, rfl⟩
  | create _ => exact .inl ⟨⟨rfl, rfl⟩, rfl, rfl⟩
  | removeFatal _ => exact .inl ⟨⟨rfl, rfl⟩, rfl, rfl⟩
  | remove _ => exact .inl ⟨⟨rfl, rfl⟩, rfl, rfl⟩
  | openFatal _ => exact .inl ⟨⟨rfl, rfl⟩, rfl, rfl⟩
  | openNone _ => exact .inl ⟨⟨rfl, rfl⟩, rfl, rfl⟩
  | @opened name m f _ _ => exact .inr (.inl ⟨name, m, f, rfl, rfl, rfl, rfl⟩)
  | read _ _ => exact .inl ⟨⟨rfl, rfl⟩, rfl, rfl⟩
  | write _ _ => exact .inl ⟨⟨rfl, rfl⟩, rfl, rfl⟩
  | seek _ _ => exact .inl ⟨⟨rfl, rfl⟩, rfl, rfl⟩
  | @close _ e _ he _ =>
    exact .inr (.inr ⟨e, getFileWithFd_mem he, by rw [getFileWithFd_fd he], rfl, rfl, rfl⟩)
  | unmapped _ _ => exact .inl ⟨.exit x, rfl, rfl⟩
  | mapped _ _ => exact .inl ⟨⟨rfl, rfl⟩, rfl, rfl⟩

end Numbering

end Pintos.Syscall
