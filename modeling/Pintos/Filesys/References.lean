import Pintos.Lib.Run
import Pintos.Filesys.Counting

/-!
# References to inodes

Callers that open, reopen, remove and close inodes, directories and files in any order. A reference
that a function has handed out is in one of three places: with a caller, in a `struct dir` or in a
`struct file`. `open_cnt` and `deny_write_cnt` are `int`s here: each operation ends with their values
in 32 bits. An operation computes exactly in between, which comes to the same, as no count passes
zero or the end of an `int` twice in one operation.
-/

namespace Pintos.Filesys

open Pintos.Lib

/-- `dir_open`; a `struct dir` is its inode. -/
def dirOpen (r : Option InodeRef) (alloc : Bool) (s : Files) :
    Except Assertion (Option InodeRef × Files) :=
  match r, alloc with
  | some r, true => .ok (some r, s)
  | r, _ => do
    let s ← inodeClose r s
    .ok (none, s)

/-- `dir_reopen`. -/
def dirReopen (dir : InodeRef) (alloc : Bool) (s : Files) :
    Except Assertion (Option InodeRef × Files) :=
  dirOpen (some dir) alloc (inodeReopen dir s)

/-- The counts as `int`s. -/
def Files.narrow (s : Files) : Files :=
  { s with inode := fun r => { s.inode r with
      openCnt := Int.bmod (s.inode r).openCnt (2 ^ 32)
      denyWriteCnt := Int.bmod (s.inode r).denyWriteCnt (2 ^ 32) } }

/-- The file system and who has references to its inodes. -/
structure Users where
  fs : Files
  /-- Inodes, once for each reference a caller has. -/
  inodes : List InodeRef
  /-- The open directories, by their inodes. -/
  dirs : List InodeRef
  /-- The open files. -/
  files : List FileRef

/-- The references that have been handed out and not yet been given back. -/
def Users.refs (u : Users) : List InodeRef := (u.inodes ++ u.dirs) ++ u.fs.inodesOf u.files

/-- An operation; `alloc` says whether its allocation succeeds. -/
inductive RefOp where
  | inodeOpen (sector : SectorNo) (alloc : Bool)
  | inodeReopen (r : InodeRef)
  | inodeRemove (r : InodeRef)
  | inodeClose (r : InodeRef)
  | fileOpen (r : Option InodeRef) (alloc : Bool)
  | fileReopen (f : FileRef) (alloc : Bool)
  | fileClose (f : FileRef)
  | fileDenyWrite (f : FileRef)
  | fileAllowWrite (f : FileRef)
  | dirOpen (r : Option InodeRef) (alloc : Bool)
  | dirReopen (dir : InodeRef) (alloc : Bool)
  | dirClose (dir : InodeRef)
  /-- `free_map_file` is set to an open file, or to none. -/
  | freeMapFile (f : Option FileRef)
  deriving DecidableEq, Repr

/-- One operation. A caller gives back only what it has. -/
def refStep (op : RefOp) (u : Users) : Except Assertion Users :=
  match op with
  | .inodeOpen sector alloc =>
    let (o, s) := inodeOpen sector alloc u.fs
    .ok { u with fs := s.narrow, inodes := o.toList ++ u.inodes }
  | .inodeReopen r =>
    if r ∈ u.refs then .ok { u with fs := (inodeReopen r u.fs).narrow, inodes := r :: u.inodes }
    else .error .notEnabled
  | .inodeRemove r =>
    if r ∈ u.refs then .ok { u with fs := (inodeRemove r u.fs).narrow } else .error .notEnabled
  | .inodeClose r =>
    if r ∈ u.inodes then do
      let s ← inodeClose (some r) u.fs
      .ok { u with fs := s.narrow, inodes := u.inodes.erase r }
    else .error .notEnabled
  | .fileOpen r alloc =>
    if ∀ r' ∈ r, r' ∈ u.inodes then do
      let (f, s) ← fileOpen r alloc u.fs
      .ok { u with fs := s.narrow, inodes := r.elim u.inodes u.inodes.erase
                   files := f.toList ++ u.files }
    else .error .notEnabled
  | .fileReopen f alloc =>
    if f ∈ u.files then do
      let (f', s) ← fileReopen f alloc u.fs
      .ok { u with fs := s.narrow, files := f'.toList ++ u.files }
    else .error .notEnabled
  | .fileClose f =>
    if f ∈ u.files ∧ u.fs.freeMapFile ≠ some f then do
      let s ← fileClose f u.fs
      .ok { u with fs := s.narrow, files := u.files.erase f }
    else .error .notEnabled
  | .fileDenyWrite f =>
    if f ∈ u.files then do
      let s ← fileDenyWrite f u.fs
      .ok { u with fs := s.narrow }
    else .error .notEnabled
  | .fileAllowWrite f =>
    if f ∈ u.files then do
      let s ← fileAllowWrite f u.fs
      .ok { u with fs := s.narrow }
    else .error .notEnabled
  | .dirOpen r alloc =>
    if ∀ r' ∈ r, r' ∈ u.inodes then do
      let (d, s) ← dirOpen r alloc u.fs
      .ok { u with fs := s.narrow, inodes := r.elim u.inodes u.inodes.erase
                   dirs := d.toList ++ u.dirs }
    else .error .notEnabled
  | .dirReopen dir alloc =>
    if dir ∈ u.dirs then do
      let (d, s) ← dirReopen dir alloc u.fs
      .ok { u with fs := s.narrow, dirs := d.toList ++ u.dirs }
    else .error .notEnabled
  | .dirClose dir =>
    if dir ∈ u.dirs then do
      let s ← inodeClose (some dir) u.fs
      .ok { u with fs := s.narrow, dirs := u.dirs.erase dir }
    else .error .notEnabled
  | .freeMapFile f =>
    if ∀ f' ∈ f, f' ∈ u.files then .ok { u with fs := { u.fs with freeMapFile := f } }
    else .error .notEnabled

/-- The inode that gets one more reference, if it is an open one. -/
def Users.target (u : Users) : RefOp → Option InodeRef
  | .inodeOpen sector _ => u.fs.openInodes.find? fun r => (u.fs.inode r).sector == sector
  | .inodeReopen r => some r
  | .fileReopen f _ => (u.fs.file f).map (·.inode)
  | .dirReopen dir _ => some dir
  | _ => none

/-- The operation adds no reference to an inode that has `2 ^ 31 - 1` of them out. -/
def Users.HasRoom (u : Users) (op : RefOp) : Prop :=
  ∀ r ∈ u.target op, u.refs.count r < 2 ^ 31 - 1

/-- After `inode_init`: no inode is in memory, whatever is on the device. -/
def initUsers (device : SectorNo → Sector) (freeMap : List Bool) : Users :=
  { fs := { device := device, freeMap := freeMap, freeMapFile := none, openInodes := []
            inode := fun _ => { sector := 0, openCnt := 0, removed := false, denyWriteCnt := 0
                                start := 0, length := 0 }
            nextInode := 0, file := fun _ => none, nextFile := 0 }
    inodes := [], dirs := [], files := [] }

/-- What the counts are for. -/
structure Exact (u : Users) : Prop where
  nodup : u.fs.openInodes.Nodup
  unique : ∀ r ∈ u.fs.openInodes, ∀ r' ∈ u.fs.openInodes,
    (u.fs.inode r).sector = (u.fs.inode r').sector → r = r'
  listed : ∀ r, r ∈ u.fs.openInodes ↔ 0 < (u.fs.inode r).openCnt
  openCnt : ∀ r, (u.fs.inode r).openCnt = u.refs.count r
  /-- Opening the sector of an open inode returns that inode, without an allocation. -/
  same : ∀ r ∈ u.fs.openInodes, ∀ alloc,
    (inodeOpen (u.fs.inode r).sector alloc u.fs).1 = some r
  denied : ∀ r ∈ u.fs.openInodes,
    0 ≤ (u.fs.inode r).denyWriteCnt ∧ (u.fs.inode r).denyWriteCnt ≤ (u.fs.inode r).openCnt

variable {s s' : Files} {u u' : Users} {r : InodeRef} {f : FileRef} {extra : List InodeRef}
  {l : List FileRef}

/-! ## Counts in range -/

/-- An inode that is not open has no openers, and none has more than an `int` counts. -/
structure Settled (s : Files) : Prop where
  closed : ∀ r, r ∉ s.openInodes → (s.inode r).openCnt = 0
  small : ∀ r, (s.inode r).openCnt < 2 ^ 31

/-- Only the list and its counts matter. -/
theorem Settled.of_eq (h : Settled s) (hopen : s'.openInodes = s.openInodes)
    (hino : ∀ r, (s'.inode r).openCnt = (s.inode r).openCnt) : Settled s' := by
  constructor
  · intro r hr
    rw [hopen] at hr
    rw [hino, h.closed r hr]
  · intro r
    rw [hino]
    exact h.small r

/-- To reopen counts one more. -/
theorem Settled.of_reopen (h : Settled s) (hr : r ∈ s.openInodes)
    (hroom : (s.inode r).openCnt < 2 ^ 31 - 1) : Settled (inodeReopen r s) := by
  have hself : ((inodeReopen r s).inode r).openCnt = (s.inode r).openCnt + 1 := by
    show (Function.update s.inode r _ r).openCnt = _
    rw [Function.update_self]
  have hother : ∀ r', r' ≠ r → (inodeReopen r s).inode r' = s.inode r' := fun r' hne =>
    Function.update_of_ne hne _ _
  constructor
  · intro r' hr'
    have hne : r' ≠ r := fun he => hr' (he ▸ hr)
    rw [hother r' hne]
    exact h.closed r' hr'
  · intro r'
    by_cases heq : r' = r
    · rw [heq, hself]
      omega
    · rw [hother r' heq]
      exact h.small r'

/-- To open an inode counts one more. -/
theorem Settled.of_inodeOpen {sector : SectorNo} {alloc : Bool} {o : Option InodeRef}
    (h : Settled s) (hx : inodeOpen sector alloc s = (o, s'))
    (hroom : ∀ r ∈ s.openInodes.find? (fun r => (s.inode r).sector == sector),
      (s.inode r).openCnt < 2 ^ 31 - 1) : Settled s' := by
  unfold inodeOpen at hx
  split at hx
  next r hr =>
    cases hx
    exact h.of_reopen (List.mem_of_find?_eq_some hr) (hroom r hr)
  next =>
    split at hx
    · cases hx
      constructor
      · intro r hr
        obtain ⟨hne, hr⟩ := not_or.mp (mt List.mem_cons.mpr hr)
        show (Function.update s.inode s.nextInode _ r).openCnt = 0
        rw [Function.update_of_ne hne]
        exact h.closed r hr
      · intro r
        show (Function.update s.inode s.nextInode _ r).openCnt < 2 ^ 31
        by_cases heq : r = s.nextInode
        · rw [heq, Function.update_self]
          exact (by decide : (1 : Int) < 2 ^ 31)
        · rw [Function.update_of_ne heq]
          exact h.small r
    · cases hx
      exact h

/-- Closing counts one less, and drops the inode with the last. -/
theorem Settled.of_inodeClose (h : Settled s) (hr : r ∈ s.openInodes)
    (hx : inodeClose (some r) s = .ok s') : Settled s' := by
  obtain ⟨hino, hopen, -⟩ := inodeClose_eq_ok hx
  constructor
  · intro r' hr'
    rw [hino]
    rw [hopen] at hr'
    by_cases heq : r' = r
    · rw [heq, Function.update_self]
      by_contra hne
      rw [if_neg hne, heq] at hr'
      exact hr' hr
    · rw [Function.update_of_ne heq]
      refine h.closed r' fun hmem => hr' ?_
      split
      · exact (List.mem_erase_of_ne heq).mpr hmem
      · exact hmem
  · intro r'
    rw [hino]
    by_cases heq : r' = r
    · rw [heq, Function.update_self]
      have := h.small r
      show (s.inode r).openCnt - 1 < 2 ^ 31
      omega
    · rw [Function.update_of_ne heq]
      exact h.small r'

/-- `file_open` and `dir_open` close the inode they are given, or keep it. -/
theorem Settled.of_fileOpen {o : Option InodeRef} {alloc : Bool} {res : Option FileRef}
    (h : Settled s) (ho : ∀ r ∈ o, r ∈ s.openInodes) (hx : fileOpen o alloc s = .ok (res, s')) :
    Settled s' := by
  cases o with
  | none =>
    cases hx
    exact h
  | some r =>
    cases alloc with
    | true =>
      cases hx
      exact h.of_eq rfl fun _ => rfl
    | false =>
      obtain ⟨s₁, h₁, hx⟩ := bind_eq_ok.mp hx
      cases hx
      exact h.of_inodeClose (ho r rfl) h₁

/-- `dir_open` keeps the inode, or closes it for want of memory. -/
theorem dirOpen_eq_ok {o res : Option InodeRef} {alloc : Bool}
    (hx : dirOpen o alloc s = .ok (res, s')) :
    (res = o ∧ s' = s) ∨ ∃ r, o = some r ∧ res = none ∧ inodeClose (some r) s = .ok s' := by
  cases o with
  | none =>
    cases hx
    exact .inl ⟨rfl, rfl⟩
  | some r =>
    cases alloc with
    | true =>
      cases hx
      exact .inl ⟨rfl, rfl⟩
    | false =>
      obtain ⟨s₁, h₁, hx⟩ := bind_eq_ok.mp hx
      cases hx
      exact .inr ⟨r, rfl, rfl, h₁⟩

/-- Either way the counts are settled. -/
theorem Settled.of_dirOpen {o res : Option InodeRef} {alloc : Bool} (h : Settled s)
    (ho : ∀ r ∈ o, r ∈ s.openInodes) (hx : dirOpen o alloc s = .ok (res, s')) : Settled s' := by
  obtain ⟨-, rfl⟩ | ⟨r, rfl, -, hclose⟩ := dirOpen_eq_ok hx
  · exact h
  · exact h.of_inodeClose (ho r rfl) hclose

/-- Writes are denied and allowed with no word to the openers. -/
theorem fileDenyWrite_openCnt (hx : fileDenyWrite f s = .ok s') :
    s'.openInodes = s.openInodes ∧ ∀ r, (s'.inode r).openCnt = (s.inode r).openCnt := by
  obtain ⟨x, -, hx⟩ := bind_eq_ok.mp hx
  split at hx
  · cases hx
    exact ⟨rfl, fun _ => rfl⟩
  · unfold inodeDenyWrite at hx
    simp only at hx
    split at hx
    · cases hx
      refine ⟨rfl, fun r => ?_⟩
      show (Function.update s.inode x.inode _ r).openCnt = _
      by_cases heq : r = x.inode
      · rw [heq, Function.update_self]
        rfl
      · rw [Function.update_of_ne heq]
    · cases hx

/-- Allowing writes opens and closes nothing. -/
theorem fileAllowWrite_openCnt (hx : fileAllowWrite f s = .ok s') :
    s'.openInodes = s.openInodes ∧ ∀ r, (s'.inode r).openCnt = (s.inode r).openCnt := by
  obtain ⟨x, -, hx⟩ := bind_eq_ok.mp hx
  split at hx
  · unfold inodeAllowWrite at hx
    simp only at hx
    split at hx
    · cases hx
      refine ⟨rfl, fun r => ?_⟩
      show (Function.update s.inode x.inode _ r).openCnt = _
      by_cases heq : r = x.inode
      · rw [heq, Function.update_self]
        rfl
      · rw [Function.update_of_ne heq]
    · cases hx
  · cases hx
    exact ⟨rfl, fun _ => rfl⟩

/-- A file closes its inode. -/
theorem Settled.of_fileClose (h : Settled s) {x : File} (hx₀ : s.file f = some x)
    (hr : x.inode ∈ s.openInodes) (hx : fileClose f s = .ok s') : Settled s' := by
  unfold fileClose at hx
  rw [getFile_eq_ok.mpr hx₀, bind_ok] at hx
  obtain ⟨s₁, h₁, hx⟩ := bind_eq_ok.mp hx
  obtain ⟨s₂, h₂, hx⟩ := bind_eq_ok.mp hx
  cases hx
  obtain ⟨hopen, hcnt⟩ := fileAllowWrite_openCnt h₁
  exact ((h.of_eq hopen hcnt).of_inodeClose (hopen ▸ hr) h₂).of_eq rfl fun _ => rfl

/-! ## The invariant -/

/-- The references are accounted for. -/
structure Accounted (u : Users) : Prop where
  balanced : Balanced u.fs u.files (u.inodes ++ u.dirs)
  settled : Settled u.fs

/-- The inodes on the list are those that are referred to. -/
theorem Accounted.mem (h : Accounted u) : r ∈ u.fs.openInodes ↔ r ∈ u.refs :=
  h.balanced.counted.listed r

/-- Each is counted as often as it is referred to. -/
theorem Accounted.openCnt (h : Accounted u) (r : InodeRef) :
    (u.fs.inode r).openCnt = u.refs.count r := by
  by_cases hr : r ∈ u.fs.openInodes
  · exact h.balanced.counted.openCnt r hr
  · rw [h.settled.closed r hr, List.count_eq_zero.mpr (mt h.mem.mpr hr)]
    rfl

/-- A count that has not wrapped is its number. -/
theorem bmod_of_nat {n : Int} (h : 0 ≤ n) (h' : n < 2 ^ 31) : Int.bmod n (2 ^ 32) = n := by
  apply Int.bmod_eq_of_le <;> omega

/-- Counts that are in range stay as they are. -/
theorem Accounted.of_narrow {inodes dirs : List InodeRef} (hb : Balanced s l (inodes ++ dirs))
    (hs : Settled s) :
    Accounted { fs := s.narrow, inodes := inodes, dirs := dirs, files := l } := by
  have hnonneg : ∀ r, 0 ≤ (s.inode r).openCnt := by
    intro r
    by_cases hr : r ∈ s.openInodes
    · rw [hb.counted.openCnt r hr]
      omega
    · exact Int.le_of_eq (hs.closed r hr).symm
  have hcnt : ∀ r, (s.narrow.inode r).openCnt = (s.inode r).openCnt := fun r =>
    bmod_of_nat (hnonneg r) (hs.small r)
  have hdeny : ∀ r ∈ s.openInodes, (s.narrow.inode r).denyWriteCnt = (s.inode r).denyWriteCnt := by
    intro r hr
    have hle := hb.denied_le hr
    have := hs.small r
    refine bmod_of_nat ?_ (by omega)
    rw [hb.denied r hr]
    omega
  refine ⟨⟨hb.nodup, hb.opened, hb.below, ?_, ?_⟩, hs.of_eq rfl hcnt⟩
  · exact hb.counted.of_same rfl rfl fun r _ => ⟨hcnt r, rfl⟩
  · intro r hr
    exact (hdeny r hr).trans (hb.denied r hr)

/-- The counts of openers are exact. -/
theorem Accounted.exact (h : Accounted u) : Exact u where
  nodup := h.balanced.counted.nodup
  unique := fun r hr r' hr' heq => h.balanced.counted.sectors r hr r' hr' heq
  listed := by
    intro r
    rw [h.openCnt, h.mem, ← List.count_pos_iff]
    omega
  openCnt := h.openCnt
  same := by
    intro r hr alloc
    have hfind : u.fs.openInodes.find? (fun r' => (u.fs.inode r').sector == (u.fs.inode r).sector) =
        some r := by
      cases hf : u.fs.openInodes.find? fun r' => (u.fs.inode r').sector == (u.fs.inode r).sector with
      | none => simpa using List.find?_eq_none.mp hf r hr
      | some r' =>
        have heq : (u.fs.inode r').sector = (u.fs.inode r).sector := by
          simpa using List.find?_some hf
        rw [h.balanced.counted.sectors r' (List.mem_of_find?_eq_some hf) r hr heq]
    unfold inodeOpen
    rw [hfind]
  denied := by
    intro r hr
    refine ⟨?_, h.balanced.denied_le hr⟩
    rw [h.balanced.denied r hr]
    omega

/-- The room an operation needs, as a bound on `open_cnt`. -/
theorem Accounted.room (h : Accounted u) {op : RefOp} (hroom : u.HasRoom op) :
    ∀ r ∈ u.target op, (u.fs.inode r).openCnt < 2 ^ 31 - 1 := by
  intro r hr
  have := hroom r hr
  rw [h.openCnt]
  omega

theorem erase_append_perm {a : InodeRef} {xs ys : List InodeRef} (h : a ∈ xs) :
    (xs ++ ys).Perm (a :: (xs.erase a ++ ys)) := by
  rw [← List.cons_append]
  exact (List.perm_cons_erase h).append_right ys

/-- Whom a caller gives up. -/
theorem given_perm {o : Option InodeRef} {xs ys : List InodeRef} (h : ∀ r ∈ o, r ∈ xs) :
    (xs ++ ys).Perm (o.toList ++ (o.elim xs xs.erase ++ ys)) := by
  cases o with
  | none => exact .refl _
  | some r => exact erase_append_perm (h r rfl)

/-- Every operation accounts for its reference, while the count has room. -/
theorem Accounted.of_step {op : RefOp} (h : Accounted u) (hroom : u.HasRoom op)
    (hx : refStep op u = .ok u') : Accounted u' := by
  have hroom' := h.room hroom
  have hopen : ∀ {o : Option InodeRef}, (∀ r ∈ o, r ∈ u.inodes) → ∀ r ∈ o, r ∈ u.fs.openInodes :=
    fun ho r hr => h.mem.mpr (List.mem_append_left _ (List.mem_append_left _ (ho r hr)))
  cases op with
  | inodeOpen sector alloc =>
    cases hx
    obtain ⟨hb, -⟩ := h.balanced.of_inodeOpen (Prod.eta _).symm
    exact .of_narrow (by rw [List.append_assoc]; exact hb)
      (h.settled.of_inodeOpen (Prod.eta _).symm hroom')
  | inodeReopen r =>
    simp only [refStep] at hx
    split at hx
    next hr =>
      cases hx
      have hr := h.mem.mpr hr
      exact .of_narrow (h.balanced.of_reopen hr).1 (h.settled.of_reopen hr (hroom' r rfl))
    next => cases hx
  | inodeRemove r =>
    simp only [refStep] at hx
    split at hx
    next hr =>
      cases hx
      refine .of_narrow (h.balanced.of_inodeRemove r).1 (h.settled.of_eq rfl fun r' => ?_)
      show (Function.update u.fs.inode r _ r').openCnt = _
      by_cases heq : r' = r
      · rw [heq, Function.update_self]
      · rw [Function.update_of_ne heq]
    next => cases hx
  | inodeClose r =>
    simp only [refStep] at hx
    split at hx
    next hr =>
      obtain ⟨s, hs, hx⟩ := bind_eq_ok.mp hx
      cases hx
      have hb := (h.balanced.perm (erase_append_perm hr)).of_inodeClose hs
      exact .of_narrow hb.1 (h.settled.of_inodeClose (hopen (o := some r) (by simpa using hr) r rfl) hs)
    next => cases hx
  | fileOpen o alloc =>
    simp only [refStep] at hx
    split at hx
    next ho =>
      obtain ⟨⟨res, s⟩, hs, hx⟩ := bind_eq_ok.mp hx
      cases hx
      have hset := h.settled.of_fileOpen (hopen ho) hs
      have hb := (h.balanced.perm (given_perm ho)).of_fileOpen hs
      cases res with
      | none => exact .of_narrow hb.1 hset
      | some f => exact .of_narrow hb.1 hset
    next => cases hx
  | fileReopen f alloc =>
    simp only [refStep] at hx
    split at hx
    next hf =>
      obtain ⟨⟨res, s⟩, hs, hx⟩ := bind_eq_ok.mp hx
      cases hx
      obtain ⟨x, hx₀⟩ := h.balanced.file_of_mem hf
      have hr := h.balanced.inode_open hf hx₀
      have hb := h.balanced.of_fileReopen hf hs
      have hset : Settled s := by
        unfold fileReopen at hs
        rw [getFile_eq_ok.mpr hx₀, bind_ok] at hs
        have hre := h.settled.of_reopen hr (hroom' x.inode (by
          show x.inode ∈ (u.fs.file f).map (·.inode)
          rw [hx₀]
          rfl))
        refine hre.of_fileOpen (fun r' hr' => ?_) hs
        cases hr'
        exact hr
      cases res with
      | none => exact .of_narrow hb.1 hset
      | some f' => exact .of_narrow hb.1 hset
    next => cases hx
  | fileClose f =>
    simp only [refStep] at hx
    split at hx
    next hf =>
      obtain ⟨s, hs, hx⟩ := bind_eq_ok.mp hx
      cases hx
      obtain ⟨x, hx₀⟩ := h.balanced.file_of_mem hf.1
      exact .of_narrow (h.balanced.of_fileClose hf.1 hs).1
        (h.settled.of_fileClose hx₀ (h.balanced.inode_open hf.1 hx₀) hs)
    next => cases hx
  | fileDenyWrite f =>
    simp only [refStep] at hx
    split at hx
    next hf =>
      obtain ⟨s, hs, hx⟩ := bind_eq_ok.mp hx
      cases hx
      obtain ⟨x, hx₀⟩ := h.balanced.file_of_mem hf
      obtain ⟨s', hs', hb, -⟩ := fileDenyWrite_ok h.balanced hf hx₀
      cases hs'.symm.trans hs
      have hcnt := fileDenyWrite_openCnt hs
      exact .of_narrow hb (h.settled.of_eq hcnt.1 hcnt.2)
    next => cases hx
  | fileAllowWrite f =>
    simp only [refStep] at hx
    split at hx
    next hf =>
      obtain ⟨s, hs, hx⟩ := bind_eq_ok.mp hx
      cases hx
      obtain ⟨x, hx₀⟩ := h.balanced.file_of_mem hf
      obtain ⟨s', hs', hb, -⟩ := fileAllowWrite_ok h.balanced hf hx₀
      cases hs'.symm.trans hs
      have hcnt := fileAllowWrite_openCnt hs
      exact .of_narrow hb (h.settled.of_eq hcnt.1 hcnt.2)
    next => cases hx
  | dirOpen o alloc =>
    simp only [refStep] at hx
    split at hx
    next ho =>
      obtain ⟨⟨res, s⟩, hs, hx⟩ := bind_eq_ok.mp hx
      cases hx
      have hset := h.settled.of_dirOpen (hopen ho) hs
      have hb := h.balanced.perm (given_perm ho)
      obtain ⟨rfl, rfl⟩ | ⟨r, rfl, rfl, hclose⟩ := dirOpen_eq_ok hs
      · refine .of_narrow (hb.perm ?_) hset
        rw [← List.append_assoc, ← List.append_assoc]
        exact List.perm_append_comm.append_right _
      · exact .of_narrow (hb.of_inodeClose hclose).1 hset
    next => cases hx
  | dirReopen dir alloc =>
    simp only [refStep] at hx
    split at hx
    next hd =>
      obtain ⟨⟨res, s⟩, hs, hx⟩ := bind_eq_ok.mp hx
      cases hx
      have hr : dir ∈ u.fs.openInodes :=
        h.mem.mpr (List.mem_append_left _ (List.mem_append_right _ hd))
      have hre := h.settled.of_reopen hr (hroom' dir rfl)
      obtain ⟨hb, -⟩ := h.balanced.of_reopen hr
      have hset := hre.of_dirOpen (fun r' hr' => by cases hr'; exact hr) hs
      obtain ⟨rfl, rfl⟩ | ⟨r, hr', rfl, hclose⟩ := dirOpen_eq_ok hs
      · exact .of_narrow (hb.perm List.perm_middle.symm) hset
      · cases hr'
        exact .of_narrow (hb.of_inodeClose hclose).1 hset
    next => cases hx
  | dirClose dir =>
    simp only [refStep] at hx
    split at hx
    next hd =>
      obtain ⟨s, hs, hx⟩ := bind_eq_ok.mp hx
      cases hx
      have hr : dir ∈ u.fs.openInodes :=
        h.mem.mpr (List.mem_append_left _ (List.mem_append_right _ hd))
      have hperm : (u.inodes ++ u.dirs).Perm (dir :: (u.inodes ++ u.dirs.erase dir)) :=
        ((List.perm_cons_erase hd).append_left u.inodes).trans List.perm_middle
      exact .of_narrow ((h.balanced.perm hperm).of_inodeClose hs).1
        (h.settled.of_inodeClose hr hs)
    next => cases hx
  | freeMapFile o =>
    simp only [refStep] at hx
    split at hx
    next =>
      cases hx
      exact ⟨h.balanced.of_freeMapFile o, h.settled.of_eq rfl fun _ => rfl⟩
    next => cases hx

/-- At first there is none. -/
theorem accounted_init (device : SectorNo → Sector) (freeMap : List Bool) :
    Accounted (initUsers device freeMap) where
  balanced := {
    nodup := List.nodup_nil
    opened := fun f => ⟨fun h => absurd h List.not_mem_nil, fun h => absurd h Bool.false_ne_true⟩
    below := fun f h => absurd h List.not_mem_nil
    counted := {
      nodup := List.nodup_nil
      below := fun r h => absurd h List.not_mem_nil
      listed := fun r => Iff.rfl
      openCnt := fun r h => absurd h List.not_mem_nil
      sectors := fun r h => absurd h List.not_mem_nil }
    denied := fun r h => absurd h List.not_mem_nil }
  settled := ⟨fun _ _ => rfl, fun _ => (by decide : (0 : Int) < 2 ^ 31)⟩

/-- In every run in which no operation adds a reference to an inode that has `2 ^ 31 - 1` of them,
the inodes in memory are unique and their counts exact. -/
theorem inodes_exact (device : SectorNo → Sector) (freeMap : List Bool)
    (h : ReachWhere (Steps refStep) Users.HasRoom (initUsers device freeMap) u) : Exact u :=
  Accounted.exact (h.invariant (accounted_init device freeMap)
    fun _ _ _ hu hroom hx => hu.of_step hroom hx)

/-- Whether an operation has room. -/
def roomTest (u : Users) (op : RefOp) : Bool :=
  (u.target op).all fun r => decide (u.refs.count r < 2 ^ 31 - 1)

/-- Two opens of one sector, with a failing `dir_open` in between. -/
theorem shared_inode_exact : ∃ u : Users, u.fs.openInodes = [0] ∧ u.refs = [0, 0] ∧ Exact u := by
  obtain ⟨u, hr, hp⟩ := exists_of_replay refStep roomTest
    [.inodeOpen 5 true, .inodeOpen 5 false, .inodeReopen 0, .dirOpen (some 0) false,
      .fileOpen (some 0) true]
    (initUsers (fun _ _ => 0) []) (fun u => u.fs.openInodes == [0] && u.refs == [0, 0]) (by decide)
  obtain ⟨hopen, hrefs⟩ := (Bool.and_eq_true _ _ ▸ hp : _ = true ∧ _ = true)
  refine ⟨u, beq_iff_eq.mp hopen, beq_iff_eq.mp hrefs, inodes_exact (fun _ _ => 0) [] ?_⟩
  refine hr.weaken fun u op hroom r hmem => ?_
  unfold roomTest at hroom
  rw [Option.mem_def.mp hmem] at hroom
  simpa using hroom

/-- Opening one sector over and over, with nothing closed. -/
theorem opened_again (n : Nat) : ∃ u, Reach (Steps refStep) (initUsers (fun _ _ => 0) []) u ∧
    u.fs.openInodes = [0] ∧ (u.fs.inode 0).sector = 5 ∧ u.refs = List.replicate (n + 1) 0 ∧
    (u.fs.inode 0).openCnt = Int.bmod (n + 1) (2 ^ 32) := by
  induction n with
  | zero =>
    exact ⟨_, ReachWhere.start.next (i := .inodeOpen 5 true) trivial rfl, rfl, rfl, rfl, rfl⟩
  | succ n ih =>
    obtain ⟨u, hr, hopen, hsector, hrefs, hcnt⟩ := ih
    have hfind : u.fs.openInodes.find? (fun r => (u.fs.inode r).sector == 5) = some 0 := by
      rw [hopen]
      simp [hsector]
    have hstep : refStep (.inodeOpen 5 true) u =
        .ok { u with fs := (inodeReopen 0 u.fs).narrow, inodes := 0 :: u.inodes } := by
      simp only [refStep, inodeOpen, hfind]
      rfl
    refine ⟨_, hr.next trivial hstep, hopen, ?_, ?_, ?_⟩
    · show (Function.update u.fs.inode 0 _ 0).sector = 5
      rw [Function.update_self]
      exact hsector
    · rw [List.replicate_succ, ← hrefs]
      rfl
    · show Int.bmod (Function.update u.fs.inode 0 _ 0).openCnt (2 ^ 32) = _
      rw [Function.update_self]
      show Int.bmod ((u.fs.inode 0).openCnt + 1) (2 ^ 32) = _
      rw [hcnt, Int.bmod_add_bmod]
      congr 1

/-- After `2 ^ 31` opens of one sector `open_cnt` is negative. -/
theorem open_cnt_overflows : ∃ u, Reach (Steps refStep) (initUsers (fun _ _ => 0) []) u ∧
    u.refs.count 0 = 2 ^ 31 ∧ (u.fs.inode 0).openCnt = -2 ^ 31 ∧ ¬ Exact u := by
  obtain ⟨u, hr, -, -, hrefs, hcnt⟩ := opened_again (2 ^ 31 - 1)
  have hcount : u.refs.count 0 = 2 ^ 31 := by
    calc u.refs.count 0 = 2 ^ 31 - 1 + 1 := by rw [hrefs, List.count_replicate_self]
      _ = 2 ^ 31 := by decide
  have hneg : (u.fs.inode 0).openCnt = -2 ^ 31 := by
    rw [hcnt]
    decide
  refine ⟨u, hr, hcount, hneg, fun h => ?_⟩
  have := h.openCnt 0
  rw [hneg, hcount] at this
  revert this
  decide

end Pintos.Filesys
