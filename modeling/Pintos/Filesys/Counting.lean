import Mathlib.Data.List.Count
import Pintos.Filesys.File

/-!
# Counting openers

`open_cnt` of an inode is the number of references to it that are out, and `deny_write_cnt` the
number of open files of the inode with `deny_write` set. `Balanced` says so of a state, its open
files and the references that are not in a file: those of a directory, or of an inode that is about
to get a file. Every operation keeps it.

`DiskKept` is what every operation leaves alone, where the inodes are on the device; under `Kept` so
are the files.
-/

namespace Pintos.Filesys

open Pintos.Lib

variable {s s₁ s' : Files} {r : InodeRef} {f : FileRef} {refs extra : List InodeRef}
  {l : List FileRef} {m : Mallocs}

/-! ## References to inodes -/

/-- `open_inodes` is the inodes that have references out, one for each sector, and counts them. -/
structure Counted (s : Files) (refs : List InodeRef) : Prop where
  nodup : s.openInodes.Nodup
  below : ∀ r ∈ s.openInodes, r < s.nextInode
  listed : ∀ r, r ∈ s.openInodes ↔ r ∈ refs
  openCnt : ∀ r ∈ s.openInodes, (s.inode r).openCnt = refs.count r
  sectors : ∀ r ∈ s.openInodes, ∀ r' ∈ s.openInodes,
    (s.inode r).sector = (s.inode r').sector → r = r'

/-- The order in which the openers are listed does not matter. -/
theorem Counted.perm {refs' : List InodeRef} (h : Counted s refs) (hp : refs.Perm refs') :
    Counted s refs' where
  nodup := h.nodup
  below := h.below
  listed := fun r => (h.listed r).trans hp.mem_iff
  openCnt := by
    intro r hr
    rw [h.openCnt r hr, hp.count_eq]
  sectors := h.sectors

/-- What is counted is as it was. -/
theorem Counted.of_same (h : Counted s refs) (hopen : s'.openInodes = s.openInodes)
    (hnext : s'.nextInode = s.nextInode)
    (hino : ∀ r ∈ s.openInodes, (s'.inode r).openCnt = (s.inode r).openCnt ∧
      (s'.inode r).sector = (s.inode r).sector) : Counted s' refs := by
  constructor
  case nodup =>
    rw [hopen]
    exact h.nodup
  case below =>
    rw [hopen, hnext]
    exact h.below
  case listed =>
    rw [hopen]
    exact h.listed
  case openCnt =>
    intro r hr
    rw [hopen] at hr
    rw [(hino r hr).1, h.openCnt r hr]
  case sectors =>
    intro r hr r' hr' heq
    rw [hopen] at hr hr'
    rw [(hino r hr).2, (hino r' hr').2] at heq
    exact h.sectors r hr r' hr' heq

/-- `inode_reopen` counts one opener more. -/
theorem Counted.of_reopen (h : Counted s refs) (hr : r ∈ s.openInodes) :
    Counted (inodeReopen r s) (r :: refs) where
  nodup := h.nodup
  below := h.below
  listed := by
    intro r'
    rw [List.mem_cons]
    constructor
    · exact fun hr' => .inr ((h.listed r').mp hr')
    · rintro (rfl | hr')
      · exact hr
      · exact (h.listed r').mpr hr'
  openCnt := by
    intro r' hr'
    show (Function.update s.inode r _ r').openCnt = _
    by_cases heq : r' = r
    · rw [heq, Function.update_self, List.count_cons_self]
      show (s.inode r).openCnt + 1 = _
      rw [h.openCnt r hr]
      omega
    · rw [Function.update_of_ne heq, List.count_cons_of_ne (Ne.symm heq)]
      exact h.openCnt r' hr'
  sectors := by
    have hsector : ∀ r', ((inodeReopen r s).inode r').sector = (s.inode r').sector := by
      intro r'
      show (Function.update s.inode r _ r').sector = _
      by_cases heq : r' = r
      · rw [heq, Function.update_self]
      · rw [Function.update_of_ne heq]
    intro r₁ h₁ r₂ h₂ heq
    rw [hsector, hsector] at heq
    exact h.sectors r₁ h₁ r₂ h₂ heq

/-- One reference is given back: the inode stays open for the others, or goes. -/
theorem Counted.of_close {s₁ : Files} (h : Counted s refs) (hr : r ∈ refs)
    (hino : ∀ r' ∈ s₁.openInodes, (s₁.inode r').openCnt =
        (if r' = r then (s.inode r).openCnt - 1 else (s.inode r').openCnt) ∧
      (s₁.inode r').sector = (s.inode r').sector)
    (hopen : s₁.openInodes = if (s.inode r).openCnt - 1 = 0 then s.openInodes.erase r
      else s.openInodes) (hnext : s₁.nextInode = s.nextInode) : Counted s₁ (refs.erase r) := by
  have hro := (h.listed r).mpr hr
  have hcnt := h.openCnt r hro
  have hpos : 0 < refs.count r := List.count_pos_iff.mpr hr
  have hself : (refs.erase r).count r = refs.count r - 1 := List.count_erase_self
  have hsub : ∀ r' ∈ s₁.openInodes, r' ∈ s.openInodes := by
    intro r' hr'
    rw [hopen] at hr'
    split at hr'
    · exact List.mem_of_mem_erase hr'
    · exact hr'
  constructor
  case nodup =>
    rw [hopen]
    split
    · exact h.nodup.sublist List.erase_sublist
    · exact h.nodup
  case below =>
    intro r' hr'
    rw [hnext]
    exact h.below r' (hsub r' hr')
  case listed =>
    intro r'
    rw [hopen]
    by_cases heq : r' = r
    · rw [heq]
      split
      next hzero =>
        have hgone : (refs.erase r).count r = 0 := by omega
        constructor
        · intro hr'
          exact absurd rfl ((List.Nodup.mem_erase_iff h.nodup).mp hr').1
        · intro hr'
          exact absurd hr' (List.count_eq_zero.mp hgone)
      next hmore =>
        have hleft : 0 < (refs.erase r).count r := by omega
        exact ⟨fun _ => List.count_pos_iff.mp hleft, fun _ => hro⟩
    · rw [List.mem_erase_of_ne heq]
      split
      · rw [List.mem_erase_of_ne heq]
        exact h.listed r'
      · exact h.listed r'
  case openCnt =>
    intro r' hr'
    rw [(hino r' hr').1]
    split
    next heq =>
      rw [heq, hself]
      omega
    next heq =>
      rw [List.count_erase_of_ne heq]
      exact h.openCnt r' (hsub r' hr')
  case sectors =>
    intro r₁ h₁ r₂ h₂ heq
    rw [(hino r₁ h₁).2, (hino r₂ h₂).2] at heq
    exact h.sectors r₁ (hsub r₁ h₁) r₂ (hsub r₂ h₂) heq

/-! ## What is left alone -/

/-- The device and the free map apart, nothing has changed. -/
structure SameTables (s s' : Files) : Prop where
  openInodes : s'.openInodes = s.openInodes
  inode : s'.inode = s.inode
  nextInode : s'.nextInode = s.nextInode
  file : s'.file = s.file
  nextFile : s'.nextFile = s.nextFile
  freeMapFile : s'.freeMapFile = s.freeMapFile

theorem SameTables.refl (s : Files) : SameTables s s := ⟨rfl, rfl, rfl, rfl, rfl, rfl⟩

/-- What neither of two steps touches is untouched in the end. -/
theorem SameTables.trans (h : SameTables s s₁) (h' : SameTables s₁ s') : SameTables s s' :=
  ⟨h'.openInodes.trans h.openInodes, h'.inode.trans h.inode, h'.nextInode.trans h.nextInode,
    h'.file.trans h.file, h'.nextFile.trans h.nextFile, h'.freeMapFile.trans h.freeMapFile⟩

/-- A write goes to the device, and to no table in memory. -/
theorem inodeWriteAt_same (r : InodeRef) (buffer : Nat → UInt8) (size offset : Int) (s : Files) :
    SameTables s (inodeWriteAt r buffer size offset s).2 := by
  unfold inodeWriteAt
  split
  · exact .refl s
  · exact ⟨rfl, rfl, rfl, rfl, rfl, rfl⟩

/-- Writing the free map changes the device alone. -/
theorem bitmapWrite_same (s : Files) : SameTables s (bitmapWrite s).2 := by
  unfold bitmapWrite
  split
  · exact .refl s
  · exact inodeWriteAt_same _ _ _ _ s

/-- An allocation changes the free map and the device. -/
theorem freeMapAllocate_same (cnt : Nat) (s : Files) : SameTables s (freeMapAllocate cnt s).2 := by
  unfold freeMapAllocate
  split
  · exact .refl s
  next sector _ =>
    have hset : SameTables s { s with freeMap := setMultiple s.freeMap sector cnt true } :=
      ⟨rfl, rfl, rfl, rfl, rfl, rfl⟩
    have hwrite := hset.trans (bitmapWrite_same _)
    dsimp only
    split
    · split
      · exact hwrite
      · exact hwrite.trans ⟨rfl, rfl, rfl, rfl, rfl, rfl⟩
    · exact hset

/-- A release changes the free map and the device. -/
theorem freeMapRelease_same {sector : SectorNo} {cnt : Nat}
    (h : freeMapRelease sector cnt s = .ok s') : SameTables s s' := by
  unfold freeMapRelease at h
  split at h
  · cases h
    have hset : SameTables s { s with freeMap := setMultiple s.freeMap sector cnt false } :=
      ⟨rfl, rfl, rfl, rfl, rfl, rfl⟩
    exact hset.trans (bitmapWrite_same _)
  · cases h

/-- A new inode on the device is not in memory yet. -/
theorem inodeCreate_same {sector : SectorNo} {length : Int} {ok : Bool}
    (h : inodeCreate sector length s = .ok (ok, s')) : SameTables s s' := by
  unfold inodeCreate at h
  split at h
  · cases h
  · have halloc := freeMapAllocate_same (bytesToSectors length) s
    dsimp only at h
    split at h
    next heq =>
      cases h
      rw [heq] at halloc
      exact halloc
    next heq =>
      cases h
      rw [heq] at halloc
      exact halloc.trans ⟨rfl, rfl, rfl, rfl, rfl, rfl⟩

/-- A new name is on the device alone. -/
theorem dirAdd_same (dir : InodeRef) (name : List UInt8) (sector : SectorNo) (s : Files) :
    SameTables s (dirAdd dir name sector s).2 := by
  unfold dirAdd
  split
  · exact .refl s
  · split
    · exact .refl s
    · exact inodeWriteAt_same _ _ _ _ s

/-- The inodes that are there stay where they are on the device. -/
structure DiskKept (s s' : Files) : Prop where
  nextInode : s.nextInode ≤ s'.nextInode
  disk : ∀ r < s.nextInode, (s'.inode r).sector = (s.inode r).sector ∧
    (s'.inode r).start = (s.inode r).start ∧ (s'.inode r).length = (s.inode r).length

theorem DiskKept.refl (s : Files) : DiskKept s s := ⟨Nat.le_refl _, fun _ _ => ⟨rfl, rfl, rfl⟩⟩

/-- Inodes on disk that survive two steps in turn survive both. -/
theorem DiskKept.trans (h : DiskKept s s₁) (h' : DiskKept s₁ s') : DiskKept s s' where
  nextInode := Nat.le_trans h.nextInode h'.nextInode
  disk := by
    intro r hr
    obtain ⟨h₁, h₂, h₃⟩ := h.disk r hr
    obtain ⟨h₁', h₂', h₃'⟩ := h'.disk r (Nat.lt_of_lt_of_le hr h.nextInode)
    exact ⟨h₁'.trans h₁, h₂'.trans h₂, h₃'.trans h₃⟩

/-- A step that leaves the inodes in memory alone keeps where they are on disk. -/
theorem DiskKept.of_eq (hino : s'.inode = s.inode) (hnext : s'.nextInode = s.nextInode) :
    DiskKept s s' where
  nextInode := Nat.le_of_eq hnext.symm
  disk := fun r _ => by
    rw [hino]
    exact ⟨rfl, rfl, rfl⟩

/-- Of the inode `r` only the counts and the mark change. -/
theorem DiskKept.of_update {ino : Inode} (hino : s'.inode = Function.update s.inode r ino)
    (hnext : s'.nextInode = s.nextInode) (h₁ : ino.sector = (s.inode r).sector)
    (h₂ : ino.start = (s.inode r).start) (h₃ : ino.length = (s.inode r).length) :
    DiskKept s s' where
  nextInode := Nat.le_of_eq hnext.symm
  disk := by
    intro r' _
    rw [hino]
    by_cases heq : r' = r
    · rw [heq, Function.update_self]
      exact ⟨h₁, h₂, h₃⟩
    · rw [Function.update_of_ne heq]
      exact ⟨rfl, rfl, rfl⟩

/-- And the files stay as they are. -/
structure Kept (s s' : Files) : Prop extends DiskKept s s' where
  file : s'.file = s.file
  nextFile : s'.nextFile = s.nextFile
  freeMapFile : s'.freeMapFile = s.freeMapFile

theorem Kept.refl (s : Files) : Kept s s := ⟨.refl s, rfl, rfl, rfl⟩

/-- Files that survive two steps in turn survive both. -/
theorem Kept.trans (h : Kept s s₁) (h' : Kept s₁ s') : Kept s s' :=
  ⟨h.toDiskKept.trans h'.toDiskKept, h'.file.trans h.file, h'.nextFile.trans h.nextFile,
    h'.freeMapFile.trans h.freeMapFile⟩

/-- With the tables the open files stay. -/
theorem SameTables.kept (h : SameTables s s') : Kept s s' :=
  ⟨.of_eq h.inode h.nextInode, h.file, h.nextFile, h.freeMapFile⟩

/-! ## Inodes and files -/

/-- The file has the inode `r` open and denies writes to it. -/
def Files.deniesOn (s : Files) (r : InodeRef) (f : FileRef) : Bool :=
  match s.file f with
  | some x => x.inode == r && x.denyWrite
  | none => false

/-- The inodes of the files `l`. -/
def Files.inodesOf (s : Files) (l : List FileRef) : List InodeRef :=
  l.filterMap fun f => (s.file f).map (·.inode)

/-- `l` are the open files; with `extra` they have all references to inodes, and the inodes count
them. -/
structure Balanced (s : Files) (l : List FileRef) (extra : List InodeRef) : Prop where
  nodup : l.Nodup
  opened : ∀ f, f ∈ l ↔ (s.file f).isSome = true
  below : ∀ f ∈ l, f < s.nextFile
  counted : Counted s (extra ++ s.inodesOf l)
  denied : ∀ r ∈ s.openInodes, (s.inode r).denyWriteCnt = l.countP (s.deniesOn r)

/-- The order of the openers does not matter to the balance. -/
theorem Balanced.perm {extra' : List InodeRef} (h : Balanced s l extra) (hp : extra.Perm extra') :
    Balanced s l extra' :=
  ⟨h.nodup, h.opened, h.below, h.counted.perm (hp.append_right _), h.denied⟩

/-- The inode of a listed file is listed. -/
theorem mem_inodesOf {x : File} (hf : f ∈ l) (hx : s.file f = some x) : x.inode ∈ s.inodesOf l := by
  refine List.mem_filterMap.mpr ⟨f, hf, ?_⟩
  rw [hx]
  rfl

/-- The inode of an open file is open. -/
theorem Balanced.inode_open {x : File} (h : Balanced s l extra) (hf : f ∈ l)
    (hx : s.file f = some x) : x.inode ∈ s.openInodes :=
  (h.counted.listed _).mpr (List.mem_append_right _ (mem_inodesOf hf hx))

/-- Behind each listed file there is a `struct file`. -/
theorem Balanced.file_of_mem (h : Balanced s l extra) (hf : f ∈ l) : ∃ x, s.file f = some x :=
  Option.isSome_iff_exists.mp ((h.opened f).mp hf)

/-- What is counted is as it was, and the files too. -/
theorem Balanced.of_same (h : Balanced s l extra) (hs : SameTables s s') : Balanced s' l extra where
  nodup := h.nodup
  opened := by
    rw [hs.file]
    exact h.opened
  below := by
    rw [hs.nextFile]
    exact h.below
  counted := by
    have hrefs : s'.inodesOf l = s.inodesOf l := by
      unfold Files.inodesOf
      rw [hs.file]
    rw [hrefs]
    refine h.counted.of_same hs.openInodes hs.nextInode fun r _ => ?_
    rw [hs.inode]
    exact ⟨rfl, rfl⟩
  denied := by
    have hdeny : s'.deniesOn = s.deniesOn := by
      unfold Files.deniesOn
      rw [hs.file]
    rw [hs.openInodes, hs.inode, hdeny]
    exact h.denied

/-- The balance does not depend on which file is the free map's. -/
theorem Balanced.of_freeMapFile (h : Balanced s l extra) (o : Option FileRef) :
    Balanced { s with freeMapFile := o } l extra :=
  ⟨h.nodup, h.opened, h.below, h.counted.of_same rfl rfl fun _ _ => ⟨rfl, rfl⟩, h.denied⟩

/-- A sector that has no inode open gets one. -/
theorem Balanced.of_new {ino : Inode} (h : Balanced s l extra)
    (hsector : ∀ r ∈ s.openInodes, (s.inode r).sector ≠ ino.sector) (hcnt : ino.openCnt = 1)
    (hdeny : ino.denyWriteCnt = 0) : Balanced { s with
      openInodes := s.nextInode :: s.openInodes
      nextInode := s.nextInode + 1
      inode := Function.update s.inode s.nextInode ino } l (s.nextInode :: extra) := by
  have hfresh : s.nextInode ∉ s.openInodes := fun hr => Nat.lt_irrefl _ (h.counted.below _ hr)
  have hold : ∀ r ∈ s.openInodes, Function.update s.inode s.nextInode ino r = s.inode r := by
    intro r hr
    apply Function.update_of_ne
    intro heq
    exact hfresh (heq ▸ hr)
  constructor
  case nodup => exact h.nodup
  case opened => exact h.opened
  case below => exact h.below
  case counted =>
    constructor
    case nodup => exact List.nodup_cons.mpr ⟨hfresh, h.counted.nodup⟩
    case below =>
      intro r hr
      rcases List.mem_cons.mp hr with rfl | hr
      · exact Nat.lt_succ_self _
      · exact Nat.lt_succ_of_lt (h.counted.below r hr)
    case listed =>
      intro r
      show r ∈ s.nextInode :: s.openInodes ↔ r ∈ s.nextInode :: (extra ++ s.inodesOf l)
      rw [List.mem_cons, List.mem_cons, h.counted.listed]
    case openCnt =>
      intro r hr
      show (Function.update s.inode s.nextInode ino r).openCnt =
        ((s.nextInode :: (extra ++ s.inodesOf l)).count r : Nat)
      rcases List.mem_cons.mp hr with rfl | hr
      · rw [Function.update_self, hcnt, List.count_cons_self, List.count_eq_zero.mpr]
        · rfl
        · exact fun hmem => hfresh ((h.counted.listed _).mpr hmem)
      · rw [hold r hr, h.counted.openCnt r hr, List.count_cons_of_ne]
        intro heq
        exact hfresh (heq ▸ hr)
    case sectors =>
      intro r hr r' hr' heq
      have heq' : (Function.update s.inode s.nextInode ino r).sector =
        (Function.update s.inode s.nextInode ino r').sector := heq
      rcases List.mem_cons.mp hr with rfl | hr
      · rcases List.mem_cons.mp hr' with rfl | hr'
        · rfl
        · rw [Function.update_self, hold r' hr'] at heq'
          exact absurd heq'.symm (hsector r' hr')
      · rcases List.mem_cons.mp hr' with rfl | hr'
        · rw [Function.update_self, hold r hr] at heq'
          exact absurd heq' (hsector r hr)
        · rw [hold r hr, hold r' hr'] at heq'
          exact h.counted.sectors r hr r' hr' heq'
  case denied =>
    intro r hr
    show (Function.update s.inode s.nextInode ino r).denyWriteCnt = (l.countP (s.deniesOn r) : Nat)
    rcases List.mem_cons.mp hr with rfl | hr
    · rw [Function.update_self, hdeny]
      have hzero : l.countP (s.deniesOn s.nextInode) = 0 := by
        apply List.countP_eq_zero.mpr
        intro f hf hd
        obtain ⟨x, hx⟩ := h.file_of_mem hf
        unfold Files.deniesOn at hd
        rw [hx] at hd
        simp only [Bool.and_eq_true, beq_iff_eq] at hd
        exact hfresh (hd.1 ▸ h.inode_open hf hx)
      rw [hzero]
      rfl
    · rw [hold r hr]
      exact h.denied r hr

/-- `inode_reopen` adds the inode to those that are held without a file. -/
theorem Balanced.of_reopen (h : Balanced s l extra) (hr : r ∈ s.openInodes) :
    Balanced (inodeReopen r s) l (r :: extra) ∧ Kept s (inodeReopen r s) := by
  refine ⟨⟨h.nodup, h.opened, h.below, h.counted.of_reopen hr, fun r' hr' => ?_⟩,
    .of_update rfl rfl rfl rfl rfl, rfl, rfl, rfl⟩
  have hsame : ((inodeReopen r s).inode r').denyWriteCnt = (s.inode r').denyWriteCnt := by
    show (Function.update s.inode r _ r').denyWriteCnt = _
    by_cases heq : r' = r
    · rw [heq, Function.update_self]
    · rw [Function.update_of_ne heq]
  rw [hsame]
  exact h.denied r' hr'

/-- `inode_open` adds the inode it answers, whether it was open before or is read in. -/
theorem Balanced.of_inodeOpen {sector : SectorNo} {alloc : Bool} {o : Option InodeRef}
    (h : Balanced s l extra) (hx : inodeOpen sector alloc s = (o, s')) :
    Balanced s' l (o.toList ++ extra) ∧ Kept s s' := by
  unfold inodeOpen at hx
  split at hx
  next r hr =>
    cases hx
    exact h.of_reopen (List.mem_of_find?_eq_some hr)
  next hnone =>
    split at hx
    · cases hx
      refine ⟨h.of_new (fun r hr heq => ?_) rfl rfl, ⟨Nat.le_succ _, fun r hr => ?_⟩, rfl, rfl, rfl⟩
      · have hno := List.find?_eq_none.mp hnone r hr
        rw [heq] at hno
        simp at hno
      · have hold := Function.update_of_ne (Nat.ne_of_lt hr)
          { sector := sector, openCnt := 1, removed := false, denyWriteCnt := 0
            start := word (s.device sector).byte 0
            length := Int.bmod (word (s.device sector).byte 4) (2 ^ 32) : Inode } s.inode
        dsimp only
        rw [hold]
        exact ⟨rfl, rfl, rfl⟩
    · cases hx
      exact ⟨h, .refl s⟩

/-- What `inode_close` leaves. -/
theorem inodeClose_eq_ok (h : inodeClose (some r) s = .ok s') :
    s'.inode = Function.update s.inode r { s.inode r with openCnt := (s.inode r).openCnt - 1 } ∧
    (s'.openInodes = if (s.inode r).openCnt - 1 = 0 then s.openInodes.erase r else s.openInodes) ∧
    s'.nextInode = s.nextInode ∧ s'.file = s.file ∧ s'.nextFile = s.nextFile ∧
    s'.freeMapFile = s.freeMapFile := by
  unfold inodeClose at h
  dsimp only at h
  split at h
  next hzero =>
    rw [if_pos hzero]
    split at h
    · obtain ⟨s₁, h₁, h⟩ := bind_eq_ok.mp h
      have hs := (freeMapRelease_same h₁).trans (freeMapRelease_same h)
      exact ⟨hs.inode, hs.openInodes, hs.nextInode, hs.file, hs.nextFile, hs.freeMapFile⟩
    · cases h
      exact ⟨rfl, rfl, rfl, rfl, rfl, rfl⟩
  next hmore =>
    rw [if_neg hmore]
    cases h
    exact ⟨rfl, rfl, rfl, rfl, rfl, rfl⟩

/-- Closing an inode leaves the counts of denials alone. -/
theorem inodeClose_denyWriteCnt (h : inodeClose (some r) s = .ok s') (r' : InodeRef) :
    (s'.inode r').denyWriteCnt = (s.inode r').denyWriteCnt := by
  rw [(inodeClose_eq_ok h).1]
  by_cases heq : r' = r
  · rw [heq, Function.update_self]
  · rw [Function.update_of_ne heq]

/-- Closing an inode opens none. -/
theorem openInodes_of_inodeClose {r' : InodeRef} (h : inodeClose (some r) s = .ok s')
    (hr : r' ∈ s'.openInodes) : r' ∈ s.openInodes := by
  rw [(inodeClose_eq_ok h).2.1] at hr
  split at hr
  · exact List.mem_of_mem_erase hr
  · exact hr

/-- Closing an inode, and giving its sectors back, keeps the open files. -/
theorem inodeClose_kept (h : inodeClose (some r) s = .ok s') : Kept s s' := by
  obtain ⟨hino, -, hnext, hfile, hnextFile, hmap⟩ := inodeClose_eq_ok h
  exact ⟨.of_update hino hnext rfl rfl rfl, hfile, hnextFile, hmap⟩

/-- The inode that is closed has one opener less, and leaves the list with its last. -/
theorem Counted.of_inodeClose (h : Counted s refs) (hr : r ∈ refs)
    (hx : inodeClose (some r) s = .ok s') : Counted s' (refs.erase r) := by
  obtain ⟨hino, hopen, hnext, -⟩ := inodeClose_eq_ok hx
  apply h.of_close hr _ hopen hnext
  intro r' _
  rw [hino]
  by_cases heq : r' = r
  · rw [heq, Function.update_self, if_pos rfl]
    exact ⟨rfl, rfl⟩
  · rw [Function.update_of_ne heq, if_neg heq]
    exact ⟨rfl, rfl⟩

/-- Files that are kept have the inodes they had. -/
theorem Kept.inodesOf (h : Kept s s') (l : List FileRef) : s'.inodesOf l = s.inodesOf l := by
  unfold Files.inodesOf
  rw [h.file]

/-- Files that are kept deny the writes they denied. -/
theorem Kept.deniesOn (h : Kept s s') (r : InodeRef) : s'.deniesOn r = s.deniesOn r := by
  unfold Files.deniesOn
  rw [h.file]

/-- A reference that is not in a file is given back. -/
theorem Balanced.of_inodeClose (h : Balanced s l (r :: extra))
    (hx : inodeClose (some r) s = .ok s') : Balanced s' l extra ∧ Kept s s' := by
  have hk := inodeClose_kept hx
  refine ⟨⟨h.nodup, hk.file ▸ h.opened, hk.nextFile ▸ h.below, ?_, fun r' hr' => ?_⟩, hk⟩
  · have hclosed := h.counted.of_inodeClose (List.mem_cons_self ..) hx
    rw [List.cons_append, List.erase_cons_head] at hclosed
    rw [hk.inodesOf]
    exact hclosed
  · rw [inodeClose_denyWriteCnt hx, hk.deniesOn]
    exact h.denied r' (openInodes_of_inodeClose hx hr')

/-! ## One file -/

theorem setFile_file_of_ne {f' : FileRef} {x : Option File} (h : f' ≠ f) :
    (s.setFile f x).file f' = s.file f' := by
  show Function.update s.file f x f' = _
  rw [Function.update_of_ne h]

theorem setFile_file_self {x : Option File} : (s.setFile f x).file f = x := by
  show Function.update s.file f x f = _
  rw [Function.update_self]

/-- A file that is not listed may change without the listed inodes. -/
theorem inodesOf_setFile {x : Option File} (h : f ∉ l) :
    (s.setFile f x).inodesOf l = s.inodesOf l := by
  apply List.filterMap_congr
  intro f' hf'
  rw [setFile_file_of_ne]
  intro heq
  exact h (heq ▸ hf')

/-- What another file denies does not depend on this one. -/
theorem deniesOn_setFile {x : Option File} {f' : FileRef} (h : f' ≠ f) :
    (s.setFile f x).deniesOn r f' = s.deniesOn r f' := by
  unfold Files.deniesOn
  rw [setFile_file_of_ne h]

/-- As many listed files deny writes as before. -/
theorem countP_setFile {x : Option File} (h : f ∉ l) :
    l.countP ((s.setFile f x).deniesOn r) = l.countP (s.deniesOn r) := by
  apply List.countP_congr
  intro f' hf'
  rw [deniesOn_setFile]
  intro heq
  exact h (heq ▸ hf')

/-- A file in front brings its inode. -/
theorem inodesOf_cons {x : File} (hx : s.file f = some x) :
    s.inodesOf (f :: l) = x.inode :: s.inodesOf l := by
  unfold Files.inodesOf
  rw [List.filterMap_cons, hx]
  rfl

/-- A file denies writes to its own inode, if at all. -/
theorem deniesOn_eq {x : File} (hx : s.file f = some x) :
    s.deniesOn r f = (x.inode == r && x.denyWrite) := by
  unfold Files.deniesOn
  rw [hx]

/-- A file that denies writes has its inode open. -/
theorem countP_deniesOn_le (l : List FileRef) :
    l.countP (s.deniesOn r) ≤ (s.inodesOf l).count r := by
  induction l with
  | nil => exact Nat.le_refl _
  | cons f l ih =>
    rw [List.countP_cons]
    cases hx : s.file f with
    | none =>
      have hno : s.deniesOn r f = false := by
        unfold Files.deniesOn
        rw [hx]
      have hrefs : s.inodesOf (f :: l) = s.inodesOf l := by
        unfold Files.inodesOf
        rw [List.filterMap_cons, hx]
        rfl
      rw [hno, hrefs]
      exact ih
    | some x =>
      rw [inodesOf_cons hx, List.count_cons, deniesOn_eq hx]
      by_cases hr : (x.inode == r) = true
      · rw [hr, Bool.true_and]
        split <;> simp only [if_true] <;> omega
      · rw [Bool.eq_false_iff.mpr hr]
        exact Nat.le_add_right_of_le ih

/-- A file is listed once. -/
theorem Balanced.not_mem_erase (h : Balanced s l extra) : f ∉ l.erase f :=
  fun hmem => ((List.Nodup.mem_erase_iff h.nodup).mp hmem).1 rfl

/-- The denials are those of the other files and that of this one. -/
theorem countP_erase_add (hf : f ∈ l) :
    l.countP (s.deniesOn r) =
      (l.erase f).countP (s.deniesOn r) + if s.deniesOn r f then 1 else 0 := by
  rw [(List.perm_cons_erase hf).countP_eq, List.countP_cons]

/-- The inodes are those of the other files and that of this one. -/
theorem inodesOf_perm_erase {x : File} (hf : f ∈ l) (hx : s.file f = some x) :
    (s.inodesOf l).Perm (x.inode :: s.inodesOf (l.erase f)) := by
  rw [← inodesOf_cons hx]
  exact (List.perm_cons_erase hf).filterMap _

/-- An open file gets another position or another permission; the inodes keep up with it. -/
theorem Balanced.of_setFile {x y : File} (h : Balanced s l extra) (hf : f ∈ l)
    (hx : s.file f = some x) (hi : y.inode = x.inode)
    (hfile : s'.file = Function.update s.file f (some y)) (hnext : s'.nextFile = s.nextFile)
    (hopen : s'.openInodes = s.openInodes) (hnextInode : s'.nextInode = s.nextInode)
    (hino : ∀ r ∈ s.openInodes, (s'.inode r).openCnt = (s.inode r).openCnt ∧
      (s'.inode r).sector = (s.inode r).sector)
    (hdeny : ∀ r ∈ s.openInodes, (s'.inode r).denyWriteCnt =
      ((l.erase f).countP (s.deniesOn r) + if x.inode == r && y.denyWrite then 1 else 0 : Nat)) :
    Balanced s' l extra := by
  have hfile' : s'.file = (s.setFile f (some y)).file := hfile
  have hrefs : (s.setFile f (some y)).inodesOf l = s.inodesOf l := by
    apply List.filterMap_congr
    intro f' _
    by_cases heq : f' = f
    · rw [heq, setFile_file_self, hx, Option.map_some, Option.map_some, hi]
    · rw [setFile_file_of_ne heq]
  constructor
  case nodup => exact h.nodup
  case opened =>
    intro f'
    rw [hfile']
    by_cases heq : f' = f
    · rw [heq, setFile_file_self]
      exact ⟨fun _ => rfl, fun _ => hf⟩
    · rw [setFile_file_of_ne heq]
      exact h.opened f'
  case below =>
    rw [hnext]
    exact h.below
  case counted =>
    have heq : s'.inodesOf l = (s.setFile f (some y)).inodesOf l := by
      unfold Files.inodesOf
      rw [hfile']
    rw [heq, hrefs]
    exact h.counted.of_same hopen hnextInode hino
  case denied =>
    intro r hr
    rw [hopen] at hr
    have heq : s'.deniesOn r = (s.setFile f (some y)).deniesOn r := by
      unfold Files.deniesOn
      rw [hfile']
    rw [hdeny r hr, heq, countP_erase_add hf, countP_setFile h.not_mem_erase,
      deniesOn_eq setFile_file_self, hi]

/-- Reading, writing and seeking move the position of one file. -/
theorem Balanced.of_pos {x : File} {pos : Int} (h : Balanced s l extra) (hf : f ∈ l)
    (hx : s.file f = some x) :
    Balanced (s.setFile f (some { x with pos := pos })) l extra := by
  apply h.of_setFile (y := { x with pos := pos }) hf hx rfl
  · rfl
  · rfl
  · rfl
  · rfl
  · exact fun _ _ => ⟨rfl, rfl⟩
  · intro r hr
    show (s.inode r).denyWriteCnt = _
    rw [h.denied r hr, countP_erase_add hf, deniesOn_eq hx]

/-- No more files deny writes to an inode than have it open. -/
theorem Balanced.denied_le (h : Balanced s l extra) (hr : r ∈ s.openInodes) :
    (s.inode r).denyWriteCnt ≤ (s.inode r).openCnt := by
  rw [h.denied r hr, h.counted.openCnt r hr, List.count_append]
  have hle := countP_deniesOn_le (s := s) (r := r) l
  omega

/-- While a file that has it open does not deny writes, there are fewer. -/
theorem Balanced.denied_lt {x : File} (h : Balanced s l extra) (hf : f ∈ l)
    (hx : s.file f = some x) (hno : x.denyWrite = false) :
    (s.inode x.inode).denyWriteCnt + 1 ≤ (s.inode x.inode).openCnt := by
  have hr := h.inode_open hf hx
  have hself : s.deniesOn x.inode f = false := by
    rw [deniesOn_eq hx, hno, Bool.and_false]
  rw [h.denied _ hr, h.counted.openCnt _ hr, countP_erase_add hf, hself, List.count_append,
    (inodesOf_perm_erase hf hx).count_eq, List.count_cons_self]
  have hle := countP_deniesOn_le (s := s) (r := x.inode) (l.erase f)
  simp only [Bool.false_eq_true, if_false]
  omega

/-- One that denies writes is counted. -/
theorem Balanced.denied_pos {x : File} (h : Balanced s l extra) (hf : f ∈ l)
    (hx : s.file f = some x) (hyes : x.denyWrite = true) : 0 < (s.inode x.inode).denyWriteCnt := by
  have hself : s.deniesOn x.inode f = true := by
    rw [deniesOn_eq hx, hyes, Bool.and_true, beq_iff_eq]
  have hcount : 0 < l.countP (s.deniesOn x.inode) := List.countP_pos_iff.mpr ⟨f, hf, hself⟩
  rw [h.denied _ (h.inode_open hf hx)]
  omega

/-- `getFile` goes through exactly where there is a `struct file`. -/
theorem getFile_eq_ok {x : File} : s.getFile f = .ok x ↔ s.file f = some x := by
  unfold Files.getFile
  cases s.file f with
  | none => simp
  | some y => simp

/-- An open file is denied writes: the assertion holds. -/
theorem fileDenyWrite_ok {x : File} (h : Balanced s l extra) (hf : f ∈ l)
    (hx : s.file f = some x) : ∃ s', fileDenyWrite f s = .ok s' ∧ Balanced s' l extra ∧
      DiskKept s s' ∧ s'.file = Function.update s.file f (some { x with denyWrite := true }) ∧
      s'.nextFile = s.nextFile ∧ s'.freeMapFile = s.freeMapFile := by
  unfold fileDenyWrite
  rw [getFile_eq_ok.mpr hx, bind_ok]
  cases hd : x.denyWrite with
  | true =>
    have hsame : some { x with denyWrite := true } = s.file f := by
      rw [hx, ← hd]
    rw [if_pos rfl]
    refine ⟨s, rfl, h, .refl s, ?_, rfl, rfl⟩
    rw [hsame, Function.update_eq_self]
  | false =>
    have hlt := h.denied_lt hf hx hd
    rw [if_neg Bool.false_ne_true]
    unfold inodeDenyWrite
    refine ⟨_, if_pos hlt, ?_, .of_update rfl rfl rfl rfl rfl, rfl, rfl, rfl⟩
    apply h.of_setFile (y := { x with denyWrite := true }) hf hx rfl
    · rfl
    · rfl
    · rfl
    · rfl
    · intro r _
      show (Function.update s.inode x.inode _ r).openCnt = _ ∧
        (Function.update s.inode x.inode _ r).sector = _
      by_cases heq : r = x.inode
      · rw [heq, Function.update_self]
        exact ⟨rfl, rfl⟩
      · rw [Function.update_of_ne heq]
        exact ⟨rfl, rfl⟩
    · intro r hr
      show (Function.update s.inode x.inode _ r).denyWriteCnt = _
      have hcount := h.denied r hr
      rw [countP_erase_add hf, deniesOn_eq hx, hd, Bool.and_false] at hcount
      by_cases heq : r = x.inode
      · rw [heq] at hcount ⊢
        rw [Function.update_self, beq_self_eq_true]
        show (s.inode x.inode).denyWriteCnt + 1 = _
        rw [hcount]
        rfl
      · rw [Function.update_of_ne heq, beq_false_of_ne (Ne.symm heq)]
        exact hcount

/-- And allowed them again. -/
theorem fileAllowWrite_ok {x : File} (h : Balanced s l extra) (hf : f ∈ l)
    (hx : s.file f = some x) : ∃ s', fileAllowWrite f s = .ok s' ∧ Balanced s' l extra ∧
      DiskKept s s' ∧ s'.file = Function.update s.file f (some { x with denyWrite := false }) ∧
      s'.nextFile = s.nextFile ∧ s'.freeMapFile = s.freeMapFile := by
  unfold fileAllowWrite
  rw [getFile_eq_ok.mpr hx, bind_ok]
  cases hd : x.denyWrite with
  | false =>
    have hsame : some { x with denyWrite := false } = s.file f := by
      rw [hx, ← hd]
    rw [if_neg Bool.false_ne_true]
    refine ⟨s, rfl, h, .refl s, ?_, rfl, rfl⟩
    rw [hsame, Function.update_eq_self]
  | true =>
    have hpos := h.denied_pos hf hx hd
    have hle := h.denied_le (h.inode_open hf hx)
    rw [if_pos rfl]
    unfold inodeAllowWrite
    refine ⟨_, if_pos ⟨hpos, hle⟩, ?_, .of_update rfl rfl rfl rfl rfl, rfl, rfl, rfl⟩
    apply h.of_setFile (y := { x with denyWrite := false }) hf hx rfl
    · rfl
    · rfl
    · rfl
    · rfl
    · intro r _
      show (Function.update s.inode x.inode _ r).openCnt = _ ∧
        (Function.update s.inode x.inode _ r).sector = _
      by_cases heq : r = x.inode
      · rw [heq, Function.update_self]
        exact ⟨rfl, rfl⟩
      · rw [Function.update_of_ne heq]
        exact ⟨rfl, rfl⟩
    · intro r hr
      show (Function.update s.inode x.inode _ r).denyWriteCnt = _
      have hcount := h.denied r hr
      rw [countP_erase_add hf, deniesOn_eq hx, hd, Bool.and_true] at hcount
      rw [Bool.and_false]
      by_cases heq : r = x.inode
      · rw [heq] at hcount ⊢
        rw [Function.update_self]
        show (s.inode x.inode).denyWriteCnt - 1 = _
        rw [hcount, beq_self_eq_true]
        simp
      · rw [Function.update_of_ne heq]
        rw [beq_false_of_ne (Ne.symm heq)] at hcount
        exact hcount

/-- An open file is closed, with its permission given back first. -/
theorem Balanced.of_fileClose (h : Balanced s l extra) (hf : f ∈ l)
    (hx : fileClose f s = .ok s') : Balanced s' (l.erase f) extra ∧ DiskKept s s' ∧
      s'.file = Function.update s.file f none ∧ s'.nextFile = s.nextFile ∧
      s'.freeMapFile = s.freeMapFile := by
  obtain ⟨x, hx₀⟩ := h.file_of_mem hf
  unfold fileClose at hx
  rw [getFile_eq_ok.mpr hx₀, bind_ok] at hx
  obtain ⟨s₁, h₁, hb₁, hd₁, hfile₁, hnext₁, hmap₁⟩ := fileAllowWrite_ok h hf hx₀
  rw [h₁, bind_ok] at hx
  obtain ⟨s₂, h₂, hx⟩ := bind_eq_ok.mp hx
  have hx₁ : s₁.file f = some { x with denyWrite := false } := by
    rw [hfile₁, Function.update_self]
  have hk := inodeClose_kept h₂
  have hout := h.not_mem_erase (f := f)
  cases hx
  refine ⟨?_, (hd₁.trans hk.toDiskKept).trans (.of_eq rfl rfl), ?_, hk.nextFile.trans hnext₁, hk.freeMapFile.trans hmap₁⟩
  · constructor
    case nodup => exact h.nodup.sublist List.erase_sublist
    case opened =>
      intro f'
      rw [List.Nodup.mem_erase_iff h.nodup]
      by_cases heq : f' = f
      · rw [heq, setFile_file_self]
        exact ⟨fun hm => absurd rfl hm.1, fun hm => absurd hm Bool.false_ne_true⟩
      · rw [setFile_file_of_ne heq, hk.file, ← hb₁.opened]
        exact ⟨fun hm => hm.2, fun hm => ⟨heq, hm⟩⟩
    case below =>
      intro f' hf'
      show f' < s₂.nextFile
      rw [hk.nextFile]
      exact hb₁.below f' (List.mem_of_mem_erase hf')
    case counted =>
      rw [inodesOf_setFile hout, hk.inodesOf]
      have hperm : (extra ++ s₁.inodesOf l).Perm
          (x.inode :: (extra ++ s₁.inodesOf (l.erase f))) :=
        ((inodesOf_perm_erase hf hx₁).append_left extra).trans List.perm_middle
      have hclosed := (hb₁.counted.perm hperm).of_inodeClose (List.mem_cons_self ..) h₂
      rw [List.erase_cons_head] at hclosed
      exact hclosed.of_same rfl rfl fun _ _ => ⟨rfl, rfl⟩
    case denied =>
      intro r hr
      show (s₂.inode r).denyWriteCnt = _
      rw [inodeClose_denyWriteCnt h₂, hb₁.denied r (openInodes_of_inodeClose h₂ hr),
        countP_setFile hout, hk.deniesOn, countP_erase_add hf, deniesOn_eq hx₁, Bool.and_false]
      rfl
  · show Function.update s₂.file f none = _
    rw [hk.file, hfile₁, Function.update_idem]

/-- A file gets a reference to its inode that was out already. -/
theorem Balanced.of_newFile (h : Balanced s l (r :: extra)) :
    Balanced { s.setFile s.nextFile (some { inode := r, pos := 0, denyWrite := false })
      with nextFile := s.nextFile + 1 } (s.nextFile :: l) extra := by
  have hfresh : s.nextFile ∉ l := fun hm => Nat.lt_irrefl _ (h.below _ hm)
  constructor
  case nodup => exact List.nodup_cons.mpr ⟨hfresh, h.nodup⟩
  case opened =>
    intro f'
    show f' ∈ s.nextFile :: l ↔ ((s.setFile s.nextFile _).file f').isSome = true
    rw [List.mem_cons]
    by_cases heq : f' = s.nextFile
    · rw [heq, setFile_file_self]
      exact ⟨fun _ => rfl, fun _ => .inl rfl⟩
    · rw [setFile_file_of_ne heq, ← h.opened]
      exact ⟨fun hm => hm.resolve_left heq, .inr⟩
  case below =>
    intro f' hf'
    show f' < s.nextFile + 1
    rcases List.mem_cons.mp hf' with rfl | hf'
    · exact Nat.lt_succ_self _
    · exact Nat.lt_succ_of_lt (h.below f' hf')
  case counted =>
    show Counted _ (extra ++ (s.setFile s.nextFile
      (some { inode := r, pos := 0, denyWrite := false })).inodesOf (s.nextFile :: l))
    rw [inodesOf_cons setFile_file_self, inodesOf_setFile hfresh]
    exact (h.counted.perm List.perm_middle.symm).of_same rfl rfl fun _ _ => ⟨rfl, rfl⟩
  case denied =>
    intro r' hr'
    show (s.inode r').denyWriteCnt = ((s.nextFile :: l).countP ((s.setFile s.nextFile
      (some { inode := r, pos := 0, denyWrite := false })).deniesOn r') : Nat)
    rw [List.countP_cons, countP_setFile hfresh, deniesOn_eq setFile_file_self, Bool.and_false]
    exact h.denied r' hr'

/-- A new `struct file` is the one difference. -/
structure Opened (s s' : Files) (f : FileRef) (r : InodeRef) : Prop extends DiskKept s s' where
  fresh : f = s.nextFile
  file : s'.file = Function.update s.file f (some { inode := r, pos := 0, denyWrite := false })
  nextFile : s'.nextFile = s.nextFile + 1
  freeMapFile : s'.freeMapFile = s.freeMapFile

/-- A file opened after a step that keeps the others is opened by the two together. -/
theorem Opened.of_kept (h : Kept s s₁) (h' : Opened s₁ s' f r) : Opened s s' f r :=
  ⟨h.toDiskKept.trans h'.toDiskKept, h'.fresh.trans h.nextFile, h.file ▸ h'.file,
    h.nextFile ▸ h'.nextFile, h'.freeMapFile.trans h.freeMapFile⟩

/-- `file_open` hands the opener over to the new file, or closes the inode. -/
theorem Balanced.of_fileOpen {o : Option InodeRef} {alloc : Bool} {res : Option FileRef}
    (h : Balanced s l (o.toList ++ extra)) (hx : fileOpen o alloc s = .ok (res, s')) :
    match res with
    | some f => Balanced s' (f :: l) extra ∧ ∃ r, o = some r ∧ Opened s s' f r
    | none => Balanced s' l extra ∧ Kept s s' := by
  cases o with
  | none =>
    cases hx
    exact ⟨h, .refl s⟩
  | some r =>
    cases alloc with
    | true =>
      cases hx
      exact ⟨h.of_newFile, r, rfl, .of_eq rfl rfl, rfl, rfl, rfl, rfl⟩
    | false =>
      obtain ⟨s₁, h₁, hx⟩ := bind_eq_ok.mp hx
      cases hx
      exact h.of_inodeClose h₁

/-- `file_reopen` opens a second file on the inode, or nothing. -/
theorem Balanced.of_fileReopen {alloc : Bool} {res : Option FileRef} (h : Balanced s l extra)
    (hf : f ∈ l) (hx : fileReopen f alloc s = .ok (res, s')) :
    match res with
    | some f' => Balanced s' (f' :: l) extra ∧ ∃ r, Opened s s' f' r
    | none => Balanced s' l extra ∧ Kept s s' := by
  obtain ⟨x, hx₀⟩ := h.file_of_mem hf
  unfold fileReopen at hx
  rw [getFile_eq_ok.mpr hx₀, bind_ok] at hx
  obtain ⟨hb, hk⟩ := h.of_reopen (h.inode_open hf hx₀)
  have hopen := Balanced.of_fileOpen (o := some x.inode) hb hx
  cases res with
  | none => exact ⟨hopen.1, hk.trans hopen.2⟩
  | some f' =>
    obtain ⟨hb', r, -, hr⟩ := hopen
    exact ⟨hb', r, hr.of_kept hk⟩

/-- The position of one open file is the one difference. -/
structure Moved (s s' : Files) (f : FileRef) (x : File) (pos : Int) : Prop extends DiskKept s s' where
  opened : s.file f = some x
  file : s'.file = Function.update s.file f (some { x with pos := pos })
  nonneg : 0 ≤ x.pos → 0 ≤ pos

/-- A write is never answered with a negative number. -/
theorem inodeWriteAt_nonneg (r : InodeRef) (buffer : Nat → UInt8) (size offset : Int) (s : Files) :
    0 ≤ (inodeWriteAt r buffer size offset s).1 := by
  unfold inodeWriteAt
  split
  · exact Int.le_refl 0
  · exact Int.natCast_nonneg _

/-- `file_read` gives the bytes at the position and moves it behind them. -/
theorem fileRead_eq_ok {size : Int} {bytes : List UInt8} (h : Balanced s l extra) (hf : f ∈ l)
    (hx : fileRead f size s = .ok (bytes, s')) : Balanced s' l extra ∧
      ∃ x, Moved s s' f x (x.pos + bytes.length) ∧ bytes = inodeReadAt x.inode size x.pos s := by
  obtain ⟨x, hx₀⟩ := h.file_of_mem hf
  unfold fileRead at hx
  rw [getFile_eq_ok.mpr hx₀, bind_ok] at hx
  cases hx
  exact ⟨h.of_pos hf hx₀, x, ⟨.of_eq rfl rfl, hx₀, rfl, fun hpos =>
    Int.add_nonneg hpos (Int.natCast_nonneg _)⟩, rfl⟩

/-- `file_write` writes at the position and moves it behind what it has written. -/
theorem fileWrite_eq_ok {buffer : Nat → UInt8} {size written : Int} (h : Balanced s l extra)
    (hf : f ∈ l) (hx : fileWrite f buffer size s = .ok (written, s')) : Balanced s' l extra ∧
      ∃ x, Moved s s' f x (x.pos + written) ∧
        written = (inodeWriteAt x.inode buffer size x.pos s).1 ∧
        s'.device = (inodeWriteAt x.inode buffer size x.pos s).2.device := by
  obtain ⟨x, hx₀⟩ := h.file_of_mem hf
  unfold fileWrite at hx
  rw [getFile_eq_ok.mpr hx₀, bind_ok] at hx
  cases hx
  have hs := inodeWriteAt_same x.inode buffer size x.pos s
  have hx₁ : (inodeWriteAt x.inode buffer size x.pos s).2.file f = some x := by
    rw [hs.file]
    exact hx₀
  refine ⟨(h.of_same hs).of_pos hf hx₁, x, ⟨.of_eq hs.inode hs.nextInode, hx₀, ?_, fun hpos =>
    Int.add_nonneg hpos (inodeWriteAt_nonneg _ _ _ _ _)⟩, rfl, rfl⟩
  show Function.update (inodeWriteAt x.inode buffer size x.pos s).2.file f _ = _
  rw [hs.file]

/-- `file_seek` moves the position, and nothing else. -/
theorem fileSeek_eq_ok {pos : Int} (h : Balanced s l extra) (hf : f ∈ l)
    (hx : fileSeek f pos s = .ok s') : Balanced s' l extra ∧ ∃ x, Moved s s' f x pos := by
  obtain ⟨x, hx₀⟩ := h.file_of_mem hf
  unfold fileSeek at hx
  rw [getFile_eq_ok.mpr hx₀, bind_ok] at hx
  split at hx
  next hpos =>
    cases hx
    exact ⟨h.of_pos hf hx₀, x, .of_eq rfl rfl, hx₀, rfl, fun _ => hpos⟩
  next => cases hx

/-! ## The root directory -/

/-- The root directory is opened once more, or not at all. -/
theorem Balanced.of_dirOpenRoot {o : Option InodeRef} (h : Balanced s l extra)
    (hx : dirOpenRoot m s = .ok (o, s')) : Balanced s' l (o.toList ++ extra) ∧ Kept s s' := by
  unfold dirOpenRoot at hx
  split at hx
  next r s₁ h₁ =>
    obtain ⟨hb, hk⟩ := h.of_inodeOpen h₁
    split at hx
    · cases hx
      exact ⟨hb, hk⟩
    · obtain ⟨s₂, h₂, hx⟩ := bind_eq_ok.mp hx
      cases hx
      obtain ⟨hb₂, hk₂⟩ := hb.of_inodeClose h₂
      exact ⟨hb₂, hk.trans hk₂⟩
  next s₁ h₁ =>
    cases hx
    exact h.of_inodeOpen h₁

/-- A lookup leaves the inode it answers open. -/
theorem Balanced.of_dirLookup {dir : InodeRef} {name : List UInt8} {o : Option InodeRef}
    (h : Balanced s l extra) (hx : dirLookup dir name m s = (o, s')) :
    Balanced s' l (o.toList ++ extra) ∧ Kept s s' := by
  unfold dirLookup at hx
  split at hx
  · exact h.of_inodeOpen hx
  · cases hx
    exact ⟨h, .refl s⟩

/-- `removed` is not counted. -/
theorem Balanced.of_inodeRemove (h : Balanced s l extra) (r : InodeRef) :
    Balanced (inodeRemove r s) l extra ∧ Kept s (inodeRemove r s) := by
  have hsame : ∀ r', ((inodeRemove r s).inode r').openCnt = (s.inode r').openCnt ∧
      ((inodeRemove r s).inode r').sector = (s.inode r').sector ∧
      ((inodeRemove r s).inode r').denyWriteCnt = (s.inode r').denyWriteCnt := by
    intro r'
    show (Function.update s.inode r _ r').openCnt = _ ∧
      (Function.update s.inode r _ r').sector = _ ∧
      (Function.update s.inode r _ r').denyWriteCnt = _
    by_cases heq : r' = r
    · rw [heq, Function.update_self]
      exact ⟨rfl, rfl, rfl⟩
    · rw [Function.update_of_ne heq]
      exact ⟨rfl, rfl, rfl⟩
  refine ⟨⟨h.nodup, h.opened, h.below, ?_, fun r' hr' => ?_⟩, .of_update rfl rfl rfl rfl rfl,
    rfl, rfl, rfl⟩
  · exact h.counted.of_same rfl rfl fun r' _ => ⟨(hsame r').1, (hsame r').2.1⟩
  · rw [(hsame r').2.2]
    exact h.denied r' hr'

/-- Removing a name closes what it has opened. -/
theorem Balanced.of_dirRemove {dir : InodeRef} {name : List UInt8} {ok : Bool}
    (h : Balanced s l extra) (hx : dirRemove dir name m s = .ok (ok, s')) :
    Balanced s' l extra ∧ Kept s s' := by
  unfold dirRemove at hx
  split at hx
  · cases hx
    exact ⟨h, .refl s⟩
  next e ofs _ =>
    dsimp only at hx
    split at hx
    next s₁ h₁ =>
      cases hx
      exact h.of_inodeOpen h₁
    next r s₁ h₁ =>
      obtain ⟨hb₁, hk₁⟩ := h.of_inodeOpen h₁
      have hs := inodeWriteAt_same dir
        (fun j => ((inodeReadAt dir 20 ofs s).set 19 0).getD j 0) 20 ofs s₁
      have hb₂ := hb₁.of_same hs
      have hk₂ := hk₁.trans hs.kept
      split at hx
      · obtain ⟨s₃, h₃, hx⟩ := bind_eq_ok.mp hx
        cases hx
        obtain ⟨hb, hk⟩ := hb₂.of_inodeRemove r
        obtain ⟨hb', hk'⟩ := hb.of_inodeClose h₃
        exact ⟨hb', (hk₂.trans hk).trans hk'⟩
      · obtain ⟨s₃, h₃, hx⟩ := bind_eq_ok.mp hx
        cases hx
        obtain ⟨hb', hk'⟩ := hb₂.of_inodeClose h₃
        exact ⟨hb', hk₂.trans hk'⟩

/-! ## The file system -/

/-- Creation closes what it has opened. -/
theorem Balanced.of_filesysCreate {name : List UInt8} {size : Int} {ok : Bool}
    (h : Balanced s l extra) (hx : filesysCreate name size m s = .ok (ok, s')) :
    Balanced s' l extra ∧ Kept s s' := by
  unfold filesysCreate at hx
  obtain ⟨⟨o, s₁⟩, h₁, hx⟩ := bind_eq_ok.mp hx
  obtain ⟨hb₁, hk₁⟩ := h.of_dirOpenRoot h₁
  cases o with
  | none =>
    cases hx
    exact ⟨hb₁, hk₁⟩
  | some dir =>
    dsimp only at hx
    have hs₂ := freeMapAllocate_same 1 s₁
    split at hx
    next s₂ h₂ =>
      rw [h₂] at hs₂
      obtain ⟨s₃, h₃, hx⟩ := bind_eq_ok.mp hx
      cases hx
      obtain ⟨hb, hk⟩ := (hb₁.of_same hs₂).of_inodeClose h₃
      exact ⟨hb, (hk₁.trans hs₂.kept).trans hk⟩
    next sector s₂ h₂ =>
      rw [h₂] at hs₂
      obtain ⟨⟨created, s₃⟩, h₃, hx⟩ := bind_eq_ok.mp hx
      have hs₃ := hs₂.trans (inodeCreate_same h₃)
      have hs₄ : SameTables s₁ (if created then dirAdd dir name sector s₃ else (false, s₃)).2 := by
        split
        · exact hs₃.trans (dirAdd_same dir name sector s₃)
        · exact hs₃
      have hclose : ∀ s₅ s₆, SameTables s₁ s₅ → inodeClose (some dir) s₅ = .ok s₆ →
          Balanced s₆ l extra ∧ Kept s s₆ := by
        intro s₅ s₆ hs₅ h₆
        obtain ⟨hb, hk⟩ := (hb₁.of_same hs₅).of_inodeClose h₆
        exact ⟨hb, (hk₁.trans hs₅.kept).trans hk⟩
      dsimp only at hx
      generalize (if created then dirAdd dir name sector s₃ else (false, s₃)) = added at hx hs₄
      split at hx
      · obtain ⟨s₅, h₅, hx⟩ := bind_eq_ok.mp hx
        obtain ⟨s₆, h₆, hx⟩ := bind_eq_ok.mp hx
        cases hx
        exact hclose s₅ s' (hs₄.trans (freeMapRelease_same h₅)) h₆
      · rw [bind_ok] at hx
        obtain ⟨s₆, h₆, hx⟩ := bind_eq_ok.mp hx
        cases hx
        exact hclose added.2 s' hs₄ h₆

/-- If the process dies of the name its reference to the root directory stays out. -/
theorem Balanced.of_filesysCreateFatal {size : Int} {died : Bool} (h : Balanced s l extra)
    (hx : filesysCreateFatal size m s = .ok (died, s')) :
    (∃ extra', Balanced s' l extra') ∧ Kept s s' := by
  unfold filesysCreateFatal at hx
  obtain ⟨⟨o, s₁⟩, h₁, hx⟩ := bind_eq_ok.mp hx
  obtain ⟨hb₁, hk₁⟩ := h.of_dirOpenRoot h₁
  cases o with
  | none =>
    cases hx
    exact ⟨⟨_, hb₁⟩, hk₁⟩
  | some dir =>
    have hclose : ∀ s₅ s₆, SameTables s₁ s₅ → inodeClose (some dir) s₅ = .ok s₆ →
        (∃ extra', Balanced s₆ l extra') ∧ Kept s s₆ := by
      intro s₅ s₆ hs₅ h₆
      obtain ⟨hb, hk⟩ := (hb₁.of_same hs₅).of_inodeClose h₆
      exact ⟨⟨_, hb⟩, (hk₁.trans hs₅.kept).trans hk⟩
    dsimp only at hx
    have hs₂ := freeMapAllocate_same 1 s₁
    split at hx
    next s₂ h₂ =>
      rw [h₂] at hs₂
      obtain ⟨s₃, h₃, hx⟩ := bind_eq_ok.mp hx
      cases hx
      exact hclose s₂ s' hs₂ h₃
    next sector s₂ h₂ =>
      rw [h₂] at hs₂
      obtain ⟨⟨created, s₃⟩, h₃, hx⟩ := bind_eq_ok.mp hx
      have hs₃ := hs₂.trans (inodeCreate_same h₃)
      dsimp only at hx
      split at hx
      · cases hx
        exact ⟨⟨_, hb₁.of_same hs₃⟩, hk₁.trans hs₃.kept⟩
      · split at hx
        · obtain ⟨s₅, h₅, hx⟩ := bind_eq_ok.mp hx
          obtain ⟨s₆, h₆, hx⟩ := bind_eq_ok.mp hx
          cases hx
          exact hclose s₅ s' (hs₃.trans (freeMapRelease_same h₅)) h₆
        · rw [bind_ok] at hx
          obtain ⟨s₆, h₆, hx⟩ := bind_eq_ok.mp hx
          cases hx
          exact hclose s₃ s' hs₃ h₆

/-- The balance survives `filesys_remove`. -/
theorem Balanced.of_filesysRemove {name : List UInt8} {ok : Bool} (h : Balanced s l extra)
    (hx : filesysRemove name m s = .ok (ok, s')) : Balanced s' l extra ∧ Kept s s' := by
  unfold filesysRemove at hx
  obtain ⟨⟨o, s₁⟩, h₁, hx⟩ := bind_eq_ok.mp hx
  obtain ⟨hb₁, hk₁⟩ := h.of_dirOpenRoot h₁
  cases o with
  | none =>
    cases hx
    exact ⟨hb₁, hk₁⟩
  | some dir =>
    obtain ⟨⟨success, s₂⟩, h₂, hx⟩ := bind_eq_ok.mp hx
    obtain ⟨hb₂, hk₂⟩ := hb₁.of_dirRemove h₂
    obtain ⟨s₃, h₃, hx⟩ := bind_eq_ok.mp hx
    cases hx
    obtain ⟨hb₃, hk₃⟩ := hb₂.of_inodeClose h₃
    exact ⟨hb₃, (hk₁.trans hk₂).trans hk₃⟩

/-- Opening by name leaves one opener, that of the new file. -/
theorem Balanced.of_filesysOpen {name : List UInt8} {res : Option FileRef}
    (h : Balanced s l extra) (hx : filesysOpen name m s = .ok (res, s')) :
    match res with
    | some f => Balanced s' (f :: l) extra ∧ ∃ r, Opened s s' f r
    | none => Balanced s' l extra ∧ Kept s s' := by
  unfold filesysOpen at hx
  obtain ⟨⟨o, s₁⟩, h₁, hx⟩ := bind_eq_ok.mp hx
  obtain ⟨hb₁, hk₁⟩ := h.of_dirOpenRoot h₁
  cases o with
  | none =>
    cases hx
    exact ⟨hb₁, hk₁⟩
  | some dir =>
    cases h₂ : dirLookup dir name m s₁ with
    | mk o₂ s₂ =>
      dsimp only at hx
      rw [h₂] at hx
      obtain ⟨hb₂, hk₂⟩ := hb₁.of_dirLookup h₂
      obtain ⟨s₃, h₃, hx⟩ := bind_eq_ok.mp hx
      have hperm : (o₂.toList ++ ([dir] ++ extra)).Perm (dir :: (o₂.toList ++ extra)) :=
        List.perm_middle
      obtain ⟨hb₃, hk₃⟩ := (hb₂.perm hperm).of_inodeClose h₃
      have hopen := hb₃.of_fileOpen hx
      have hk := (hk₁.trans hk₂).trans hk₃
      cases res with
      | none => exact ⟨hopen.1, hk.trans hopen.2⟩
      | some f =>
        obtain ⟨hb, r, -, hr⟩ := hopen
        exact ⟨hb, r, hr.of_kept hk⟩

/-! ## Assertions

Closing an inode may fail on the free map, and creating one on a length that is negative. No other
assertion is met, of open files. -/

section Avoiding

variable {e : Assertion}

/-- A release can fail the assertion about the free map only. -/
theorem freeMapRelease_avoids (he : .freeMap ≠ e) (sector : SectorNo) (cnt : Nat) (s : Files) :
    Avoids e (freeMapRelease sector cnt s) :=
  .ite (fun _ => .of_ok) fun _ => .of_ne he

/-- `inode_close` has no assertion but that of the release in it. -/
theorem inodeClose_avoids (he : .freeMap ≠ e) (o : Option InodeRef) (s : Files) :
    Avoids e (inodeClose o s) := by
  cases o with
  | none => exact .of_ok
  | some r =>
    apply Avoids.ite
    · intro _
      apply Avoids.ite
      · exact fun _ => .bind (freeMapRelease_avoids he _ _ _) fun _ _ =>
          freeMapRelease_avoids he _ _ _
      · exact fun _ => .of_ok
    · exact fun _ => .of_ok

theorem fileOpen_avoids (he : .freeMap ≠ e) (o : Option InodeRef) (alloc : Bool) (s : Files) :
    Avoids e (fileOpen o alloc s) := by
  unfold fileOpen
  split
  · exact .of_ok
  · exact .bind (inodeClose_avoids he _ _) fun _ _ => .of_ok

theorem dirOpenRoot_avoids (he : .freeMap ≠ e) (m : Mallocs) (s : Files) :
    Avoids e (dirOpenRoot m s) := by
  unfold dirOpenRoot
  split
  · apply Avoids.ite
    · exact fun _ => .of_ok
    · exact fun _ => .bind (inodeClose_avoids he _ _) fun _ _ => .of_ok
  · exact .of_ok

theorem dirRemove_avoids (he : .freeMap ≠ e) (dir : InodeRef) (name : List UInt8) (m : Mallocs)
    (s : Files) : Avoids e (dirRemove dir name m s) := by
  unfold dirRemove
  split
  · exact .of_ok
  · dsimp only
    split
    · exact .of_ok
    · apply Avoids.ite
      · exact fun _ => .bind (inodeClose_avoids he _ _) fun _ _ => .of_ok
      · exact fun _ => .bind (inodeClose_avoids he _ _) fun _ _ => .of_ok

theorem filesysOpen_avoids (he : .freeMap ≠ e) (name : List UInt8) (m : Mallocs) (s : Files) :
    Avoids e (filesysOpen name m s) := by
  apply Avoids.bind (dirOpenRoot_avoids he m s)
  rintro ⟨_ | dir, s₁⟩ _
  · exact fileOpen_avoids he _ _ _
  · exact .bind (inodeClose_avoids he _ _) fun _ _ => fileOpen_avoids he _ _ _

theorem filesysRemove_avoids (he : .freeMap ≠ e) (name : List UInt8) (m : Mallocs) (s : Files) :
    Avoids e (filesysRemove name m s) := by
  apply Avoids.bind (dirOpenRoot_avoids he m s)
  rintro ⟨_ | dir, s₁⟩ _
  · exact .of_ok
  · apply Avoids.bind (dirRemove_avoids he _ _ _ _)
    exact fun _ _ => .bind (inodeClose_avoids he _ _) fun _ _ => .of_ok

/-- `inode_create` asserts that the length is not negative, and no more. -/
theorem inodeCreate_avoids (he : .length ≠ e) (sector : SectorNo) (length : Int) (s : Files) :
    Avoids e (inodeCreate sector length s) := by
  apply Avoids.ite
  · exact fun _ => .of_ne he
  · intro _
    dsimp only
    split
    · exact .of_ok
    · exact .of_ok

/-- `filesys_create` can fail one of these two assertions. -/
theorem filesysCreate_avoids (he : .freeMap ≠ e) (he' : .length ≠ e) (name : List UInt8)
    (size : Int) (m : Mallocs) (s : Files) : Avoids e (filesysCreate name size m s) := by
  apply Avoids.bind (dirOpenRoot_avoids he m s)
  rintro ⟨_ | dir, s₁⟩ _
  · exact .of_ok
  · dsimp only
    split
    · exact .bind (inodeClose_avoids he _ _) fun _ _ => .of_ok
    · apply Avoids.bind (inodeCreate_avoids he' _ _ _)
      rintro ⟨created, s₃⟩ _
      dsimp only
      generalize (if created then dirAdd dir name _ s₃ else (false, s₃)) = added
      apply Avoids.ite
      · exact fun _ => .bind (freeMapRelease_avoids he _ _ _) fun _ _ =>
          .bind (inodeClose_avoids he _ _) fun _ _ => .of_ok
      · exact fun _ => .bind .of_ok fun _ _ => .bind (inodeClose_avoids he _ _) fun _ _ => .of_ok

/-- So can what it does before it comes to the name. -/
theorem filesysCreateFatal_avoids (he : .freeMap ≠ e) (he' : .length ≠ e) (size : Int)
    (m : Mallocs) (s : Files) : Avoids e (filesysCreateFatal size m s) := by
  apply Avoids.bind (dirOpenRoot_avoids he m s)
  rintro ⟨_ | dir, s₁⟩ _
  · exact .of_ok
  · dsimp only
    split
    · exact .bind (inodeClose_avoids he _ _) fun _ _ => .of_ok
    · apply Avoids.bind (inodeCreate_avoids he' _ _ _)
      rintro ⟨created, s₃⟩ _
      apply Avoids.ite
      · exact fun _ => .of_ok
      · intro _
        apply Avoids.ite
        · exact fun _ => .bind (freeMapRelease_avoids he _ _ _) fun _ _ =>
            .bind (inodeClose_avoids he _ _) fun _ _ => .of_ok
        · exact fun _ => .bind .of_ok fun _ _ => .bind (inodeClose_avoids he _ _) fun _ _ => .of_ok

/-- What comes after `getFile` is all that can fail, of an open file. -/
theorem getFile_avoids {α : Type} {g : File → Except Assertion α} (h : Balanced s l extra)
    (hf : f ∈ l) (hg : ∀ x, s.file f = some x → Avoids e (g x)) : Avoids e (s.getFile f >>= g) := by
  obtain ⟨x, hx⟩ := h.file_of_mem hf
  rw [getFile_eq_ok.mpr hx, bind_ok]
  exact hg x hx

/-- `file_seek` in a listed file can fail only for its position. -/
theorem fileSeek_avoids (he : .newPos ≠ e) (h : Balanced s l extra) (hf : f ∈ l) (pos : Int) :
    Avoids e (fileSeek f pos s) :=
  getFile_avoids h hf fun _ _ => .ite (fun _ => .of_ok) fun _ => .of_ne he

/-- `file_reopen` of a listed file can fail only in a release. -/
theorem fileReopen_avoids (he : .freeMap ≠ e) (h : Balanced s l extra) (hf : f ∈ l)
    (alloc : Bool) : Avoids e (fileReopen f alloc s) :=
  getFile_avoids h hf fun _ _ => fileOpen_avoids he _ _ _

/-- `file_close` of a listed file can fail only in a release. -/
theorem fileClose_avoids (he : .freeMap ≠ e) (h : Balanced s l extra) (hf : f ∈ l) :
    Avoids e (fileClose f s) := by
  apply getFile_avoids h hf
  intro x hx
  obtain ⟨s₁, h₁, -⟩ := fileAllowWrite_ok h hf hx
  rw [h₁, bind_ok]
  exact .bind (inodeClose_avoids he _ _) fun _ _ => .of_ok

end Avoiding

end Pintos.Filesys
