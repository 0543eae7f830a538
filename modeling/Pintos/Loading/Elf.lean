import Pintos.Loading.SetupStack
import Pintos.Filesys.Contents
import Pintos.Filesys.File

/-!
# Loadable segments

`validate_segment` and `load_segment`, and what `load` asks `load_segment` for. The arithmetic is that
of `uint32_t`. The file is its bytes and a position; `ExecFile.Opened` connects it with the file
system.
-/

namespace Pintos.Loading

open Pintos.Lib Pintos.Vm

/-! ## The file -/

/-- An executable that is open. -/
structure ExecFile where
  bytes : List UInt8
  /-- The length is an `off_t`. -/
  short : bytes.length < 2 ^ 31
  pos : Nat

/-- `file_seek`. -/
def fileSeek (newPos : Int) (file : ExecFile) : Except Stop ExecFile :=
  if 0 ≤ newPos then .ok { file with pos := newPos.toNat } else .error .panic

/-- `file_read`: the bytes read. -/
def fileRead (size : Nat) (file : ExecFile) : List UInt8 × ExecFile :=
  let bytes := slice file.bytes file.pos size
  (bytes, { file with pos := file.pos + bytes.length })

/-- The bytes of an inode. -/
def contents (ino : Filesys.Inode) (device : Filesys.SectorNo → Filesys.Sector) : List UInt8 :=
  (List.range ino.length.toNat).map fun j : Nat => Filesys.byteAt ino device j

/-- The file is a `struct file` of the file system. -/
structure ExecFile.Opened (file : ExecFile) (s : Filesys.Files) (f : Filesys.FileRef) : Prop where
  opened : ∃ x, s.file f = some x ∧ x.pos = file.pos ∧ 0 ≤ (s.inode x.inode).length ∧
    file.bytes = contents (s.inode x.inode) s.device

theorem slice_contents (r : Filesys.InodeRef) (s : Filesys.Files) (size pos : Nat)
    (hlen : 0 ≤ (s.inode r).length) : Filesys.inodeReadAt r size pos s =
      slice (contents (s.inode r) s.device) pos size := by
  rw [Filesys.inodeReadAt_eq (by omega)]
  unfold slice contents Filesys.reach
  apply List.ext_getElem
  · simp only [List.length_map, List.length_range, List.length_take, List.length_drop]
    omega
  · intro i _ _
    simp

variable {file file' : ExecFile} {s : Filesys.Files} {f : Filesys.FileRef}

theorem ExecFile.Opened.read (h : file.Opened s f) (size : Nat) :
    ∃ s', Filesys.fileRead f size s = .ok ((fileRead size file).1, s') ∧
      (fileRead size file).2.Opened s' f := by
  obtain ⟨x, hx, hpos, hlen, hbytes⟩ := h
  have hread : Filesys.inodeReadAt x.inode size x.pos s = slice file.bytes file.pos size := by
    rw [hpos, hbytes, slice_contents _ _ _ _ hlen]
  refine ⟨s.setFile f (some { x with pos := x.pos + (slice file.bytes file.pos size).length }), ?_,
    ⟨_, Function.update_self _ _ _, ?_, hlen, hbytes⟩⟩
  · simp only [Filesys.fileRead, Filesys.Files.getFile, hx, bind_ok, hread]
    rfl
  · rw [hpos]
    rfl

theorem ExecFile.Opened.seek (h : file.Opened s f) {newPos : Int}
    (hseek : fileSeek newPos file = .ok file') :
    ∃ s', Filesys.fileSeek f newPos s = .ok s' ∧ file'.Opened s' f := by
  obtain ⟨x, hx, _, hlen, hbytes⟩ := h
  unfold fileSeek at hseek
  split at hseek
  next hnew =>
    cases hseek
    refine ⟨s.setFile f (some { x with pos := newPos }), ?_,
      ⟨_, Function.update_self _ _ _, (Int.toNat_of_nonneg hnew).symm, hlen, hbytes⟩⟩
    simp only [Filesys.fileSeek, Filesys.Files.getFile, hx, bind_ok, hnew, if_true]
  next => cases hseek

theorem ExecFile.Opened.length (h : file.Opened s f) :
    Filesys.fileLength f s = .ok (file.bytes.length : Int) := by
  obtain ⟨x, hx, _, hlen, hbytes⟩ := h
  have hbytesLen : file.bytes.length = (s.inode x.inode).length.toNat := by
    rw [hbytes, contents, List.length_map, List.length_range]
  rw [hbytesLen, Int.toNat_of_nonneg hlen]
  simp only [Filesys.fileLength, Filesys.Files.getFile, hx, bind_ok]

/-- A `uint32_t` as an `off_t`. -/
def offT (x : UInt32) : Int := Int.bmod x.toNat (2 ^ 32)

/-! ## Headers -/

/-- `PGSIZE`. -/
def pgSize : UInt32 := 4096

/-- `PGMASK`. -/
def pgMask : UInt32 := 0xfff

/-- `ROUND_UP`. -/
def roundUp (x step : UInt32) : UInt32 := (x + step - 1) / step * step

def isUserVaddr (a : UInt32) : Bool := a < 0xC0000000

/-- `struct Elf32_Phdr`, without `p_paddr` and `p_align`. -/
structure Phdr where
  pType : UInt32
  pOffset : UInt32
  pVaddr : UInt32
  pFilesz : UInt32
  pMemsz : UInt32
  pFlags : UInt32
  deriving DecidableEq, Repr

/-- `PF_W`. -/
def pfW : UInt32 := 2

/-- `validate_segment`. -/
def validateSegment (phdr : Phdr) (file : ExecFile) : Bool :=
  if phdr.pOffset &&& pgMask ≠ phdr.pVaddr &&& pgMask then false
  else if UInt32.ofNat file.bytes.length < phdr.pOffset then false
  else if phdr.pMemsz < phdr.pFilesz then false
  else if phdr.pMemsz = 0 then false
  else if !isUserVaddr phdr.pVaddr then false
  else if !isUserVaddr (phdr.pVaddr + phdr.pMemsz) then false
  else if phdr.pVaddr + phdr.pMemsz < phdr.pVaddr then false
  else if phdr.pVaddr < pgSize then false
  else true

/-- What `load` calls `load_segment` with. -/
structure Segment where
  filePage : UInt32
  memPage : UInt32
  readBytes : UInt32
  zeroBytes : UInt32
  writable : Bool

/-- The `PT_LOAD` case of `load`. -/
def Phdr.segment (phdr : Phdr) : Segment :=
  let pageOffset := phdr.pVaddr &&& pgMask
  let readBytes := if 0 < phdr.pFilesz then pageOffset + phdr.pFilesz else 0
  let zeroBytes :=
    if 0 < phdr.pFilesz then roundUp (pageOffset + phdr.pMemsz) pgSize - readBytes
    else roundUp (pageOffset + phdr.pMemsz) pgSize
  { filePage := phdr.pOffset &&& ~~~pgMask
    memPage := phdr.pVaddr &&& ~~~pgMask
    readBytes := readBytes
    zeroBytes := zeroBytes
    writable := phdr.pFlags &&& pfW ≠ 0 }

/-! ## Loading -/

/-- What `load_segment` gets from the rest of the kernel, page by page. -/
structure SegmentEnv where
  page : UPage → Grant
  /-- What the page has in it. -/
  kpage : UPage → Content
  /-- `pagedir_set_page` has, or gets, a page table. -/
  table : UPage → Bool

/-- A page with bytes put in from `ofs` on. -/
def putBytes (c : Content) (ofs : Nat) (bytes : List UInt8) : Content := fun i =>
  if ofs ≤ i then bytes.getD (i - ofs) (c i) else c i

/-- `install_page`. -/
def installPage (table : Bool) (upage : UInt32) (pg : UserPage) (m : UserSpace) :
    Except Stop (Bool × UserSpace) :=
  if !isUserVaddr upage then .error .panic
  else if (m (upage.toNat / 4096)).isSome then .ok (false, m)
  else if upage &&& pgMask ≠ 0 then .error .panic
  else if table then .ok (true, Function.update m (upage.toNat / 4096) (some pg))
  else .ok (false, m)

/-- The loop of `load_segment`, for `n` pages; `loadPages_loaded` is that they are enough. -/
def loadPages (env : SegmentEnv) (writable : Bool) : Nat → ExecFile → UInt32 → UInt32 → UInt32 →
    UserSpace → Except Stop (Bool × ExecFile × UserSpace)
  | n, file, upage, readBytes, zeroBytes, m =>
    if 0 < readBytes ∨ 0 < zeroBytes then
      match n with
      | 0 => .error .panic
      | n + 1 =>
        let pageReadBytes := if readBytes < pgSize then readBytes else pgSize
        let pageZeroBytes := pgSize - pageReadBytes
        let u := upage.toNat / 4096
        match env.page u with
        | .notEvicted | .stillNone => .ok (false, file, m)
        | .granted =>
          let (bytes, file) := fileRead pageReadBytes.toNat file
          if bytes.length ≠ pageReadBytes.toNat then .ok (false, file, m)
          else do
            let content := putBytes (putBytes (env.kpage u) 0 bytes) pageReadBytes.toNat
              (List.replicate pageZeroBytes.toNat 0)
            let (ok, m) ← installPage (env.table u) upage ⟨content, writable⟩ m
            if ok then
              loadPages env writable n file (upage + pgSize) (readBytes - pageReadBytes)
                (zeroBytes - pageZeroBytes) m
            else .ok (false, file, m)
    else .ok (true, file, m)

/-- The assertions of `load_segment`. -/
def segmentAsserts (ofs : Int) (upage readBytes zeroBytes : UInt32) : Bool :=
  (readBytes + zeroBytes) % pgSize == 0 && upage &&& pgMask == 0 && ofs.tmod 4096 == 0

/-- `load_segment`. -/
def loadSegment (env : SegmentEnv) (file : ExecFile) (ofs : Int) (upage readBytes zeroBytes : UInt32)
    (writable : Bool) (m : UserSpace) : Except Stop (Bool × ExecFile × UserSpace) :=
  if segmentAsserts ofs upage readBytes zeroBytes then do
    let file ← fileSeek ofs file
    loadPages env writable ((readBytes.toNat + zeroBytes.toNat) / 4096) file upage readBytes
      zeroBytes m
  else .error .panic

/-- `load_segment`, as `load` calls it. -/
def loadPhdr (env : SegmentEnv) (file : ExecFile) (phdr : Phdr) (m : UserSpace) :
    Except Stop (Bool × ExecFile × UserSpace) :=
  loadSegment env file (offT phdr.segment.filePage) phdr.segment.memPage phdr.segment.readBytes
    phdr.segment.zeroBytes phdr.segment.writable m

end Pintos.Loading
