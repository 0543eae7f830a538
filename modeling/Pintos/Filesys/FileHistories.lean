import Pintos.Lib.Simulation
import Pintos.Filesys.DirectoryMap
import Pintos.Filesys.FileStore

/-!
# The file system is a store of files

Reading and writing, and with them all calls: the file system answers in any history as the store does
(`filesys_refines`).
-/

namespace Pintos.Filesys

open Pintos.Lib

variable {t : FileStore} {st : FsState} {s s' : Files} {f : FileRef} {r : InodeRef} {c : SectorNo}
  {cap : Nat} {x : File}

/-! ## The bytes -/

/-- A file holds as many bytes as its inode says. -/
theorem length_contents (device : SectorNo → Sector) (c : SectorNo) :
    (contents device c).length = (loaded device c).length.toNat := by
  unfold contents
  rw [List.length_map, List.length_range]

/-- Each is on its data sector. -/
theorem getElem_contents {device : SectorNo → Sector} {i : Nat} (hi : i < (contents device c).length) :
    (contents device c)[i] = byteAt (loaded device c) device i := by
  simp only [contents, List.getElem_map, List.getElem_range]

/-- What an open inode has. -/
structure OpenData (s : Files) (r : InodeRef) (b : List UInt8) : Prop where
  length : (s.inode r).length = b.length
  bytes : ∀ i (hi : i < b.length), byteAt (s.inode r) s.device i = b[i]

/-- Behind an open handle are the data of its file. -/
theorem HoldsStore.openData (h : HoldsStore cap st t) (hf : f ∈ st.files) (hx : st.fs.file f = some x) :
    OpenData st.fs x.inode (t.data (st.fs.handle x).file) := by
  obtain ⟨f₀, -, hs⟩ := h.sound.sound
  have hr := hs.balanced.inode_open (List.mem_cons_of_mem f₀ hf) hx
  obtain ⟨hstart, hlength⟩ := hs.agrees x.inode hr
  have hlive : (st.fs.inode x.inode).sector ∈ st.fs.live [] := .inr ⟨x.inode, hr, rfl⟩
  have hnonneg := hs.laid.length _ hlive
  rw [← h.data _ (FileStore.alive_of_handle (h.handle hf hx))]
  refine ⟨?_, fun i hi => ?_⟩
  · rw [length_contents, hlength]
    exact (Int.toNat_of_nonneg hnonneg).symm
  · rw [getElem_contents, byteAt_of_start hstart]
    rfl

/-- How far a read or a write goes. -/
theorem OpenData.reach {b : List UInt8} (h : OpenData s r b) (size pos : Int) :
    reach (s.inode r) size pos = (min size (b.length - pos)).toNat := by
  unfold Filesys.reach
  rw [h.length]
  omega

/-- Reading gives the bytes from the position on, up to the end. -/
theorem OpenData.read {b : List UInt8} {pos : Int} (h : OpenData s r b) (size : Int)
    (hpos : 0 ≤ pos) :
    inodeReadAt r size pos s = (b.drop pos.toNat).take (min size (b.length - pos)).toNat := by
  rw [inodeReadAt_eq hpos, h.reach, Int.toNat_natCast]
  refine List.ext_getElem ?_ fun i hi hi' => ?_
  · rw [List.length_map, List.length_range, List.length_take, List.length_drop]
    omega
  · rw [List.length_map, List.length_range] at hi
    have hpos' : pos + (i : Int) = ((pos.toNat + i : Nat) : Int) := by omega
    rw [List.getElem_map, List.getElem_range, List.getElem_take, List.getElem_drop, hpos',
      h.bytes (pos.toNat + i) (by omega)]

/-- `file_length` is the number of bytes of the file. -/
theorem HoldsStore.of_length (h : HoldsStore cap st t) (f : FileRef) :
    StepHolds cap (.length f) st t := by
  intro a st' hcall
  dsimp only [fsCall] at hcall
  split at hcall
  next hf =>
    obtain ⟨n, hx, hcall⟩ := bind_eq_ok.mp hcall
    cases hcall
    obtain ⟨x, hget, hx⟩ := bind_eq_ok.mp hx
    cases hx
    have hfile := getFile_eq_ok.mp hget
    rw [(h.openData hf hfile).length]
    exact ⟨t, .length (h.handle hf hfile), h⟩
  next => cases hcall

/-- `file_read` gives them, and moves the position behind. -/
theorem HoldsStore.of_read (h : HoldsStore cap st t) (f : FileRef) (size : Int32) :
    StepHolds cap (.read f size) st t := by
  intro a st' hcall
  have hs' := h.sound.of_fsCall hcall
  dsimp only [fsCall] at hcall
  split at hcall
  next hf =>
    obtain ⟨⟨b, s'⟩, hx, hcall⟩ := bind_eq_ok.mp hcall
    cases hcall
    obtain ⟨x, hget, hx⟩ := bind_eq_ok.mp hx
    have hfile := getFile_eq_ok.mp hget
    have hopen := h.openData hf hfile
    have hpos := h.sound.pos f x hfile
    have hread := hopen.read size.toInt hpos
    have hcount : (inodeReadAt x.inode size.toInt x.pos st.fs).length =
        t.extent (st.fs.handle x) size.toInt := by
      rw [inodeReadAt_eq hpos, List.length_map, List.length_range, hopen.reach, Int.toNat_natCast]
      rfl
    cases hx
    have hmoved := h.of_moved (y := { x with
      pos := x.pos + (inodeReadAt x.inode size.toInt x.pos st.fs).length }) hs' hf hfile rfl
      (.of_eq rfl rfl) rfl rfl
    refine ⟨t.advance f (st.fs.handle x) (t.extent (st.fs.handle x) size.toInt), ?_, ?_⟩
    · rw [hread]
      exact .read (h.handle hf hfile)
    · rw [hcount] at hmoved ⊢
      exact hmoved
  next => cases hcall

/-- `file_read_at` gives them, and moves nothing. -/
theorem HoldsStore.of_readAt (h : HoldsStore cap st t) (f : FileRef) (size : Int32)
    (fileOfs : Fin (2 ^ 31)) : StepHolds cap (.readAt f size fileOfs) st t := by
  intro a st' hcall
  dsimp only [fsCall] at hcall
  split at hcall
  next hf =>
    obtain ⟨b, hx, hcall⟩ := bind_eq_ok.mp hcall
    cases hcall
    obtain ⟨x, hget, hx⟩ := bind_eq_ok.mp hx
    cases hx
    have hfile := getFile_eq_ok.mp hget
    rw [(h.openData hf hfile).read size.toInt (Int.natCast_nonneg fileOfs), Int.toNat_natCast]
    exact ⟨t, .readAt (h.handle hf hfile), h⟩
  next => cases hcall

/-- The denials of an inode are those of the handles of its file. -/
theorem HoldsStore.denied (h : HoldsStore cap st t) (hf : f ∈ st.files) (hx : st.fs.file f = some x) :
    t.Denied (st.fs.handle x).file ↔ (st.fs.inode x.inode).denyWriteCnt ≠ 0 := by
  obtain ⟨f₀, hmap, hs⟩ := h.sound.sound
  have hmem := List.mem_cons_of_mem f₀ hf
  have hr := hs.balanced.inode_open hmem hx
  have hproper := hs.users f hmem (h.sound.not_map hf) x hx
  rw [hs.balanced.denied x.inode hr, Nat.cast_ne_zero, ← Nat.pos_iff_ne_zero, List.countP_pos_iff]
  unfold FileStore.Denied
  rw [← h.handles]
  constructor
  · rintro ⟨g, hd, hg, hfile, hdeny⟩
    obtain ⟨hgl, y, hy, rfl⟩ := FsState.handles_eq_some.mp hg
    have hgm := List.mem_cons_of_mem f₀ hgl
    have hsame := hs.balanced.counted.sectors _ (hs.balanced.inode_open hgm hy) _ hr hfile
    refine ⟨g, hgm, ?_⟩
    rw [deniesOn_eq hy, hsame, beq_self_eq_true, Bool.true_and]
    exact hdeny
  · rintro ⟨g, hgm, hg⟩
    obtain ⟨y, hy⟩ := hs.balanced.file_of_mem hgm
    rw [deniesOn_eq hy, Bool.and_eq_true, beq_iff_eq] at hg
    rcases List.mem_cons.mp hgm with rfl | hg'
    · -- the file of the free map has another inode
      obtain ⟨f', r, hf', hm⟩ := hs.mapFile
      rw [hm.freeMapFile] at hmap
      cases hmap
      rw [hm.file] at hy
      cases hy
      rw [← hg.1] at hproper
      exact absurd hm.sector hproper.1
    · exact ⟨g, _, FsState.handles_of_mem hg' hy, congrArg (fun r => (st.fs.inode r).sector) hg.1, hg.2⟩

/-- What an inode has after a write that is not denied. -/
theorem OpenData.written {b : List UInt8} {pos : Int} (h : OpenData s r b)
    (buffer : Nat → UInt8) (size : Int) (hdeny : (s.inode r).denyWriteCnt = 0) (hpos : 0 ≤ pos) :
    OpenData (inodeWriteAt r buffer size pos s).2 r
      (overwrite b pos.toNat (min size (b.length - pos)).toNat buffer) := by
  have hinode : (inodeWriteAt r buffer size pos s).2.inode = s.inode := by
    rw [inodeWriteAt_eq]
  refine ⟨by rw [hinode, length_overwrite, h.length], fun i hi => ?_⟩
  have hi' : i < b.length := by rwa [length_overwrite] at hi
  rw [hinode, inodeWriteAt_byteAt hdeny hpos (Int.natCast_nonneg i), h.reach, getElem_overwrite hi' hi,
    h.bytes i hi']
  have hiff : (pos ≤ (i : Int) ∧ (i : Int) < pos + ((min size (b.length - pos)).toNat : Int)) ↔
      (pos.toNat ≤ i ∧ i < pos.toNat + (min size (b.length - pos)).toNat) := by omega
  rw [if_congr hiff rfl rfl]
  have hindex : ((i : Int) - pos).toNat = i - pos.toNat := by omega
  rw [hindex]

/-- On disk they are the same. -/
theorem OpenData.contents_eq {b : List UInt8} (h : OpenData s r b) (ha : s.Agrees r) :
    contents s.device (s.inode r).sector = b := by
  obtain ⟨hstart, hlength⟩ := ha
  have hlen : (contents s.device (s.inode r).sector).length = b.length := by
    rw [length_contents, ← hlength, h.length, Int.toNat_natCast]
  refine List.ext_getElem hlen fun i hi hi' => ?_
  rw [getElem_contents, byteAt_of_start hstart.symm, h.bytes i hi']

/-- A call that changes what is in the file of a handle. -/
theorem HoldsStore.of_data {b : List UInt8} {pos : Int} (h : HoldsStore cap st t)
    (hs : FsSound { st with fs := s' }) (hf : f ∈ st.files) (hm : Moved st.fs s' f x pos)
    (hd : DataOnly st.fs.device s'.device (st.fs.inode x.inode).sector) (hb : OpenData s' x.inode b) :
    HoldsStore cap { st with fs := s' }
      { t.setHandle f (some { st.fs.handle x with pos := pos }) with
        data := Function.update t.data (st.fs.handle x).file b } := by
  obtain ⟨f₀, -, hs₀⟩ := h.sound.sound
  obtain ⟨f₁, -, hs₁⟩ := hs.sound
  have halive := FileStore.alive_of_handle (h.handle hf hm.opened)
  obtain ⟨hc, hmap, hroot⟩ := h.live halive
  have hr := hs₀.balanced.inode_open (List.mem_cons_of_mem f₀ hf) hm.opened
  have hsector := (hm.disk _ (hs₀.balanced.counted.below _ hr)).1
  have hopened : s'.file f = some { x with pos := pos } := by rw [hm.file, Function.update_self]
  have hr' := hs₁.balanced.inode_open (List.mem_cons_of_mem f₁ hf) hopened
  have hslots : rootSlots s'.device = rootSlots st.fs.device :=
    rootSlots_congr (hs₀.laid.inode_eq hc hd root_live) fun y hy =>
      hs₀.laid.data_eq hc hd root_live (Ne.symm hroot) hy
  have hhandle : s'.handle { x with pos := pos } = { st.fs.handle x with pos := pos } := by
    unfold Files.handle
    rw [hsector]
  refine ⟨hs, (congrArg List.length hslots).trans h.size, (congrArg dirView.map hslots).trans h.names,
    fun i hi => ?_, ?_⟩
  · have hi₀ : t.Alive i := FileStore.alive_setHandle (f := f)
      (o := some { st.fs.handle x with pos := pos }) (by rintro hd ⟨⟩; exact halive) hi
    dsimp only
    by_cases heq : i = (st.fs.handle x).file
    · rw [heq, Function.update_self]
      have hcontents := hb.contents_eq (hs₁.agrees x.inode hr')
      rw [hsector] at hcontents
      exact hcontents
    · rw [Function.update_of_ne heq, ← h.data i hi₀]
      obtain ⟨hlive, -⟩ := h.live hi₀
      exact contents_congr (hs₀.laid.inode_eq hc hd hlive) fun y hy =>
        hs₀.laid.data_eq hc hd hlive heq hy
  · rw [h.sound.handles_moved hm.toDiskKept hf hm.file, h.handles, hhandle]
    rfl

/-- `file_write` overwrites them as far as the file goes. -/
theorem HoldsStore.of_write (h : HoldsStore cap st t) (f : FileRef) (buffer : Nat → UInt8)
    (size : Int32) : StepHolds cap (.write f buffer size) st t := by
  intro a st' hcall
  have hs' := h.sound.of_fsCall hcall
  obtain ⟨f₀, -, hs⟩ := h.sound.sound
  dsimp only [fsCall] at hcall
  split at hcall
  next hf =>
    have hmem := List.mem_cons_of_mem f₀ hf
    obtain ⟨⟨n, s'⟩, hx, hcall⟩ := bind_eq_ok.mp hcall
    cases hcall
    obtain ⟨-, x, hmoved, hn, hdevice⟩ := fileWrite_eq_ok hs.balanced hmem hx
    have hfile := hmoved.opened
    have hpos := h.sound.pos f x hfile
    have hopen := h.openData hf hfile
    have hhandle := h.handle hf hfile
    have hdenied := h.denied hf hfile
    by_cases hdeny : (st.fs.inode x.inode).denyWriteCnt = 0
    · have hcount : n = t.extent (st.fs.handle x) size.toInt := by
        rw [hn, inodeWriteAt_count hdeny hpos, hopen.reach]
        rfl
      have hr := hs.balanced.inode_open hmem hfile
      have hd := hs.dataOnly_write hmem hfile hpos buffer size.toInt
      rw [← hdevice] at hd
      have hwritten := hopen.written buffer size.toInt hdeny hpos
      have hkept := hmoved.disk _ (hs.balanced.counted.below _ hr)
      have hb : OpenData s' x.inode (overwrite (t.data (st.fs.handle x).file) x.pos.toNat
          (t.extent (st.fs.handle x) size.toInt) buffer) := by
        refine ⟨?_, fun i hi => ?_⟩
        · rw [length_overwrite, hkept.2.2, hopen.length]
        · have hbyte := hwritten.bytes i hi
          rw [inodeWriteAt_eq] at hbyte
          rw [hdevice, byteAt_of_start hkept.2.1]
          exact hbyte
      have hstore := h.of_data hs' hf hmoved hd hb
      rw [hcount] at hstore ⊢
      exact ⟨_, .written hhandle fun hd => hdenied.mp hd hdeny, hstore⟩
    · rw [inodeWriteAt_denied hdeny] at hn hdevice
      have hsame := h.of_moved (y := { x with pos := x.pos + n }) hs' hf hfile hdevice
        hmoved.toDiskKept hmoved.file rfl
      have hkeep : t.setHandle f (some { st.fs.handle x with
          pos := x.pos + n, denyWrite := x.denyWrite }) = t := by
        rw [hn, Int.add_zero]
        unfold FileStore.setHandle
        exact congrArg (fun a => { t with handles := a }) (Function.update_eq_self_iff.mpr hhandle.symm)
      rw [hkeep] at hsame
      rw [hn]
      exact ⟨t, .notWritten hhandle (hdenied.mpr hdeny), hsame⟩
  next => cases hcall

/-- A write at an offset moves nothing. -/
theorem HoldsStore.of_writeAt (h : HoldsStore cap st t) (f : FileRef) (buffer : Nat → UInt8)
    (size : Int32) (fileOfs : Fin (2 ^ 31)) : StepHolds cap (.writeAt f buffer size fileOfs) st t := by
  intro a st' hcall
  have hs' := h.sound.of_fsCall hcall
  obtain ⟨f₀, -, hs⟩ := h.sound.sound
  dsimp only [fsCall] at hcall
  split at hcall
  next hf =>
    have hmem := List.mem_cons_of_mem f₀ hf
    obtain ⟨⟨n, s'⟩, hx, hcall⟩ := bind_eq_ok.mp hcall
    cases hcall
    obtain ⟨x, hget, hx⟩ := bind_eq_ok.mp hx
    have hfile := getFile_eq_ok.mp hget
    have hofs : (0 : Int) ≤ fileOfs := Int.natCast_nonneg fileOfs
    have hopen := h.openData hf hfile
    have hhandle := h.handle hf hfile
    have hdenied := h.denied hf hfile
    have hsame := inodeWriteAt_same x.inode buffer size.toInt fileOfs st.fs
    obtain ⟨rfl, rfl⟩ := Prod.ext_iff.mp (Except.ok.inj hx)
    by_cases hdeny : (st.fs.inode x.inode).denyWriteCnt = 0
    · have hcount : (inodeWriteAt x.inode buffer size.toInt fileOfs st.fs).1 =
          t.extent { st.fs.handle x with pos := fileOfs } size.toInt := by
        rw [inodeWriteAt_count hdeny hofs, hopen.reach]
        rfl
      have hmoved : Moved st.fs (inodeWriteAt x.inode buffer size.toInt fileOfs st.fs).2 f x x.pos := by
        refine ⟨.of_eq hsame.inode hsame.nextInode, hfile, ?_, id⟩
        rw [hsame.file]
        exact (Function.update_eq_self_iff.mpr hfile.symm).symm
      have hstore := h.of_data hs' hf hmoved (hs.dataOnly_write hmem hfile hofs buffer size.toInt)
        (hopen.written buffer size.toInt hdeny hofs)
      have hkeep : t.setHandle f (some { st.fs.handle x with pos := x.pos }) = t := by
        unfold FileStore.setHandle
        exact congrArg (fun a => { t with handles := a })
          (Function.update_eq_self_iff.mpr hhandle.symm)
      rw [hkeep, Int.toNat_natCast] at hstore
      rw [hcount]
      exact ⟨_, .writtenAt hhandle fun hd => hdenied.mp hd hdeny, hstore⟩
    · rw [inodeWriteAt_denied hdeny]
      exact ⟨t, .notWrittenAt hhandle (hdenied.mpr hdeny), h⟩
  next => cases hcall

/-- Every call does to the store what it says. -/
theorem HoldsStore.of_fsCall (h : HoldsStore cap st t) (op : FsOp) : StepHolds cap op st t := by
  cases op with
  | create name size m => exact h.of_create name size m
  | «open» name m => exact h.of_open name m
  | remove name m => exact h.of_remove name m
  | reopen f alloc => exact h.of_reopen f alloc
  | close f => exact h.of_close f
  | read f size => exact h.of_read f size
  | write f buffer size => exact h.of_write f buffer size
  | readAt f size fileOfs => exact h.of_readAt f size fileOfs
  | writeAt f buffer size fileOfs => exact h.of_writeAt f buffer size fileOfs
  | length f => exact h.of_length f
  | seek f newPos => exact h.of_seek f newPos
  | tell f => exact h.of_tell f
  | denyWrite f => exact h.of_denyWrite f
  | allowWrite f => exact h.of_allowWrite f

/-! ## Histories -/

/-- A file system that has just been formatted holds no file. -/
theorem holdsStore_formatted {size entryCnt : Nat} {junk : Nat → Bool} {device : SectorNo → Sector}
    (hsize : 2 ≤ size) (hsmall : size < 2 ^ 32)
    (hx : filesysFormat size junk entryCnt device = .ok s) :
    HoldsStore (dirCapacity entryCnt) { fs := s, files := [] } FileStore.empty := by
  obtain ⟨-, -, hunused⟩ := filesysFormat_sound hsize hsmall hx
  refine ⟨fsSound_formatted hsize hsmall hx, ?_, View.map_of_unused hunused, fun i hi => ?_, ?_⟩
  · unfold rootSlots dirCapacity
    rw [length_slots, filesysFormat_root hsize hsmall hx]
  · rcases hi with ⟨name, hname⟩ | ⟨f, h, hf, -⟩
    · have hnone : FileStore.empty.names.lookup name = none := Finmap.lookup_empty name
      rw [hname] at hnone
      cases hnone
    · cases hf
  · funext f
    exact if_neg List.not_mem_nil

/-- The file system is a store of files. Calls, in any order, are answered as those on the store are
that has the room there is on the device, and afterwards the names, the files and the handles are
those of the store. A call fails only for a file that the caller does not have, or for a negative
position or length. -/
theorem filesys_refines {size entryCnt : Nat} {junk : Nat → Bool} {device : SectorNo → Sector}
    (hsize : 2 ≤ size) (hsmall : size < 2 ^ 32)
    (hformat : filesysFormat size junk entryCnt device = .ok s) (ops : List FsOp) :
    (∀ answered st, answers fsCall ops { fs := s, files := [] } = .ok (answered, st) →
      ∃ t, AnswersBeside fsCall (fun st => StoreStep (dirCapacity entryCnt) (HasRoom st.fs.freeMap))
        { fs := s, files := [] } .empty ops answered st t ∧ HoldsStore (dirCapacity entryCnt) st t) ∧
    ∀ e, answers fsCall ops { fs := s, files := [] } = .error e →
      e ∈ [.notEnabled, .newPos, .length] := by
  have hstart := holdsStore_formatted hsize hsmall hformat
  have hstep : ∀ st t op a st', HoldsStore (dirCapacity entryCnt) st t → fsCall op st = .ok (a, st') →
      ∃ t', StoreStep (dirCapacity entryCnt) (HasRoom st.fs.freeMap) t op a t' ∧
        HoldsStore (dirCapacity entryCnt) st' t' :=
    fun st t op a st' h hx => h.of_fsCall op a st' hx
  refine ⟨fun answered st hx => AnswersBeside.of_answers hstep hstart hx, fun e hx => ?_⟩
  by_contra hne
  refine answers_avoids
    (fun st t op a st' h hx => (hstep st t op a st' h hx).imp fun _ => And.right)
    (fun st t op h => ?_) hstart hx
  rcases h.sound.settles op with ⟨a, st', hcall, -, -⟩ | ⟨e', hcall, he'⟩
  · rw [hcall]
    exact .of_ok
  · rw [hcall]
    intro heq
    cases heq
    exact hne he'

/-- The file `a` of two bytes is written, at its position and at an offset, removed, and read while it
is still open. A file that is longer than the device is not created. -/
def sampleStoreCalls : List FsOp :=
  [.create nameA 5000 {}, .create nameA 2 {}, .open nameA {},
    .write 2 (fun i => UInt8.ofNat (i + 1)) 5,
    .writeAt 2 (fun i => UInt8.ofNat (i + 7)) 3 ⟨1, by decide⟩, .remove nameA {},
    .readAt 2 5 ⟨1, by decide⟩, .seek 2 0, .read 2 5, .open nameA {}, .close 2]

def sampleStoreAnswers : List FsAnswer :=
  [.success false, .success true, .file (some 2), .number 2, .number 1, .success true, .bytes [7],
    .done, .bytes [1, 7], .file none, .done]

/-- A file is made, written, read back and removed while it is open. -/
theorem filesys_refines_sample : ∃ s st, filesysFormat 8 (fun _ => false) 16 (fun _ _ => 0) = .ok s ∧
    answers fsCall sampleStoreCalls { fs := s, files := [] } = .ok (sampleStoreAnswers, st) ∧
    ∃ t, AnswersBeside fsCall (fun st => StoreStep (dirCapacity 16) (HasRoom st.fs.freeMap))
        { fs := s, files := [] } .empty sampleStoreCalls sampleStoreAnswers st t ∧
      HoldsStore (dirCapacity 16) st t := by
  have heval : (do
      let s ← filesysFormat 8 (fun _ => false) 16 (fun _ _ => 0)
      let (answered, _) ← answers fsCall sampleStoreCalls { fs := s, files := [] }
      .ok answered : Except Assertion _).toOption = some sampleStoreAnswers := by
    decide +kernel
  obtain ⟨s, hformat, hrun⟩ := bind_eq_ok.mp (eq_ok_of_toOption heval)
  obtain ⟨⟨answered, st⟩, hcalls, hrun⟩ := bind_eq_ok.mp hrun
  cases hrun
  exact ⟨s, st, hformat, hcalls,
    (filesys_refines (by decide) (by decide) hformat sampleStoreCalls).1 _ _ hcalls⟩

/-! ## When a file can be created -/

/-- After any history the file system holds some store. -/
theorem holdsStore_of_history {size entryCnt : Nat} {junk : Nat → Bool} {device : SectorNo → Sector}
    (hsize : 2 ≤ size) (hsmall : size < 2 ^ 32)
    (hformat : filesysFormat size junk entryCnt device = .ok s)
    (h : Reach (Steps fsStep) { fs := s, files := [] } st) :
    ∃ t, HoldsStore (dirCapacity entryCnt) st t := by
  refine h.invariant (P := fun st => ∃ t, HoldsStore (dirCapacity entryCnt) st t)
    ⟨_, holdsStore_formatted hsize hsmall hformat⟩ ?_
  rintro st op st' ⟨t, ht⟩ hstep
  unfold Steps fsStep at hstep
  cases hcall : fsCall op st with
  | error e =>
    rw [hcall] at hstep
    cases hstep
  | ok res =>
    rw [hcall] at hstep
    cases hstep
    obtain ⟨t', -, ht'⟩ := ht.of_fsCall op res.1 res.2 hcall
    exact ⟨t', ht'⟩

/-- Creation succeeds exactly when the root directory opens, there are sectors for the inode and, in a
row, for its data, the name has one to 14 bytes and is not in use, and there is an entry left. What
`inode_create` and the bounce buffers allocate is taken to be there. -/
theorem create_succeeds {size entryCnt : Nat} {junk : Nat → Bool} {device : SectorNo → Sector}
    (hsize : 2 ≤ size) (hsmall : size < 2 ^ 32)
    (hformat : filesysFormat size junk entryCnt device = .ok s)
    (h : Reach (Steps fsStep) { fs := s, files := [] } st) (name : CString) (initialSize : Int32)
    (m : Mallocs) :
    (∃ st', fsCall (.create name initialSize m) st = .ok (.success true, st')) ↔
      0 ≤ initialSize.toInt ∧ DirOpens m st.fs ∧ HasRoom st.fs.freeMap initialSize.toInt ∧
      ValidName name ∧ name.1 ∉ rootNames st.fs.device ∧
      (rootNames st.fs.device).keys.card < dirCapacity entryCnt := by
  obtain ⟨t, ht⟩ := holdsStore_of_history hsize hsmall hformat h
  obtain ⟨f₀, -, hs⟩ := ht.sound.sound
  have hanswer : (∃ st', fsCall (.create name initialSize m) st = .ok (.success true, st')) ↔
      ∃ s', filesysCreate name.1 initialSize.toInt m st.fs = .ok (true, s') := by
    dsimp only [fsCall]
    constructor
    · rintro ⟨st', hcall⟩
      obtain ⟨⟨ok, s'⟩, hx, hcall⟩ := bind_eq_ok.mp hcall
      cases hcall
      exact ⟨s', hx⟩
    · rintro ⟨s', hx⟩
      exact ⟨{ st with fs := s' }, by rw [hx, bind_ok]⟩
  have hadd : CanAdd (rootSlots st.fs.device) name.1 ↔ ValidName name ∧
      name.1 ∉ rootNames st.fs.device ∧ (rootNames st.fs.device).keys.card < dirCapacity entryCnt := by
    rw [ht.names]
    exact ht.canAdd_iff
  rw [hanswer, ← hadd]
  by_cases hnonneg : 0 ≤ initialSize.toInt
  · obtain ⟨ok, s', hx, -, -, -, -, hok, -⟩ :=
      hs.filesysCreate_grows m hnonneg initialSize.toInt_lt name.2
    rw [hx, and_iff_right hnonneg, ← hok]
    constructor
    · rintro ⟨s'', heq⟩
      cases heq
      rfl
    · rintro rfl
      exact ⟨s', rfl⟩
  · refine iff_of_false (fun hex => ?_) fun hex => hnonneg hex.1
    obtain ⟨s', hx⟩ := hex
    rcases hs.filesysCreate_negative (Int.not_le.mp hnonneg) name.1 m with
      hx' | ⟨s'', hx', -⟩
    · rw [hx] at hx'
      cases hx'
    · rw [hx] at hx'
      cases hx'

/-- After `sampleHistory` the file `a` is created again. -/
theorem create_succeeds_sample : ∃ s st, filesysFormat 8 (fun _ => false) 16 (fun _ _ => 0) = .ok s ∧
    Reach (Steps fsStep) { fs := s, files := [] } st ∧
    ∃ st', fsCall (.create nameA 1 {}) st = .ok (.success true, st') := by
  have heval : (do
      let s ← filesysFormat 8 (fun _ => false) 16 (fun _ _ => 0)
      .ok ((replay fsStep (fun _ _ => true) sampleHistory { fs := s, files := [] }).map fun st =>
        st.fs.freeMap == [true, true, true, true, false, false, false, false] &&
          (rootSlots st.fs.device).all fun e => !e.inUse) :
          Except Assertion (Option Bool)).toOption = some (some true) := by
    decide +kernel
  obtain ⟨s, hformat, hrun⟩ := bind_eq_ok.mp (eq_ok_of_toOption heval)
  have hrun := Except.ok.inj hrun
  obtain ⟨st, hst, hleft⟩ := exists_of_replay fsStep (fun _ _ => true) sampleHistory
    { fs := s, files := [] }
    (fun st => st.fs.freeMap == [true, true, true, true, false, false, false, false] &&
      (rootSlots st.fs.device).all fun e => !e.inUse) hrun
  obtain ⟨hmap, hslots⟩ := Bool.and_eq_true_iff.mp hleft
  have hnames : rootNames st.fs.device = ∅ :=
    View.map_of_unused fun e he => Bool.not_eq_true' _ ▸ List.all_eq_true.mp hslots e he
  have hroom : HasRoom st.fs.freeMap 1 := by
    rw [beq_iff_eq.mp hmap]
    exact ⟨4, by decide, by decide⟩
  refine ⟨s, st, hformat, hst.reach,
    (create_succeeds (by decide) (by decide) hformat hst.reach nameA 1 {}).mpr
      ⟨by decide, dirOpens_of_mallocs _, hroom, ⟨List.cons_ne_nil _ _, by decide⟩, ?_, ?_⟩⟩
  · rw [hnames]
    exact Finmap.notMem_empty
  · rw [hnames]
    decide

end Pintos.Filesys
