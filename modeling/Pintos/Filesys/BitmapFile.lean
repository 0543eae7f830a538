import Mathlib.Data.List.Find
import Pintos.Filesys.ByteArray
import Pintos.Filesys.FreeMap
import Pintos.Kernel.BitmapArray

/-!
# Bitmaps in files

`bitmap_read` and `bitmap_write` of `lib/kernel/bitmap.c`, through the bounce buffers of the inode.
What has been written whole and is read whole is the same array (`bitmapRead_bitmapWrite`). With that
a bitmap is an array of Booleans (`bitmap_refines_array`), and the free map is one of them: it is
scanned, filled and written as a bitmap is (`bitmapScan_eq_scan`, `setMultiple_eq_fill`,
`freeMap_bitmapWrite`).
-/

namespace Pintos.Kernel

open Pintos.Lib Pintos.Filesys

variable {b b₁ b₂ : Bitmap} {xs ys : List Bool} {file : File} {alloc : Bool} {s s' : Files}

/-! ## The code -/

/-- `file_read_at`; `alloc` says whether `malloc` gives a bounce buffer. -/
def fileReadAt (file : File) (buffer : Nat → UInt8) (size fileOfs : Int) (alloc : Bool) (s : Files) :
    Nat × (Nat → UInt8) := Bounce.inodeReadAt file.inode buffer size fileOfs alloc s

/-- `file_write_at`. -/
def fileWriteAt (file : File) (buffer : Nat → UInt8) (size fileOfs : Int) (alloc : Bool)
    (s : Files) : Int × Files := Bounce.inodeWriteAt file.inode buffer size fileOfs alloc s

/-- The bytes of words. -/
def bytesOf (ws : List UInt32) : Nat → UInt8 := fun j =>
  (wordBytes (ws.getD (j / 4) 0).toNat).getD (j % 4) 0

/-- The words that bytes make. -/
def wordsOf (buffer : Nat → UInt8) (cnt : Nat) : List UInt32 :=
  (List.range cnt).map fun i => UInt32.ofNat (Filesys.word buffer (4 * i))

/-- `bitmap_read`. -/
def bitmapRead (b : Bitmap) (file : File) (alloc : Bool) (s : Files) :
    Except BitmapFault (Bool × Bitmap) :=
  if b.bitCnt > 0 then do
    let size := byteCnt b.bitCnt
    let read := fileReadAt file (bytesOf b.bits) size 0 alloc s
    let b := { b with bits := wordsOf read.2 b.bits.length }
    let b ← b.update ((elemCnt b.bitCnt + (2 ^ 32 - 1)) % 2 ^ 32) (· &&& lastMask b)
    .ok (read.1 == size, b)
  else .ok (true, b)

/-- `bitmap_write`. -/
def bitmapWrite (b : Bitmap) (file : File) (alloc : Bool) (s : Files) : Bool × Files :=
  let size := byteCnt b.bitCnt
  let written := fileWriteAt file (bytesOf b.bits) size 0 alloc s
  (written.1 == size, written.2)

/-! ## Words and bytes -/

/-- The bytes of the file are those of the words in turn. -/
theorem bytesOf_add (ws : List UInt32) (i : Nat) {k : Nat} (hk : k < 4) :
    bytesOf ws (4 * i + k) = (wordBytes (ws.getD i 0).toNat).getD k 0 := by
  have hdiv : (4 * i + k) / 4 = i := by omega
  have hmod : (4 * i + k) % 4 = k := by omega
  unfold bytesOf
  rw [hdiv, hmod]

/-- Words are read back from their bytes. -/
theorem wordsOf_bytesOf {ws : List UInt32} {buffer : Nat → UInt8}
    (h : ∀ j < 4 * ws.length, buffer j = bytesOf ws j) : wordsOf buffer ws.length = ws := by
  apply List.ext_getElem
  · unfold wordsOf
    rw [List.length_map, List.length_range]
  · intro i hi hi'
    simp only [wordsOf, List.getElem_map, List.getElem_range]
    have hword : Filesys.word buffer (4 * i) = ws[i].toNat := by
      have hbytes : ∀ k < 4, buffer (4 * i + k) = (wordBytes ws[i].toNat).getD k 0 := by
        intro k hk
        rw [h _ (by omega), bytesOf_add ws i hk, List.getD_eq_getElem _ _ hi']
      have hlt := ws[i].toNat_lt
      have heq := word_wordBytes ws[i].toNat []
      rw [List.append_nil, Nat.mod_eq_of_lt hlt] at heq
      rw [← heq]
      unfold Filesys.word
      rw [← Nat.add_zero (4 * i), hbytes 0 (by decide), Nat.add_zero, hbytes 1 (by decide),
        hbytes 2 (by decide), hbytes 3 (by decide)]
    rw [hword, UInt32.ofNat_toNat]

/-- A full word has every bit. -/
theorem allOnes_getLsbD {k : Nat} (hk : k < 32) : (0xffffffff : UInt32).toBitVec.getLsbD k = true := by
  show Nat.testBit (2 ^ 32 - 1) k = true
  rw [Nat.testBit_two_pow_sub_one, decide_eq_true hk]

/-- `last_mask` keeps the bits that are used. -/
theorem lastMask_getLsbD (b : Bitmap) {k : Nat} (hk : k < 32)
    (hused : b.bitCnt % 32 ≠ 0 → k < b.bitCnt % 32) : (lastMask b).toBitVec.getLsbD k = true := by
  have hbits : b.bitCnt % 32 < 32 := Nat.mod_lt _ (by decide)
  unfold lastMask
  dsimp only
  split
  next h =>
    have hpow : (2 : Nat) ^ (b.bitCnt % 32) < 2 ^ 32 := Nat.pow_lt_pow_right (by decide) hbits
    have hshift : (1 <<< UInt32.ofNat (b.bitCnt % 32) : UInt32).toNat = 2 ^ (b.bitCnt % 32) := by
      have hmod : (1 <<< UInt32.ofNat (b.bitCnt % 32) : UInt32).toNat =
          1 <<< (b.bitCnt % 32) % 2 ^ 32 := by simp
      rw [hmod, Nat.one_shiftLeft, Nat.mod_eq_of_lt hpow]
    have hle : (1 : UInt32) ≤ 1 <<< UInt32.ofNat (b.bitCnt % 32) := by
      rw [UInt32.le_iff_toNat_le, hshift]
      exact Nat.one_le_two_pow
    show Nat.testBit (((1 <<< UInt32.ofNat (b.bitCnt % 32) : UInt32) - 1).toNat) k = true
    rw [UInt32.toNat_sub_of_le _ _ hle, hshift]
    show Nat.testBit (2 ^ (b.bitCnt % 32) - 1) k = true
    rw [Nat.testBit_two_pow_sub_one, decide_eq_true (hused h)]
  next => exact allOnes_getLsbD hk

/-- Masking the last word leaves the bits of the bitmap. -/
theorem update_lastMask (h : b.Fits) (hpos : 0 < b.bitCnt) :
    ∃ b', b.update ((elemCnt b.bitCnt + (2 ^ 32 - 1)) % 2 ^ 32) (· &&& lastMask b) = .ok b' ∧
      SameSize b b' ∧ ∀ i < b.bitCnt, b'.bit i = b.bit i := by
  have hsmall := h.small
  have hidx : (elemCnt b.bitCnt + (2 ^ 32 - 1)) % 2 ^ 32 = (b.bitCnt - 1) / 32 := by
    rw [elemCnt_eq hsmall]
    omega
  have hin : (b.bitCnt - 1) / 32 < b.bits.length := h.word (by omega)
  have hword : b.word ((b.bitCnt - 1) / 32) = .ok b.bits[(b.bitCnt - 1) / 32] := dif_pos hin
  rw [hidx]
  refine ⟨{ b with
    bits := b.bits.set ((b.bitCnt - 1) / 32) (b.bits[(b.bitCnt - 1) / 32] &&& lastMask b) }, ?_,
    ⟨rfl, List.length_set⟩, fun i hi => ?_⟩
  · unfold Bitmap.update
    rw [hword]
    rfl
  · have hk : i % 32 < 32 := Nat.mod_lt _ (by decide)
    unfold Bitmap.bit
    dsimp only
    rw [List.getD_eq_getElem?_getD, List.getElem?_set]
    by_cases hlast : (b.bitCnt - 1) / 32 = i / 32
    · rw [if_pos hlast, if_pos hin, Option.getD_some, UInt32.toBitVec_and, BitVec.getLsbD_and,
        lastMask_getLsbD b hk (by omega), Bool.and_true, ← hlast, List.getD_eq_getElem _ _ hin]
    · rw [if_neg hlast, ← List.getD_eq_getElem?_getD]

/-! ## Writing and reading back -/

/-- The file is four bytes for each word. -/
theorem byteCnt_eq (h : b.Fits) : byteCnt b.bitCnt = 4 * b.bits.length := by
  unfold byteCnt
  rw [elemCnt_eq h.small, h.words]

/-- What `bitmap_read` makes of bytes that are those of a bitmap. -/
theorem bitmapRead_eq (h : Refines b xs) (h₁ : b₁.Fits) (hcnt : b₁.bitCnt = xs.length)
    (hread : (fileReadAt file (bytesOf b₁.bits) (byteCnt b₁.bitCnt) 0 alloc s).1 =
      byteCnt b₁.bitCnt)
    (hbytes : ∀ j < byteCnt b.bitCnt,
      byteAt (s.inode file.inode) s.device (j : Nat) = bytesOf b.bits j) :
    ∃ b₂, bitmapRead b₁ file alloc s = .ok (true, b₂) ∧ Refines b₂ xs := by
  have hsame : b₁.bitCnt = b.bitCnt := hcnt.trans h.cnt.symm
  by_cases hpos : 0 < b₁.bitCnt
  · have hlen : b₁.bits.length = b.bits.length := by rw [h₁.words, h.fits.words, hsame]
    have hwords : wordsOf (fileReadAt file (bytesOf b₁.bits) (byteCnt b₁.bitCnt) 0 alloc s).2
        b₁.bits.length = b.bits := by
      rw [hlen]
      apply wordsOf_bytesOf
      intro j hj
      rw [← byteCnt_eq h.fits] at hj
      have hall : ((Bounce.inodeReadAt file.inode (bytesOf b₁.bits) (byteCnt b₁.bitCnt) 0 alloc s).1 :
          Int) = byteCnt b₁.bitCnt := congrArg Nat.cast hread
      have hat := Bounce.inodeReadAt_whole (Int.le_refl 0) hall j (by rw [hsame]; omega)
      rw [Int.zero_add, hbytes j hj] at hat
      exact hat
    obtain ⟨b₂, hmask, hsize, hbits⟩ := update_lastMask (b := b) h.fits (by rw [← hsame]; exact hpos)
    have hb : ({ b₁ with bits := b.bits } : Bitmap) = b := by
      rw [hsame]
    refine ⟨b₂, ?_, h.of_bits hsize rfl fun i hi => ?_⟩
    · unfold bitmapRead
      dsimp only
      rw [if_pos hpos, hwords, hb, hsame, hmask, bind_ok]
      rw [hsame] at hread
      rw [hread, beq_self_eq_true]
    · rw [h.bits i hi, hbits i (by rw [h.cnt]; exact hi)]
  · obtain rfl : xs = [] := List.length_eq_zero_iff.mp (by omega)
    exact ⟨b₁, if_neg hpos, h₁, hcnt, fun i hi => absurd hi (Nat.not_lt_zero i)⟩

/-- What has been written whole is read whole into a bitmap of as many bits. -/
theorem bitmapRead_bitmapWrite (h : Refines b xs) (hwrite : bitmapWrite b file alloc s = (true, s'))
    (h₁ : b₁.Fits) (hcnt : b₁.bitCnt = xs.length) {a : Bool}
    (hread : (fileReadAt file (bytesOf b₁.bits) (byteCnt b₁.bitCnt) 0 a s').1 = byteCnt b₁.bitCnt) :
    ∃ b₂, bitmapRead b₁ file a s' = .ok (true, b₂) ∧ Refines b₂ xs := by
  obtain ⟨hcount, rfl⟩ := Prod.mk.inj hwrite
  obtain ⟨hbytes, hinode⟩ := Bounce.inodeWriteAt_whole (Int.le_refl 0) (eq_of_beq hcount)
  refine bitmapRead_eq h h₁ hcnt hread fun j hj => ?_
  have hat := hbytes j (by omega)
  rw [Int.zero_add] at hat
  show byteAt ((Bounce.inodeWriteAt _ _ _ _ _ _).2.inode file.inode) _ _ = _
  rw [hinode]
  exact hat

/-- Where a file is not protected and is long enough, a bitmap is written whole. -/
theorem bitmapWrite_true (hdeny : (s.inode file.inode).denyWriteCnt = 0)
    (hlen : byteCnt b.bitCnt ≤ (s.inode file.inode).length) :
    (bitmapWrite b file true s).1 = true := by
  have hcount : (Bounce.inodeWriteAt file.inode (bytesOf b.bits) (byteCnt b.bitCnt) 0 true s).1 =
      byteCnt b.bitCnt := by
    rw [Bounce.inodeWriteAt_eq (Int.le_refl 0), inodeWriteAt_count hdeny (Int.le_refl 0)]
    unfold reach
    omega
  exact beq_iff_eq.mpr hcount

/-- A file that is long enough is read as a whole. -/
theorem fileReadAt_whole (hlen : byteCnt b.bitCnt ≤ (s.inode file.inode).length) :
    (fileReadAt file (bytesOf b.bits) (byteCnt b.bitCnt) 0 true s).1 = byteCnt b.bitCnt := by
  unfold fileReadAt
  rw [Bounce.inodeReadAt_eq (Int.le_refl 0)]
  unfold reach
  omega

/-- `bitmap_read` says whether it has read all. -/
theorem bitmapRead_result (hpos : 0 < b.bitCnt) {x : Bool}
    (hread : bitmapRead b file alloc s = .ok (x, b')) :
    x = ((fileReadAt file (bytesOf b.bits) (byteCnt b.bitCnt) 0 alloc s).1 == byteCnt b.bitCnt) := by
  unfold bitmapRead at hread
  rw [if_pos hpos] at hread
  obtain ⟨b₂, _, heq⟩ := bind_eq_ok.mp hread
  cases heq
  rfl

/-! ## The free map -/

/-- Setting a range of the map is filling it. -/
theorem setMultiple_eq_fill (m : List Bool) (start cnt : Nat) (v : Bool) :
    Filesys.setMultiple m start cnt v = fill m start cnt v := rfl

/-- The scan of the file system starts at the first bit. -/
theorem bitmapScan_eq_scan (m : List Bool) (cnt : Nat) :
    Filesys.bitmapScan m cnt = Lib.scan m 0 cnt false := by
  unfold Filesys.bitmapScan Lib.scan
  rw [Nat.sub_zero, List.range_eq_range']
  refine List.find?_congr fun i hi => ?_
  rw [List.mem_range'_1] at hi
  have hgroup : Group m i cnt false ↔ true ∉ (m.drop i).take cnt := group_iff (by omega)
  rw [Bool.eq_iff_iff, decide_eq_true_eq, hgroup, List.all_eq_true]
  constructor
  · intro hall hmem
    cases hall true hmem
  · intro hno x hx
    cases x with
    | false => rfl
    | true => exact absurd hx hno

/-- A byte of a word is a shift and a cut. -/
theorem wordBytes_getD (n : Nat) {c : Nat} (hc : c < 4) :
    (wordBytes n).getD c 0 = UInt8.ofNat (n / 2 ^ (8 * c)) := by
  match c, hc with
  | 0, _ =>
    show UInt8.ofNat n = UInt8.ofNat (n / 1)
    rw [Nat.div_one]
  | 1, _ | 2, _ | 3, _ => rfl

/-- The bits of the bytes are those of the words. -/
theorem bytesOf_testBit (ws : List UInt32) (i : Nat) :
    (bytesOf ws (i / 8)).toNat.testBit (i % 8) =
      (ws.getD (i / 32) 0).toBitVec.getLsbD (i % 32) := by
  have hbyte : i / 8 % 4 < 4 := Nat.mod_lt _ (by decide)
  have hbit : i % 8 < 8 := Nat.mod_lt _ (by decide)
  have hword : i / 8 / 4 = i / 32 := by omega
  have hpos : i % 8 + 8 * (i / 8 % 4) = i % 32 := by omega
  unfold bytesOf
  rw [wordBytes_getD _ hbyte, hword, UInt8.toNat_ofNat', Nat.testBit_mod_two_pow,
    decide_eq_true hbit, Bool.true_and, Nat.testBit_div_two_pow, hpos]
  rfl

/-- A byte is its bits. -/
theorem byte_ext {x y : UInt8} (h : ∀ k < 8, x.toNat.testBit k = y.toNat.testBit k) : x = y :=
  UInt8.toBitVec_inj.mp (BitVec.eq_of_getLsbD_eq h)

/-- The words of a bitmap as the free map of the file system has them, with the bits behind the
last. -/
theorem bytesOf_eq_bitmapBytes {m : List Bool} (hlen : m.length = 32 * b.bits.length)
    (hbits : ∀ i < m.length, m[i]? = some (b.bit i)) (j : Nat) :
    (bitmapBytes m).getD j 0 = bytesOf b.bits j := by
  by_cases hj : j < 4 * b.bits.length
  · apply byte_ext
    intro k hk
    have hdiv : (8 * j + k) / 8 = j := by omega
    have hmod : (8 * j + k) % 8 = k := by omega
    have hin : 8 * j + k < m.length := by omega
    have hlist := getD_bitmapBytes hin
    have hword := bytesOf_testBit b.bits (8 * j + k)
    rw [hdiv, hmod] at hlist hword
    rw [hlist, hword, List.getD_eq_getElem?_getD, hbits _ hin]
    rfl
  · unfold bytesOf
    rw [List.getD_eq_default _ _ (by rw [length_bitmapBytes]; omega),
      List.getD_eq_default b.bits _ (by omega)]
    have hmod : j % 4 < 4 := Nat.mod_lt _ (by decide)
    rw [wordBytes_getD _ hmod]
    show 0 = UInt8.ofNat (0 / 2 ^ (8 * (j % 4)))
    rw [Nat.zero_div]
    rfl

/-- The free map is written as its words are. -/
theorem freeMap_bitmapWrite (h : Refines b s.freeMap)
    (hlen : (s.freeMap ++ s.pad).length = 32 * b.bits.length)
    (hbits : ∀ i < (s.freeMap ++ s.pad).length, (s.freeMap ++ s.pad)[i]? = some (b.bit i))
    (hfile : s.freeMapFile.bind s.file = some file) :
    Filesys.bitmapWrite s = bitmapWrite b file true s := by
  have hcnt : ((bitmapBytes (s.freeMap ++ s.pad)).length : Int) = byteCnt b.bitCnt := by
    rw [length_bitmapBytes, byteCnt_eq h.fits, hlen]
    omega
  have hbuffer : (fun j => (bitmapBytes (s.freeMap ++ s.pad)).getD j 0) = bytesOf b.bits :=
    funext (bytesOf_eq_bitmapBytes hlen hbits)
  unfold Filesys.bitmapWrite bitmapWrite fileWriteAt
  rw [hfile]
  dsimp only
  rw [Bounce.inodeWriteAt_eq (Int.le_refl 0), hcnt, hbuffer]

/-! ## A bitmap is an array of Booleans -/

/-- What the operations that look at a bitmap say is what its array gives. -/
structure Faithful (b : Bitmap) (xs : List Bool) : Prop where
  size : bitmapSize b = xs.length
  test : ∀ i (h : i < xs.length), bitmapTest b i = .ok xs[i]
  count : ∀ start cnt v, start + cnt ≤ xs.length →
    bitmapCount b start cnt v = .ok (((xs.drop start).take cnt).count v)
  contains : ∀ start cnt v, start + cnt ≤ xs.length →
    bitmapContains b start cnt v = .ok (decide (v ∈ (xs.drop start).take cnt))
  /-- A scan gives the least position of a group, and `BITMAP_ERROR` when there is none. -/
  scan : ∀ start cnt v, start ≤ xs.length → ∃ r, bitmapScan b start cnt v = .ok r ∧
    (r ≠ bitmapError → IsLeast {i | start ≤ i ∧ Group xs i cnt v} r) ∧
    (r = bitmapError ↔ ∀ i, start ≤ i → ¬ Group xs i cnt v)
  /-- Then those bits are changed and no other, not even behind the last. -/
  scanAndFlip : ∀ start cnt v, start ≤ xs.length →
    ∃ r b', bitmapScanAndFlip b start cnt v = .ok (r, b') ∧ bitmapScan b start cnt v = .ok r ∧
      SameSize b b' ∧
      (r = bitmapError → b' = b) ∧
      (r ≠ bitmapError → ∀ i, b'.bit i = if r ≤ i ∧ i < r + cnt then !v else b.bit i)
  /-- A bitmap that has been written to a file is read from it as the same array, into any bitmap of
  as many bits. -/
  file : ∀ (file : File) (a a' : Bool) (s s' : Files), bitmapWrite b file a s = (true, s') →
    ∀ b₁ ys, Refines b₁ ys → ys.length = xs.length →
      ∀ b₂, bitmapRead b₁ file a' s' = .ok (true, b₂) →
        ∀ i (h : i < xs.length), bitmapTest b₂ i = .ok xs[i]
  /-- Both are done when there is a bounce buffer and the file is not protected and long enough. -/
  done : ∀ (file : File) (s : Files), (s.inode file.inode).denyWriteCnt = 0 →
    byteCnt b.bitCnt ≤ (s.inode file.inode).length →
      ∃ s', bitmapWrite b file true s = (true, s') ∧
        ∀ b₁ ys, Refines b₁ ys → ys.length = xs.length →
          ∃ b₂, bitmapRead b₁ file true s' = .ok (true, b₂)

/-- A bit that is tested is the array's. -/
theorem Refines.test (h : Refines b xs) {i : Nat} (hi : i < xs.length) :
    bitmapTest b i = .ok xs[i] := by
  have hat := h.bits i hi
  rw [List.getElem?_eq_getElem hi, Option.some.injEq] at hat
  rw [bitmapTest_eq h.fits (by rw [h.cnt]; exact hi), hat]

/-- What refines the array has its bits. -/
theorem Refines.faithful (h : Refines b xs) : Faithful b xs where
  size := h.cnt
  test i hi := h.test hi
  count start cnt v hin := h.count hin v
  contains start cnt v hin := h.contains hin v
  scan start cnt v hstart := by
    refine ⟨_, h.scan hstart cnt v, ?_⟩
    cases hscan : Lib.scan xs start cnt v with
    | some i =>
      have hleast := scan_eq_some.mp hscan
      have hne := h.found_ne_error hleast.1.2
      exact ⟨fun _ => hleast, iff_of_false hne fun hno => hno i hleast.1.1 hleast.1.2⟩
    | none => exact ⟨fun hne => absurd rfl hne, iff_of_true rfl (scan_eq_none.mp hscan)⟩
  scanAndFlip start cnt v hstart := by
    have hr := h.scan hstart cnt v
    cases hscan : Lib.scan xs start cnt v with
    | some i =>
      have hne := h.found_ne_error (scan_eq_some.mp hscan).1.2
      obtain ⟨b', hflip, _, hsize, hbits⟩ := bitmapScanAndFlip_some h hstart hscan
      rw [hscan] at hr
      exact ⟨i, b', hflip, hr, hsize, fun heq => absurd heq hne, fun _ => hbits⟩
    | none =>
      rw [hscan] at hr
      exact ⟨bitmapError, b, bitmapScanAndFlip_none h hstart hscan, hr, ⟨rfl, rfl⟩, fun _ => rfl,
        fun hne => absurd rfl hne⟩
  file file a a' s s' hwrite b₁ ys h₁ hlen b₂ hread i hi := by
    have hcnt : b₁.bitCnt = xs.length := h₁.cnt.trans hlen
    have hcount := eq_of_beq (bitmapRead_result (by rw [hcnt]; omega) hread).symm
    obtain ⟨b₃, hread', h₃⟩ := bitmapRead_bitmapWrite h hwrite h₁.fits hcnt hcount
    cases hread.symm.trans hread'
    exact h₃.test hi
  done file s hdeny hlen := by
    have hwrite : bitmapWrite b file true s = (true, (bitmapWrite b file true s).2) :=
      Prod.ext (bitmapWrite_true hdeny hlen) rfl
    refine ⟨_, hwrite, fun b₁ ys h₁ hys => ?_⟩
    have hcnt : b₁.bitCnt = xs.length := h₁.cnt.trans hys
    have hinode : (bitmapWrite b file true s).2.inode = s.inode :=
      (Bounce.inodeWriteAt_whole (Int.le_refl 0) (eq_of_beq (congrArg Prod.fst hwrite))).2
    obtain ⟨b₂, hread, _⟩ := bitmapRead_bitmapWrite h hwrite h₁.fits hcnt
      (fileReadAt_whole (by rw [hinode, hcnt, ← h.cnt]; exact hlen))
    exact ⟨b₂, hread⟩

/-- A bitmap of any size that has been created, and then changed by any operations whose indexes and
ranges are inside, is the array of Booleans that these operations make. -/
theorem bitmap_refines_array {n : Nat} {b : Bitmap} {ops : List BitmapOp} (h : n < 2 ^ 32)
    (hb : Created n b) (hin : ∀ op ∈ ops, op.Inside n) :
    ∃ b', ops.foldlM BitmapOp.exec b = .ok b' ∧
      Refines b' (ops.foldl BitmapOp.apply (List.replicate n false)) ∧
      Faithful b' (ops.foldl BitmapOp.apply (List.replicate n false)) := by
  obtain ⟨b', hrun, hrefines⟩ := (hb.refines h).run ops (by rw [List.length_replicate]; exact hin)
  exact ⟨b', hrun, hrefines, hrefines.faithful⟩

/-- Forty bits in two words with garbage in them. A group over both words is taken, and one of its bits
given back. -/
theorem bitmap_refines_array_forty : ∃ b',
    [BitmapOp.scanAndFlip 30 5 false, .flip 33].foldlM BitmapOp.exec ⟨40, [0, 0xffffff00]⟩ = .ok b' ∧
      bitmapTest b' 32 = .ok true ∧ bitmapTest b' 33 = .ok false := by
  have hcreate : bitmapCreateInBuf 40 [0xffffffff, 0xffffffff] = .ok ⟨40, [0, 0xffffff00]⟩ := rfl
  have hin : ∀ op ∈ [BitmapOp.scanAndFlip 30 5 false, .flip 33], op.Inside 40 := by
    simp [BitmapOp.Inside]
  obtain ⟨b', hrun, _, hfaithful⟩ := bitmap_refines_array (by decide) (.inBuf hcreate) hin
  exact ⟨b', hrun, hfaithful.test 32 (by decide), hfaithful.test 33 (by decide)⟩

end Pintos.Kernel
