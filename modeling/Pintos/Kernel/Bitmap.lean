import Mathlib.Algebra.Group.Nat.Defs
import Mathlib.Data.List.GetD
import Pintos.Lib.Fallible
import Pintos.Lib.Groups

/-!
# Bitmaps

The bitmaps of `lib/kernel/bitmap.c`, which pack their bits in words. A `size_t` has 32 bits, so that
sums wrap around. The words of a bitmap are the `elem_cnt` of its storage that the source asks for;
to touch another is a fault, `outside`, as is an assertion that fails.
-/

namespace Pintos.Kernel

open Pintos.Lib

inductive BitmapFault where
  /-- `idx < b->bit_cnt`. -/
  | idx
  /-- `start <= b->bit_cnt`. -/
  | start
  /-- `start + cnt <= b->bit_cnt`. -/
  | range
  /-- `block_size >= bitmap_buf_size (bit_cnt)`. -/
  | blockSize
  /-- A word that is not the bitmap's. -/
  | outside
  deriving DecidableEq, Repr

/-- `struct bitmap`; an `elem_type` has 32 bits. -/
structure Bitmap where
  bitCnt : Nat
  bits : List UInt32
  deriving DecidableEq, Repr

/-- `elem_idx`. -/
def elemIdx (bitIdx : Nat) : Nat := bitIdx / 32

/-- `bit_mask`. -/
def bitMask (bitIdx : Nat) : UInt32 := 1 <<< UInt32.ofNat (bitIdx % 32)

/-- `elem_cnt`. -/
def elemCnt (bitCnt : Nat) : Nat := (bitCnt + 31) % 2 ^ 32 / 32

/-- `byte_cnt`. -/
def byteCnt (bitCnt : Nat) : Nat := 4 * elemCnt bitCnt

/-- `last_mask`. -/
def lastMask (b : Bitmap) : UInt32 :=
  let lastBits := b.bitCnt % 32
  if lastBits ≠ 0 then (1 <<< UInt32.ofNat lastBits) - 1 else 0xffffffff

/-- `bitmap_size`. -/
def bitmapSize (b : Bitmap) : Nat := b.bitCnt

/-- `BITMAP_ERROR`, which is `SIZE_MAX`. -/
def bitmapError : Nat := 2 ^ 32 - 1

/-! ## Single bits -/

/-- `b->bits[idx]`. -/
def Bitmap.word (b : Bitmap) (idx : Nat) : Except BitmapFault UInt32 :=
  if h : idx < b.bits.length then .ok b.bits[idx] else .error .outside

/-- An instruction on `b->bits[idx]`. -/
def Bitmap.update (b : Bitmap) (idx : Nat) (f : UInt32 → UInt32) : Except BitmapFault Bitmap := do
  let w ← b.word idx
  .ok { b with bits := b.bits.set idx (f w) }

/-- `bitmap_mark`. -/
def bitmapMark (b : Bitmap) (bitIdx : Nat) : Except BitmapFault Bitmap :=
  b.update (elemIdx bitIdx) (· ||| bitMask bitIdx)

/-- `bitmap_reset`. -/
def bitmapReset (b : Bitmap) (bitIdx : Nat) : Except BitmapFault Bitmap :=
  b.update (elemIdx bitIdx) (· &&& ~~~ bitMask bitIdx)

/-- `bitmap_flip`. -/
def bitmapFlip (b : Bitmap) (bitIdx : Nat) : Except BitmapFault Bitmap :=
  b.update (elemIdx bitIdx) (· ^^^ bitMask bitIdx)

/-- `bitmap_set`. -/
def bitmapSet (b : Bitmap) (idx : Nat) (value : Bool) : Except BitmapFault Bitmap :=
  if ¬ idx < b.bitCnt then .error .idx
  else if value then bitmapMark b idx
  else bitmapReset b idx

/-- `bitmap_test`. -/
def bitmapTest (b : Bitmap) (idx : Nat) : Except BitmapFault Bool :=
  if ¬ idx < b.bitCnt then .error .idx
  else do
    let w ← b.word (elemIdx idx)
    .ok (w &&& bitMask idx != 0)

/-! ## Multiple bits -/

/-- The assertions on a range of bits. -/
def Bitmap.checkRange (b : Bitmap) (start cnt : Nat) : Except BitmapFault Unit :=
  if ¬ start ≤ b.bitCnt then .error .start
  else if ¬ (start + cnt) % 2 ^ 32 ≤ b.bitCnt then .error .range
  else .ok ()

/-- The loop of `bitmap_set_multiple`. -/
def setLoop (start : Nat) (value : Bool) : List Nat → Bitmap → Except BitmapFault Bitmap
  | [], b => .ok b
  | i :: is, b => do
    let b ← bitmapSet b ((start + i) % 2 ^ 32) value
    setLoop start value is b

/-- `bitmap_set_multiple`. -/
def bitmapSetMultiple (b : Bitmap) (start cnt : Nat) (value : Bool) : Except BitmapFault Bitmap := do
  b.checkRange start cnt
  setLoop start value (List.range cnt) b

/-- `bitmap_set_all`. -/
def bitmapSetAll (b : Bitmap) (value : Bool) : Except BitmapFault Bitmap :=
  bitmapSetMultiple b 0 (bitmapSize b) value

/-- The loop of `bitmap_count`. -/
def countLoop (b : Bitmap) (start : Nat) (value : Bool) : List Nat → Nat → Except BitmapFault Nat
  | [], valueCnt => .ok valueCnt
  | i :: is, valueCnt => do
    let bit ← bitmapTest b ((start + i) % 2 ^ 32)
    countLoop b start value is (if bit = value then valueCnt + 1 else valueCnt)

/-- `bitmap_count`. -/
def bitmapCount (b : Bitmap) (start cnt : Nat) (value : Bool) : Except BitmapFault Nat := do
  b.checkRange start cnt
  countLoop b start value (List.range cnt) 0

/-- The loop of `bitmap_contains`. -/
def containsLoop (b : Bitmap) (start : Nat) (value : Bool) : List Nat → Except BitmapFault Bool
  | [] => .ok false
  | i :: is => do
    let bit ← bitmapTest b ((start + i) % 2 ^ 32)
    if bit = value then .ok true else containsLoop b start value is

/-- `bitmap_contains`. -/
def bitmapContains (b : Bitmap) (start cnt : Nat) (value : Bool) : Except BitmapFault Bool := do
  b.checkRange start cnt
  containsLoop b start value (List.range cnt)

/-- The loop of `bitmap_scan`. -/
def scanLoop (b : Bitmap) (cnt : Nat) (value : Bool) : List Nat → Except BitmapFault Nat
  | [] => .ok bitmapError
  | i :: is => do
    let any ← bitmapContains b i cnt !value
    if !any then .ok i else scanLoop b cnt value is

/-- `bitmap_scan`. -/
def bitmapScan (b : Bitmap) (start cnt : Nat) (value : Bool) : Except BitmapFault Nat :=
  if ¬ start ≤ b.bitCnt then .error .start
  else if cnt ≤ b.bitCnt then
    let last := b.bitCnt - cnt
    scanLoop b cnt value (List.range' start (last + 1 - start))
  else .ok bitmapError

/-- `bitmap_scan_and_flip`. -/
def bitmapScanAndFlip (b : Bitmap) (start cnt : Nat) (value : Bool) :
    Except BitmapFault (Nat × Bitmap) := do
  let idx ← bitmapScan b start cnt value
  if idx ≠ bitmapError then
    let b ← bitmapSetMultiple b idx cnt !value
    .ok (idx, b)
  else .ok (idx, b)

/-! ## Creation -/

/-- What `malloc` gives: the words of the block, with what was left in them. For no bytes it gives
a null pointer. -/
structure Supply where
  malloc : Nat → Option (List UInt32)
  malloc_zero : malloc 0 = none
  length : ∀ {size : Nat} {ws : List UInt32}, malloc size = some ws → ws.length = size / 4

/-- `bitmap_create`; `alloc` says whether there is memory for the `struct bitmap`. -/
def bitmapCreate (alloc : Bool) (heap : Supply) (bitCnt : Nat) :
    Except BitmapFault (Option Bitmap) :=
  if ¬ alloc then .ok none
  else
    let bits := heap.malloc (byteCnt bitCnt)
    if bits.isSome ∨ bitCnt = 0 then do
      let b ← bitmapSetAll { bitCnt := bitCnt, bits := bits.getD [] } false
      .ok (some b)
    else .ok none

/-- `bitmap_buf_size`. -/
def bitmapBufSize (bitCnt : Nat) : Nat := 8 + byteCnt bitCnt

/-- `bitmap_create_in_buf`. The words of the block stand behind the `struct bitmap`. -/
def bitmapCreateInBuf (bitCnt : Nat) (words : List UInt32) : Except BitmapFault Bitmap :=
  if ¬ 8 + 4 * words.length ≥ bitmapBufSize bitCnt then .error .blockSize
  else bitmapSetAll { bitCnt := bitCnt, bits := words.take (elemCnt bitCnt) } false

/-! ## The words -/

variable {b b' : Bitmap} {n i start cnt : Nat} {v : Bool}

/-- The bit numbered `i`. -/
def Bitmap.bit (b : Bitmap) (i : Nat) : Bool :=
  (b.bits.getD (i / 32) 0).toBitVec.getLsbD (i % 32)

/-- The storage and the number of bits are the same. -/
structure SameSize (b b' : Bitmap) : Prop where
  bitCnt : b'.bitCnt = b.bitCnt
  length : b'.bits.length = b.bits.length

theorem SameSize.trans {b₁ b₂ b₃ : Bitmap} (h : SameSize b₁ b₂) (h' : SameSize b₂ b₃) :
    SameSize b₁ b₃ := ⟨h'.bitCnt.trans h.bitCnt, h'.length.trans h.length⟩

theorem bitMask_getLsbD (i : Nat) {k : Nat} (hk : k < 32) :
    (bitMask i).toBitVec.getLsbD k = decide (k = i % 32) := by
  have hi : i % 32 < 32 := Nat.mod_lt _ (by decide)
  have hbit : (bitMask i).toBitVec.getLsbD k =
      (decide (k < 32) && !decide (k < i % 32) && decide (k - i % 32 = 0)) := by
    unfold bitMask
    simp
  rw [hbit, Bool.eq_iff_iff]
  simp only [Bool.and_eq_true, Bool.not_eq_true', decide_eq_true_eq, decide_eq_false_iff_not]
  omega

/-- Words that have the same bits are the same. -/
theorem word_ext {w w' : UInt32}
    (h : ∀ k < 32, w.toBitVec.getLsbD k = w'.toBitVec.getLsbD k) : w = w' :=
  UInt32.toBitVec_inj.mp (BitVec.eq_of_getLsbD_eq h)

theorem zero_getLsbD (k : Nat) : (0 : UInt32).toBitVec.getLsbD k = false := by simp

/-- The mask tells the bit. -/
theorem and_bitMask (w : UInt32) (i : Nat) :
    (w &&& bitMask i != 0) = w.toBitVec.getLsbD (i % 32) := by
  have hi : i % 32 < 32 := Nat.mod_lt _ (by decide)
  have hand : ∀ k < 32, (w &&& bitMask i).toBitVec.getLsbD k =
      (w.toBitVec.getLsbD k && decide (k = i % 32)) := by
    intro k hk
    rw [UInt32.toBitVec_and, BitVec.getLsbD_and, bitMask_getLsbD i hk]
  cases hbit : w.toBitVec.getLsbD (i % 32) with
  | false =>
    have hzero : w &&& bitMask i = 0 := by
      apply word_ext
      intro k hk
      rw [hand k hk, zero_getLsbD]
      by_cases h : k = i % 32
      · rw [h, hbit, Bool.false_and]
      · rw [decide_eq_false h, Bool.and_false]
    rw [hzero]
    rfl
  | true =>
    rw [bne_iff_ne]
    intro hzero
    have hat := hand (i % 32) hi
    rw [hzero, zero_getLsbD, hbit, decide_eq_true rfl] at hat
    cases hat

theorem word_eq_ok (h : i / 32 < b.bits.length) :
    ∃ w, b.word (i / 32) = .ok w ∧ w.toBitVec.getLsbD (i % 32) = b.bit i := by
  refine ⟨b.bits[i / 32], dif_pos h, ?_⟩
  unfold Bitmap.bit
  rw [List.getD_eq_getElem _ _ h]

/-- An instruction that does `g` to the bit of its mask and leaves the others. -/
theorem update_bit {f : UInt32 → UInt32} {g : Bool → Bool} (h : i / 32 < b.bits.length)
    (hf : ∀ w : UInt32, ∀ k < 32, (f w).toBitVec.getLsbD k =
      if k = i % 32 then g (w.toBitVec.getLsbD k) else w.toBitVec.getLsbD k) :
    ∃ b', b.update (elemIdx i) f = .ok b' ∧ SameSize b b' ∧
      b'.bit = Function.update b.bit i (g (b.bit i)) := by
  have hword : b.word (elemIdx i) = .ok b.bits[i / 32] := dif_pos h
  refine ⟨{ b with bits := b.bits.set (i / 32) (f b.bits[i / 32]) }, ?_,
    ⟨rfl, List.length_set⟩, ?_⟩
  · unfold Bitmap.update
    rw [hword]
    rfl
  · funext j
    have hj : j % 32 < 32 := Nat.mod_lt _ (by decide)
    unfold Bitmap.bit
    dsimp only
    rw [List.getD_eq_getElem?_getD, List.getElem?_set]
    by_cases hsame : i / 32 = j / 32
    · rw [if_pos hsame, if_pos (by omega), Option.getD_some, hf _ _ hj]
      by_cases hij : j = i
      · subst hij
        rw [if_pos rfl, Function.update_self, List.getD_eq_getElem _ _ h]
      · rw [if_neg (by omega), Function.update_of_ne hij, ← hsame, List.getD_eq_getElem _ _ h]
    · rw [if_neg hsame, Function.update_of_ne (by rintro rfl; exact hsame rfl),
        ← List.getD_eq_getElem?_getD]

theorem bitmapMark_bit (h : i / 32 < b.bits.length) : ∃ b', bitmapMark b i = .ok b' ∧
    SameSize b b' ∧ b'.bit = Function.update b.bit i true := by
  refine update_bit (g := fun _ => true) h fun w k hk => ?_
  rw [UInt32.toBitVec_or, BitVec.getLsbD_or, bitMask_getLsbD i hk]
  split
  next hki => rw [decide_eq_true hki, Bool.or_true]
  next hki => rw [decide_eq_false hki, Bool.or_false]

theorem bitmapReset_bit (h : i / 32 < b.bits.length) : ∃ b', bitmapReset b i = .ok b' ∧
    SameSize b b' ∧ b'.bit = Function.update b.bit i false := by
  refine update_bit (g := fun _ => false) h fun w k hk => ?_
  rw [UInt32.toBitVec_and, UInt32.toBitVec_not, BitVec.getLsbD_and, BitVec.getLsbD_not,
    bitMask_getLsbD i hk, decide_eq_true hk, Bool.true_and]
  split
  next hki => rw [decide_eq_true hki, Bool.not_true, Bool.and_false]
  next hki => rw [decide_eq_false hki, Bool.not_false, Bool.and_true]

theorem bitmapFlip_bit (h : i / 32 < b.bits.length) : ∃ b', bitmapFlip b i = .ok b' ∧
    SameSize b b' ∧ b'.bit = Function.update b.bit i (!b.bit i) := by
  refine update_bit (g := not) h fun w k hk => ?_
  rw [UInt32.toBitVec_xor, BitVec.getLsbD_xor, bitMask_getLsbD i hk]
  split
  next hki => rw [decide_eq_true hki, Bool.xor_true]
  next hki => rw [decide_eq_false hki, Bool.xor_false]

end Pintos.Kernel
