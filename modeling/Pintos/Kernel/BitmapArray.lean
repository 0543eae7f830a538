import Pintos.Kernel.Bitmap

/-!
# A bitmap as an array of Booleans

`Refines b xs` says that the bits of `b` are `xs`. Each operation with its index or range inside
keeps it and does to the words what the array says, and the operations that look answer what the
array gives (`Refines.exec`, `Refines.faithful`).
-/

namespace Pintos.Kernel

open Pintos.Lib

variable {b b' : Bitmap} {xs : List Bool} {n i start cnt : Nat} {v : Bool}

/-- The storage has the words that the bits need. -/
structure Bitmap.Fits (b : Bitmap) : Prop where
  small : b.bitCnt + 31 < 2 ^ 32
  words : b.bits.length = (b.bitCnt + 31) / 32

/-- A bit in range has a word. -/
theorem Bitmap.Fits.word (h : b.Fits) (hi : i < b.bitCnt) : i / 32 < b.bits.length := by
  rw [h.words]
  omega

/-- The index of a bit in range does not wrap. -/
theorem Bitmap.Fits.lt (h : b.Fits) (hi : i < b.bitCnt) : i % 2 ^ 32 = i :=
  Nat.mod_eq_of_lt (by have hsmall := h.small; omega)

/-- What keeps the size keeps the words. -/
theorem SameSize.fits (hs : SameSize b b') (h : b.Fits) : b'.Fits :=
  ⟨by rw [hs.bitCnt]; exact h.small, by rw [hs.length, hs.bitCnt]; exact h.words⟩

/-- The bits of the bitmap are those of the array. -/
structure Refines (b : Bitmap) (xs : List Bool) : Prop where
  fits : b.Fits
  cnt : b.bitCnt = xs.length
  bits : ∀ i < xs.length, xs[i]? = some (b.bit i)

/-! ## Changing bits -/

/-- `bitmap_set` changes the one bit. -/
theorem bitmapSet_bit (h : b.Fits) (hi : i < b.bitCnt) (v : Bool) :
    ∃ b', bitmapSet b i v = .ok b' ∧ SameSize b b' ∧ b'.bit = Function.update b.bit i v := by
  unfold bitmapSet
  rw [if_neg (not_not.mpr hi)]
  cases v with
  | false => exact bitmapReset_bit (h.word hi)
  | true => exact bitmapMark_bit (h.word hi)

/-- The loop sets the bits it comes to. -/
theorem setLoop_bit (start : Nat) (v : Bool) : ∀ (is : List Nat) (b : Bitmap), b.Fits →
    (∀ i ∈ is, start + i < b.bitCnt) → ∃ b', setLoop start v is b = .ok b' ∧ SameSize b b' ∧
      ∀ j, b'.bit j = if start ≤ j ∧ j - start ∈ is then v else b.bit j
  | [], b, _, _ => ⟨b, rfl, ⟨rfl, rfl⟩, fun j => (if_neg (by simp)).symm⟩
  | i :: is, b, h, hin => by
    have hi := hin i List.mem_cons_self
    obtain ⟨b₁, hset, hsize, hbit⟩ := bitmapSet_bit h hi v
    obtain ⟨b₂, hloop, hsize', hbits⟩ := setLoop_bit start v is b₁ (hsize.fits h) fun k hk => by
      rw [hsize.bitCnt]
      exact hin k (List.mem_cons_of_mem _ hk)
    refine ⟨b₂, ?_, hsize.trans hsize', fun j => ?_⟩
    · unfold setLoop
      rw [h.lt hi, hset]
      exact hloop
    · rw [hbits, hbit]
      by_cases hj : j = start + i
      · subst hj
        rw [Function.update_self, ite_self, if_pos]
        exact ⟨by omega, by rw [Nat.add_sub_cancel_left]; exact List.mem_cons_self⟩
      · rw [Function.update_of_ne hj]
        have hne : start ≤ j → j - start ≠ i := by omega
        by_cases hmem : start ≤ j ∧ j - start ∈ is
        · rw [if_pos hmem, if_pos ⟨hmem.1, List.mem_cons_of_mem _ hmem.2⟩]
        · rw [if_neg hmem, if_neg]
          rintro ⟨hle, hcons⟩
          rcases List.mem_cons.mp hcons with heq | hmem'
          · exact hne hle heq
          · exact hmem ⟨hle, hmem'⟩

/-- A range inside the bitmap passes the assertions. -/
theorem checkRange_ok (h : b.Fits) (hin : start + cnt ≤ b.bitCnt) : b.checkRange start cnt = .ok () := by
  have hsmall := h.small
  unfold Bitmap.checkRange
  rw [if_neg (not_not.mpr (by omega)),
    if_neg (not_not.mpr (by rw [Nat.mod_eq_of_lt (by omega)]; exact hin))]

/-- `bitmap_set_multiple` changes the bits of its range. -/
theorem bitmapSetMultiple_bit (h : b.Fits) (hin : start + cnt ≤ b.bitCnt) (v : Bool) :
    ∃ b', bitmapSetMultiple b start cnt v = .ok b' ∧ SameSize b b' ∧
      ∀ j, b'.bit j = if start ≤ j ∧ j < start + cnt then v else b.bit j := by
  obtain ⟨b', hloop, hsize, hbits⟩ := setLoop_bit start v (List.range cnt) b h fun i hi => by
    rw [List.mem_range] at hi
    omega
  refine ⟨b', ?_, hsize, fun j => ?_⟩
  · unfold bitmapSetMultiple
    rw [checkRange_ok h hin]
    exact hloop
  · rw [hbits]
    congr 1
    rw [List.mem_range, eq_iff_iff]
    omega

/-! ## Looking at bits -/

/-- `bitmap_test` reads the bit of the array. -/
theorem bitmapTest_eq (h : b.Fits) (hi : i < b.bitCnt) : bitmapTest b i = .ok (b.bit i) := by
  obtain ⟨w, hw, hbit⟩ := word_eq_ok (h.word hi)
  unfold bitmapTest elemIdx
  rw [if_neg (not_not.mpr hi), hw, bind_ok, and_bitMask, hbit]

/-- The loop of `bitmap_count` counts the bits it sees. -/
theorem countLoop_eq (h : b.Fits) (start : Nat) (v : Bool) : ∀ (is : List Nat) (valueCnt : Nat),
    (∀ i ∈ is, start + i < b.bitCnt) → countLoop b start v is valueCnt =
      .ok (valueCnt + (is.map fun i => b.bit (start + i)).count v)
  | [], _, _ => rfl
  | i :: is, valueCnt, hin => by
    have hi := hin i List.mem_cons_self
    unfold countLoop
    rw [h.lt hi, bitmapTest_eq h hi, bind_ok,
      countLoop_eq h start v is _ fun k hk => hin k (List.mem_cons_of_mem _ hk),
      List.map_cons, List.count_cons]
    by_cases hv : b.bit (start + i) = v
    · rw [if_pos hv, if_pos (beq_iff_eq.mpr hv), Nat.add_assoc, Nat.add_comm 1]
    · rw [if_neg hv, if_neg (mt beq_iff_eq.mp hv), Nat.add_zero]

/-- That of `bitmap_contains` stops at the first it looks for. -/
theorem containsLoop_eq (h : b.Fits) (start : Nat) (v : Bool) : ∀ is : List Nat,
    (∀ i ∈ is, start + i < b.bitCnt) → containsLoop b start v is =
      .ok (decide (v ∈ is.map fun i => b.bit (start + i)))
  | [], _ => rfl
  | i :: is, hin => by
    have hi := hin i List.mem_cons_self
    unfold containsLoop
    rw [h.lt hi, bitmapTest_eq h hi, bind_ok, List.map_cons]
    split
    next hv => rw [decide_eq_true (by rw [hv]; exact List.mem_cons_self)]
    next hv =>
      rw [containsLoop_eq h start v is fun k hk => hin k (List.mem_cons_of_mem _ hk)]
      congr 2
      rw [List.mem_cons, eq_iff_iff]
      exact (or_iff_right (Ne.symm hv)).symm

/-- A part of the array is what the loops come to. -/
theorem Refines.part (h : Refines b xs) (hin : start + cnt ≤ xs.length) :
    (xs.drop start).take cnt = (List.range cnt).map fun j => b.bit (start + j) := by
  apply List.ext_getElem?
  intro j
  rw [List.getElem?_take, List.getElem?_map, List.getElem?_drop]
  split
  next hj => rw [h.bits _ (by omega), List.getElem?_range hj, Option.map_some]
  next hj => rw [List.getElem?_eq_none (by rw [List.length_range]; omega), Option.map_none]

/-- The bits of a range are bits of the bitmap. -/
theorem Refines.inside (h : Refines b xs) (hin : start + cnt ≤ xs.length) :
    ∀ j ∈ List.range cnt, start + j < b.bitCnt := by
  intro j hj
  rw [List.mem_range] at hj
  rw [h.cnt]
  omega

/-- `bitmap_count` counts in the array. -/
theorem Refines.count (h : Refines b xs) (hin : start + cnt ≤ xs.length) (v : Bool) :
    bitmapCount b start cnt v = .ok (((xs.drop start).take cnt).count v) := by
  unfold bitmapCount
  rw [checkRange_ok h.fits (by rw [h.cnt]; exact hin), bind_ok,
    countLoop_eq h.fits start v _ _ (h.inside hin), Nat.zero_add, h.part hin]

/-- `bitmap_contains` looks for a value in the range of the array. -/
theorem Refines.contains (h : Refines b xs) (hin : start + cnt ≤ xs.length) (v : Bool) :
    bitmapContains b start cnt v = .ok (decide (v ∈ (xs.drop start).take cnt)) := by
  unfold bitmapContains
  rw [checkRange_ok h.fits (by rw [h.cnt]; exact hin), bind_ok,
    containsLoop_eq h.fits start v _ (h.inside hin), h.part hin]

/-- A part without a `!v` is a group. -/
theorem group_iff (hin : start + cnt ≤ xs.length) :
    Group xs start cnt v ↔ (!v) ∉ (xs.drop start).take cnt := by
  constructor
  · rintro ⟨_, hgroup⟩ hmem
    obtain ⟨j, hj⟩ := List.mem_iff_getElem?.mp hmem
    rw [List.getElem?_take, List.getElem?_drop] at hj
    split at hj
    next hlt =>
      rw [hgroup j hlt, Option.some.injEq] at hj
      exact (Bool.eq_not_self v).mp hj
    next => cases hj
  · intro hno
    refine ⟨hin, fun j hj => ?_⟩
    have hat : xs[start + j]? = some xs[start + j] := List.getElem?_eq_getElem (by omega)
    by_contra hne
    apply hno
    rw [List.mem_iff_getElem?]
    refine ⟨j, ?_⟩
    rw [List.getElem?_take, if_pos hj, List.getElem?_drop, hat, Option.some.injEq]
    rw [hat, Option.some.injEq] at hne
    exact Bool.eq_not_of_ne hne

/-- The loop finds the first group. -/
theorem Refines.scanLoop (h : Refines b xs) (cnt : Nat) (v : Bool) : ∀ is : List Nat,
    (∀ i ∈ is, i + cnt ≤ xs.length) → Kernel.scanLoop b cnt v is =
      .ok ((is.find? fun i => Group xs i cnt v).getD bitmapError)
  | [], _ => rfl
  | i :: is, hin => by
    have hi := hin i List.mem_cons_self
    unfold Kernel.scanLoop
    rw [h.contains hi, bind_ok, List.find?_cons]
    by_cases hgroup : Group xs i cnt v
    · rw [decide_eq_false ((group_iff hi).mp hgroup), decide_eq_true hgroup]
      rfl
    · rw [decide_eq_true (not_not.mp (mt (group_iff hi).mpr hgroup)), decide_eq_false hgroup]
      exact h.scanLoop cnt v is fun k hk => hin k (List.mem_cons_of_mem _ hk)

/-- `bitmap_scan` finds the first group of the array. -/
theorem Refines.scan (h : Refines b xs) (hstart : start ≤ xs.length) (cnt : Nat) (v : Bool) :
    bitmapScan b start cnt v = .ok ((Lib.scan xs start cnt v).getD bitmapError) := by
  unfold bitmapScan Lib.scan
  dsimp only
  rw [if_neg (not_not.mpr (by rw [h.cnt]; exact hstart)), h.cnt]
  split
  next hcnt =>
    have hlen : xs.length - cnt + 1 - start = xs.length + 1 - cnt - start := by omega
    rw [hlen]
    refine h.scanLoop cnt v _ fun i hi => ?_
    rw [List.mem_range'_1] at hi
    omega
  next hcnt =>
    have hlen : xs.length + 1 - cnt - start = 0 := by omega
    rw [hlen]
    rfl

/-! ## What each operation does to the array -/

/-- Bits that are those of another array. -/
theorem Refines.of_bits {ys : List Bool} (h : Refines b xs) (hs : SameSize b b')
    (hlen : ys.length = xs.length) (hbits : ∀ i < xs.length, ys[i]? = some (b'.bit i)) :
    Refines b' ys :=
  ⟨hs.fits h.fits, by rw [hs.bitCnt, h.cnt, hlen], by rw [hlen]; exact hbits⟩

/-- One bit of the words is one bit of the array. -/
theorem Refines.update (h : Refines b xs) (hs : SameSize b b')
    (hbit : b'.bit = Function.update b.bit i v) (hi : i < xs.length) : Refines b' (xs.set i v) := by
  refine h.of_bits hs List.length_set fun j hj => ?_
  rw [hbit, List.getElem?_set]
  by_cases hij : i = j
  · subst hij
    rw [if_pos rfl, if_pos hi, Function.update_self]
  · rw [if_neg hij, h.bits j hj, Function.update_of_ne (Ne.symm hij)]

/-- `bitmap_set` sets the one bit of the array. -/
theorem Refines.set (h : Refines b xs) (hi : i < xs.length) (v : Bool) :
    ∃ b', bitmapSet b i v = .ok b' ∧ Refines b' (xs.set i v) := by
  obtain ⟨b', hset, hsize, hbit⟩ := bitmapSet_bit h.fits (by rw [h.cnt]; exact hi) v
  exact ⟨b', hset, h.update hsize hbit hi⟩

/-- `bitmap_mark` sets it to true. -/
theorem Refines.mark (h : Refines b xs) (hi : i < xs.length) :
    ∃ b', bitmapMark b i = .ok b' ∧ Refines b' (xs.set i true) := by
  obtain ⟨b', hmark, hsize, hbit⟩ := bitmapMark_bit (h.fits.word (by rw [h.cnt]; exact hi))
  exact ⟨b', hmark, h.update hsize hbit hi⟩

/-- `bitmap_reset` sets it to false. -/
theorem Refines.reset (h : Refines b xs) (hi : i < xs.length) :
    ∃ b', bitmapReset b i = .ok b' ∧ Refines b' (xs.set i false) := by
  obtain ⟨b', hreset, hsize, hbit⟩ := bitmapReset_bit (h.fits.word (by rw [h.cnt]; exact hi))
  exact ⟨b', hreset, h.update hsize hbit hi⟩

/-- `bitmap_flip` turns it over. -/
theorem Refines.flip (h : Refines b xs) (hi : i < xs.length) :
    ∃ b', bitmapFlip b i = .ok b' ∧ Refines b' (xs.modify i not) := by
  obtain ⟨b', hflip, hsize, hbit⟩ := bitmapFlip_bit (h.fits.word (by rw [h.cnt]; exact hi))
  refine ⟨b', hflip, h.of_bits hsize (List.length_modify _ _ _) fun j hj => ?_⟩
  rw [hbit, List.getElem?_modify, h.bits j hj]
  show some (if i = j then !b.bit j else b.bit j) = _
  by_cases hij : i = j
  · subst hij
    rw [if_pos rfl, Function.update_self]
  · rw [if_neg hij, Function.update_of_ne (Ne.symm hij)]

/-- `bitmap_set_multiple` fills the range of the array. -/
theorem Refines.setMultiple (h : Refines b xs) (hin : start + cnt ≤ xs.length) (v : Bool) :
    ∃ b', bitmapSetMultiple b start cnt v = .ok b' ∧ Refines b' (fill xs start cnt v) := by
  obtain ⟨b', hset, hsize, hbits⟩ := bitmapSetMultiple_bit h.fits (by rw [h.cnt]; exact hin) v
  refine ⟨b', hset, h.of_bits hsize (length_fill _ _ _ _) fun j hj => ?_⟩
  rw [getElem?_fill, hbits, h.bits j hj]
  split <;> rfl

/-- `BITMAP_ERROR` is not the number of a bit. -/
theorem Refines.found_ne_error (h : Refines b xs) (hi : Group xs i cnt v) : i ≠ bitmapError := by
  have hsmall := h.fits.small
  have hlen := hi.1
  rw [h.cnt] at hsmall
  show i ≠ 2 ^ 32 - 1
  omega

/-- `bitmap_scan_and_flip` finds a group and makes it the opposite, and touches no other bit of the
storage. -/
theorem bitmapScanAndFlip_some (h : Refines b xs) (hstart : start ≤ xs.length)
    (hscan : Lib.scan xs start cnt v = some i) :
    ∃ b', bitmapScanAndFlip b start cnt v = .ok (i, b') ∧ Refines b' (fill xs i cnt !v) ∧
      SameSize b b' ∧ ∀ j, b'.bit j = if i ≤ j ∧ j < i + cnt then !v else b.bit j := by
  have hgroup : Group xs i cnt v := (scan_eq_some.mp hscan).1.2
  obtain ⟨b', hset, hrefines⟩ := h.setMultiple hgroup.1 !v
  obtain ⟨b₁, hset', hsize, hbits⟩ := bitmapSetMultiple_bit h.fits (by rw [h.cnt]; exact hgroup.1) !v
  cases hset.symm.trans hset'
  refine ⟨b', ?_, hrefines, hsize, hbits⟩
  unfold bitmapScanAndFlip
  rw [h.scan hstart, hscan, bind_ok, Option.getD_some, if_pos (h.found_ne_error hgroup), hset]
  rfl

/-- Where there is no group `bitmap_scan_and_flip` leaves the bits alone. -/
theorem bitmapScanAndFlip_none (h : Refines b xs) (hstart : start ≤ xs.length)
    (hscan : Lib.scan xs start cnt v = none) :
    bitmapScanAndFlip b start cnt v = .ok (bitmapError, b) := by
  unfold bitmapScanAndFlip
  rw [h.scan hstart, hscan, bind_ok, Option.getD_none, if_neg (not_not.mpr rfl)]

/-! ## Sequences of operations -/

inductive BitmapOp where
  | set (idx : Nat) (value : Bool)
  | mark (bitIdx : Nat)
  | reset (bitIdx : Nat)
  | flip (bitIdx : Nat)
  | setMultiple (start cnt : Nat) (value : Bool)
  | scanAndFlip (start cnt : Nat) (value : Bool)
  deriving DecidableEq, Repr

/-- The index or the range is inside. A scan may ask for any number of bits. -/
def BitmapOp.Inside (n : Nat) : BitmapOp → Prop
  | .set i _ | .mark i | .reset i | .flip i => i < n
  | .setMultiple start cnt _ => start + cnt ≤ n
  | .scanAndFlip start _ _ => start ≤ n

/-- What the code does. -/
def BitmapOp.exec (b : Bitmap) : BitmapOp → Except BitmapFault Bitmap
  | .set i v => bitmapSet b i v
  | .mark i => bitmapMark b i
  | .reset i => bitmapReset b i
  | .flip i => bitmapFlip b i
  | .setMultiple start cnt v => bitmapSetMultiple b start cnt v
  | .scanAndFlip start cnt v => do
    let r ← bitmapScanAndFlip b start cnt v
    .ok r.2

/-- What happens to the array. -/
def BitmapOp.apply (xs : List Bool) : BitmapOp → List Bool
  | .set i v => xs.set i v
  | .mark i => xs.set i true
  | .reset i => xs.set i false
  | .flip i => xs.modify i not
  | .setMultiple start cnt v => fill xs start cnt v
  | .scanAndFlip start cnt v =>
    match scan xs start cnt v with
    | some i => fill xs i cnt !v
    | none => xs

/-- No operation changes the number of bits. -/
theorem BitmapOp.length_apply (op : BitmapOp) (xs : List Bool) :
    (op.apply xs).length = xs.length := by
  cases op with
  | set | mark | reset => exact List.length_set
  | flip i => exact List.length_modify _ _ _
  | setMultiple start cnt v => exact length_fill _ _ _ _
  | scanAndFlip start cnt v =>
    unfold apply
    dsimp only
    split
    next => exact length_fill _ _ _ _
    next => rfl

/-- An operation keeps the bitmap and the array together. -/
theorem Refines.exec (h : Refines b xs) (op : BitmapOp) (hin : op.Inside xs.length) :
    ∃ b', op.exec b = .ok b' ∧ Refines b' (op.apply xs) := by
  cases op with
  | set i v => exact h.set hin v
  | mark i => exact h.mark hin
  | reset i => exact h.reset hin
  | flip i => exact h.flip hin
  | setMultiple start cnt v => exact h.setMultiple hin v
  | scanAndFlip start cnt v =>
    unfold BitmapOp.exec BitmapOp.apply
    dsimp only
    cases hscan : Lib.scan xs start cnt v with
    | some i =>
      obtain ⟨b', hflip, hrefines, _⟩ := bitmapScanAndFlip_some h hin hscan
      exact ⟨b', by rw [hflip]; rfl, hrefines⟩
    | none => exact ⟨b, by rw [bitmapScanAndFlip_none h hin hscan]; rfl, h⟩

/-- And so does a sequence of operations. -/
theorem Refines.run : ∀ (ops : List BitmapOp) {b : Bitmap} {xs : List Bool}, Refines b xs →
    (∀ op ∈ ops, op.Inside xs.length) →
      ∃ b', ops.foldlM BitmapOp.exec b = .ok b' ∧ Refines b' (ops.foldl BitmapOp.apply xs)
  | [], b, _, h, _ => ⟨b, rfl, h⟩
  | op :: ops, b, xs, h, hin => by
    obtain ⟨b₁, hexec, h₁⟩ := h.exec op (hin op List.mem_cons_self)
    obtain ⟨b', hrun, h'⟩ := Refines.run ops h₁ fun op' hop => by
      rw [op.length_apply]
      exact hin op' (List.mem_cons_of_mem _ hop)
    refine ⟨b', ?_, h'⟩
    rw [List.foldlM_cons, hexec]
    exact hrun

/-! ## Creation -/

/-- `bitmap_set_all` fills the whole array. -/
theorem bitmapSetAll_refines (h : b.Fits) (v : Bool) :
    ∃ b', bitmapSetAll b v = .ok b' ∧ Refines b' (List.replicate b.bitCnt v) := by
  have hin : 0 + b.bitCnt ≤ b.bitCnt := by omega
  obtain ⟨b', hset, hsize, hbits⟩ := bitmapSetMultiple_bit h hin v
  refine ⟨b', hset, hsize.fits h, by rw [hsize.bitCnt, List.length_replicate], fun i hi => ?_⟩
  rw [List.length_replicate] at hi
  rw [hbits, if_pos (by omega), List.getElem?_replicate, if_pos hi]

/-- The number of words, where the sum does not wrap. -/
theorem elemCnt_eq (h : n + 31 < 2 ^ 32) : elemCnt n = (n + 31) / 32 := by
  unfold elemCnt
  rw [Nat.mod_eq_of_lt h]

/-- The sum of `DIV_ROUND_UP` wraps around to less than a word. -/
theorem elemCnt_wraps (h : n < 2 ^ 32) (hn : ¬ n + 31 < 2 ^ 32) : elemCnt n = 0 := by
  unfold elemCnt
  omega

/-- How a bitmap of `n` bits comes to be. -/
inductive Created (n : Nat) : Bitmap → Prop
  | create {alloc : Bool} {heap : Supply} {b : Bitmap} :
    bitmapCreate alloc heap n = .ok (some b) → Created n b
  | inBuf {words : List UInt32} {b : Bitmap} : bitmapCreateInBuf n words = .ok b → Created n b

/-- Where there are bits but no words, there is nothing to clear the first bit in. -/
theorem bitmapSetAll_nil (h : n < 2 ^ 32) (hn : n ≠ 0) (v : Bool) :
    bitmapSetAll { bitCnt := n, bits := [] } v = .error .outside := by
  obtain ⟨m, rfl⟩ := Nat.exists_eq_succ_of_ne_zero hn
  have hset : ∀ i < m + 1, bitmapSet { bitCnt := m + 1, bits := [] } i v = .error .outside := by
    intro i hi
    unfold bitmapSet
    dsimp only
    rw [if_neg (not_not.mpr hi)]
    cases v <;> rfl
  unfold bitmapSetAll bitmapSetMultiple bitmapSize Bitmap.checkRange
  dsimp only
  rw [if_neg (not_not.mpr (Nat.zero_le _)),
    if_neg (not_not.mpr (by rw [Nat.zero_add, Nat.mod_eq_of_lt h])), bind_ok, List.range_succ_eq_map]
  unfold setLoop
  rw [Nat.zero_add, Nat.zero_mod, hset 0 (Nat.succ_pos m)]
  rfl

/-- A bitmap whose bits have been cleared has the words for them: if the sum has wrapped around there
are none. -/
theorem refines_of_setAll {bits : List UInt32} (h : n < 2 ^ 32) (hlen : bits.length = elemCnt n)
    (hall : bitmapSetAll { bitCnt := n, bits := bits } false = .ok b) :
    Refines b (List.replicate n false) := by
  by_cases hsmall : n + 31 < 2 ^ 32
  · have hfits : Bitmap.Fits { bitCnt := n, bits := bits } := ⟨hsmall, by rw [hlen, elemCnt_eq hsmall]⟩
    obtain ⟨b', hall', hrefines⟩ := bitmapSetAll_refines hfits false
    cases hall.symm.trans hall'
    exact hrefines
  · rw [elemCnt_wraps h hsmall, List.length_eq_zero_iff] at hlen
    subst hlen
    rw [bitmapSetAll_nil h (by omega)] at hall
    cases hall

/-- A new bitmap is all false. -/
theorem Created.refines (h : n < 2 ^ 32) (hb : Created n b) : Refines b (List.replicate n false) := by
  cases hb with
  | @create alloc heap _ hcreate =>
    unfold bitmapCreate at hcreate
    dsimp only at hcreate
    split at hcreate
    next => cases hcreate
    next =>
      split at hcreate
      next hbits =>
        obtain ⟨b₁, hall, heq⟩ := bind_eq_ok.mp hcreate
        cases heq
        refine refines_of_setAll h ?_ hall
        cases hmalloc : heap.malloc (byteCnt n) with
        | none =>
          rw [hmalloc] at hbits
          obtain rfl : n = 0 := hbits.resolve_left (by simp)
          rfl
        | some ws =>
          rw [Option.getD_some, heap.length hmalloc]
          exact Nat.mul_div_cancel_left _ (by decide)
      next => cases hcreate
  | @inBuf words _ hcreate =>
    unfold bitmapCreateInBuf at hcreate
    obtain ⟨hsize, hall⟩ := guard_eq_ok.mp hcreate
    refine refines_of_setAll h ?_ hall
    unfold bitmapBufSize byteCnt at hsize
    rw [List.length_take]
    omega

end Pintos.Kernel
