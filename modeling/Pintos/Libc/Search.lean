import Pintos.Libc.Sort

/-!
# `binary_search`

The search of `lib/stdlib.c`, on a memory of bytes. `compare` is given a key and an element, which
need not be of the same kind: both have a value in `T`, `val` that of an element by its bytes, and
`compare` orders the values. To look at anything but an element is a fault, `outside`.

The loop keeps a range of whole elements (`Narrowed`) with none outside it that compares equal to the
key, and it gets shorter by one element at least (`binaryLoop_ok`). The fuel counts the rounds.
-/

namespace Pintos.Libc

open Pintos.Lib Pintos.Lib.Memory

inductive SearchFault where
  /-- A division by `size`. -/
  | sizeZero
  /-- An element that is not in the array. -/
  | outside
  /-- The fuel is not enough. -/
  | notDone
  deriving DecidableEq, Repr

/-- The bytes that `compare` is given for the element at `p`. -/
def Arr.elementAt (a : Arr) (m : Memory) (p : Nat) : Except SearchFault (List UInt8) :=
  if a.array ≤ p ∧ p + a.size ≤ a.array + a.cnt * a.size then .ok (bytesAt m p a.size)
  else .error .outside

section

variable {T : Type} (compare : T → T → Int) (val : List UInt8 → T) (key : T) (arr : Arr) (m : Memory)

/-- The loop of `binary_search`. A null pointer is 0. -/
def binaryLoop : Nat → Nat → Nat → Except SearchFault Nat
  | 0, _, _ => .error .notDone
  | fuel + 1, first, last =>
    if first < last then
      if arr.size = 0 then .error .sizeZero
      else do
        let range := (last - first) / arr.size
        let middle := (first + range / 2 * arr.size) % 2 ^ 32
        let element ← arr.elementAt m middle
        let cmp := compare key (val element)
        if cmp < 0 then binaryLoop fuel first middle
        else if 0 < cmp then binaryLoop fuel ((middle + arr.size) % 2 ^ 32) last
        else .ok middle
    else .ok 0

/-- `binary_search`. -/
def binarySearch (fuel : Nat) : Except SearchFault Nat :=
  binaryLoop compare val key arr m fuel arr.array ((arr.array + arr.size * arr.cnt % 2 ^ 32) % 2 ^ 32)

/-- `bsearch`: its `compare` goes to `compare_thunk`. -/
def bsearch (fuel : Nat) : Except SearchFault Nat := binarySearch (fun a b => compare a b) val key arr m fuel

end

/-- A `strcmp`-type result that says a total preorder, on any values. -/
structure Orders {T : Type} (compare : T → T → Int) : Prop where
  swap : ∀ a b, compare a b < 0 ↔ 0 < compare b a
  trans : ∀ a b c, compare a b ≤ 0 → compare b c ≤ 0 → compare a c ≤ 0

/-- An order on the elements orders them against each other. -/
theorem Compare.IsOrder.orders {compare : Compare} (h : compare.IsOrder) : Orders compare := ⟨h.swap, h.trans⟩

/-- An array in the address space. The pointer past its last element is one, too, and the array is not
at the null pointer. -/
structure Arr.Valid (a : Arr) : Prop where
  notNull : a.array ≠ 0 ∨ a.cnt = 0
  size : 0 < a.size
  array : a.array < 2 ^ 32
  pastEnd : a.array + a.cnt * a.size < 2 ^ 32

/-- The pointer to an element, from 0 on. -/
def Arr.pointer (a : Arr) (i : Nat) : Nat := a.array + i * a.size

variable {T : Type} {compare : T → T → Int} {val : List UInt8 → T} {key : T} {arr : Arr} {m : Memory}
  {i j k lo hi fuel : Nat}

/-- The value of an element. -/
def valueAt (val : List UInt8 → T) (arr : Arr) (m : Memory) (i : Nat) : T :=
  val (bytesAt m (arr.pointer i) arr.size)

/-- The elements are in order. -/
def SortedArray (compare : T → T → Int) (val : List UInt8 → T) (arr : Arr) (m : Memory) : Prop :=
  ∀ i j, i ≤ j → j < arr.cnt → compare (valueAt val arr m i) (valueAt val arr m j) ≤ 0

/-- An element that compares equal to the key. -/
def IsMatch (compare : T → T → Int) (val : List UInt8 → T) (key : T) (arr : Arr) (m : Memory) (i : Nat) :
    Prop := i < arr.cnt ∧ compare key (valueAt val arr m i) = 0

/-! ## The order -/

/-- What is greater than an element is greater than those before it. -/
theorem Orders.pos_of_le (h : Orders compare) {a b c : T} (hab : compare a b ≤ 0) (hc : 0 < compare c b) :
    0 < compare c a := by
  by_contra hle
  have := h.trans c a b (by omega) hab
  omega

/-- What is smaller is smaller than those behind it. -/
theorem Orders.neg_of_le (h : Orders compare) {a b c : T} (hab : compare a b ≤ 0) (hc : compare c a < 0) :
    compare c b < 0 := by
  rw [h.swap] at hc ⊢
  by_contra hle
  have := h.trans a b c hab (by omega)
  omega

/-! ## The range -/

/-- The elements end with the array. -/
theorem Arr.pointer_le (arr : Arr) (hi : i ≤ arr.cnt) :
    arr.pointer i ≤ arr.array + arr.cnt * arr.size := Nat.add_le_add_left (Nat.mul_le_mul_right _ hi) _

/-- Their addresses do not wrap. -/
theorem Arr.Valid.pointer_lt (h : arr.Valid) (hi : i ≤ arr.cnt) : arr.pointer i < 2 ^ 32 :=
  Nat.lt_of_le_of_lt (arr.pointer_le hi) h.pastEnd

/-- One element lies behind the other. -/
theorem Arr.pointer_succ (arr : Arr) (i : Nat) : arr.pointer (i + 1) = arr.pointer i + arr.size := by
  unfold Arr.pointer
  rw [Nat.succ_mul, Nat.add_assoc]

/-- Addresses are in the order of the elements. -/
theorem Arr.Valid.pointer_lt_iff (h : arr.Valid) : arr.pointer lo < arr.pointer hi ↔ lo < hi :=
  Nat.add_lt_add_iff_left.trans (Nat.mul_lt_mul_right h.size)

/-- At its address an element is read. -/
theorem elementAt_pointer (hi : i < arr.cnt) (m : Memory) :
    arr.elementAt m (arr.pointer i) = .ok (bytesAt m (arr.pointer i) arr.size) := by
  have hnext := arr.pointer_le (show i + 1 ≤ arr.cnt from hi)
  rw [arr.pointer_succ] at hnext
  exact if_pos ⟨Nat.le_add_right _ _, hnext⟩

/-- The middle of a range of whole elements is an element. -/
theorem Arr.Valid.middle (h : arr.Valid) (hle : lo ≤ hi) (hhi : hi ≤ arr.cnt) :
    (arr.pointer lo + (arr.pointer hi - arr.pointer lo) / arr.size / 2 * arr.size) % 2 ^ 32 =
      arr.pointer (lo + (hi - lo) / 2) := by
  have hdiff : arr.pointer hi - arr.pointer lo = (hi - lo) * arr.size := by
    unfold Arr.pointer
    rw [Nat.add_sub_add_left, Nat.sub_mul]
  have hsum : arr.pointer lo + (hi - lo) / 2 * arr.size = arr.pointer (lo + (hi - lo) / 2) := by
    unfold Arr.pointer
    rw [Nat.add_mul, Nat.add_assoc]
  rw [hdiff, Nat.mul_div_cancel _ h.size, hsum]
  exact Nat.mod_eq_of_lt (h.pointer_lt (by omega))

/-- The elements below the range are less than the key, and those above it greater. -/
structure Narrowed (compare : T → T → Int) (val : List UInt8 → T) (key : T) (arr : Arr) (m : Memory)
    (lo hi : Nat) : Prop where
  le : lo ≤ hi
  inside : hi ≤ arr.cnt
  below : ∀ i < lo, 0 < compare key (valueAt val arr m i)
  above : ∀ i, hi ≤ i → i < arr.cnt → compare key (valueAt val arr m i) < 0

/-- What the search may return. -/
def Answers (compare : T → T → Int) (val : List UInt8 → T) (key : T) (arr : Arr) (m : Memory) (p : Nat) :
    Prop :=
  (∃ i, IsMatch compare val key arr m i ∧ p = arr.pointer i ∧ p ≠ 0) ∨
    (p = 0 ∧ ∀ i, ¬IsMatch compare val key arr m i)

/-- The loop narrows the place of the key until it is found or has none. -/
theorem binaryLoop_ok (h : arr.Valid) (ho : Orders compare) (hs : SortedArray compare val arr m) (fuel : Nat) :
    ∀ lo hi, Narrowed compare val key arr m lo hi → hi < fuel + lo →
      ∃ p, binaryLoop compare val key arr m fuel (arr.pointer lo) (arr.pointer hi) = .ok p ∧
        Answers compare val key arr m p := by
  induction fuel with
  | zero =>
    intro lo hi hn hfuel
    have := hn.le
    omega
  | succ fuel ih =>
    intro lo hi hn hfuel
    have hhi := hn.inside
    unfold binaryLoop
    by_cases hlt : lo < hi
    · have hmid : lo + (hi - lo) / 2 < hi := by omega
      generalize hmiddle : lo + (hi - lo) / 2 = mid at hmid
      have hcnt : mid < arr.cnt := by omega
      rw [if_pos (h.pointer_lt_iff.mpr hlt), if_neg (Nat.ne_of_gt h.size)]
      dsimp only
      rw [h.middle hn.le hhi, hmiddle, elementAt_pointer hcnt, bind_ok]
      have hvalue : val (bytesAt m (arr.pointer mid) arr.size) = valueAt val arr m mid := rfl
      rw [hvalue]
      by_cases hneg : compare key (valueAt val arr m mid) < 0
      · -- Nothing from the middle on compares equal.
        rw [if_pos hneg]
        exact ih lo mid ⟨by omega, by omega, hn.below, fun i hi hic =>
          ho.neg_of_le (hs mid i hi hic) hneg⟩ (by omega)
      · rw [if_neg hneg]
        by_cases hpos : 0 < compare key (valueAt val arr m mid)
        · -- Nothing up to the middle does.
          rw [if_pos hpos, ← arr.pointer_succ, Nat.mod_eq_of_lt (h.pointer_lt (by omega))]
          exact ih (mid + 1) hi ⟨by omega, hhi, fun i hi =>
            ho.pos_of_le (hs i mid (by omega) hcnt) hpos, hn.above⟩ (by omega)
        · rw [if_neg hpos]
          have hnull : arr.pointer mid ≠ 0 := by
            have hnotNull := h.notNull.resolve_right (by omega)
            unfold Arr.pointer
            omega
          exact ⟨_, rfl, .inl ⟨mid, ⟨hcnt, by omega⟩, rfl, hnull⟩⟩
    · rw [if_neg fun hp => hlt (h.pointer_lt_iff.mp hp)]
      refine ⟨0, rfl, .inr ⟨rfl, fun i hmatch => ?_⟩⟩
      obtain ⟨hcnt, hzero⟩ := hmatch
      by_cases hbelow : i < lo
      · have := hn.below i hbelow
        omega
      · have := hn.above i (by omega) hcnt
        omega

/-- The search starts with the whole array. -/
theorem binarySearch_answers (h : arr.Valid) (ho : Orders compare) (hs : SortedArray compare val arr m)
    (key : T) (hfuel : arr.cnt < fuel) :
    ∃ p, binarySearch compare val key arr m fuel = .ok p ∧ Answers compare val key arr m p := by
  have hlast : (arr.array + arr.size * arr.cnt % 2 ^ 32) % 2 ^ 32 = arr.pointer arr.cnt := by
    have hpast := h.pastEnd
    rw [Nat.mul_comm, Nat.add_mod_mod]
    exact Nat.mod_eq_of_lt hpast
  have hfirst : arr.array = arr.pointer 0 := by
    unfold Arr.pointer
    rw [Nat.zero_mul, Nat.add_zero]
  have hwhole : Narrowed compare val key arr m 0 arr.cnt :=
    ⟨Nat.zero_le _, Nat.le_refl _, fun i hi => absurd hi (Nat.not_lt_zero i), fun i hle hlt => by omega⟩
  obtain ⟨p, hrun, hans⟩ := binaryLoop_ok h ho hs fuel 0 arr.cnt hwhole (by omega)
  refine ⟨p, ?_, hans⟩
  rw [← hfirst] at hrun
  unfold binarySearch
  rw [hlast]
  exact hrun

/-- `binary_search` and `bsearch` return a pointer to an element that compares equal to the key if there
is one, and a null pointer if there is none. -/
theorem binarySearch_complete (h : arr.Valid) (ho : Orders compare) (hs : SortedArray compare val arr m)
    (key : T) (hfuel : arr.cnt < fuel) :
    ∃ p, binarySearch compare val key arr m fuel = .ok p ∧ bsearch compare val key arr m fuel = .ok p ∧
      ((∃ i, IsMatch compare val key arr m i) →
        p ≠ 0 ∧ ∃ i, IsMatch compare val key arr m i ∧ p = arr.array + i * arr.size) ∧
      ((∀ i, ¬IsMatch compare val key arr m i) → p = 0) := by
  obtain ⟨p, hrun, hans⟩ := binarySearch_answers h ho hs key hfuel
  refine ⟨p, hrun, hrun, fun ⟨i, hmatch⟩ => ?_, fun hnone => ?_⟩
  · rcases hans with ⟨j, hj, hp, hne⟩ | ⟨-, hnone⟩
    · exact ⟨hne, j, hj, hp⟩
    · exact absurd hmatch (hnone i)
  · rcases hans with ⟨j, hj, -, -⟩ | ⟨hp, -⟩
    · exact absurd hj (hnone j)
    · exact hp

/-- The third of four bytes in order. -/
theorem binarySearch_complete_third :
    ∃ p, binarySearch (fun a b : Nat => (a : Int) - b) (fun bytes => (bytes.headD 0).toNat) 30 ⟨1000, 4, 1⟩
      (fun p => UInt8.ofNat (10 * (p - 999))) 5 = .ok p ∧ p ≠ 0 := by
  have horders : Orders fun a b : Nat => (a : Int) - b :=
    ⟨fun a b => by omega, fun a b c hab hbc => by omega⟩
  have hsorted : SortedArray (fun a b : Nat => (a : Int) - b) (fun bytes => (bytes.headD 0).toNat)
      ⟨1000, 4, 1⟩ (fun p => UInt8.ofNat (10 * (p - 999))) := by
    intro i j hij hj
    have hj : j < 4 := hj
    have hbyte : ∀ k < 4, valueAt (fun bytes => (bytes.headD 0).toNat) ⟨1000, 4, 1⟩
        (fun p => UInt8.ofNat (10 * (p - 999))) k = 10 * (k + 1) := by decide
    rw [hbyte i (by omega), hbyte j hj]
    show ((10 * (i + 1) : Nat) : Int) - (10 * (j + 1) : Nat) ≤ 0
    omega
  obtain ⟨p, hrun, -, hfound, -⟩ := binarySearch_complete
    (show Arr.Valid ⟨1000, 4, 1⟩ from ⟨by decide, by decide, by decide, by decide⟩) horders hsorted 30
    (show 4 < 5 by decide)
  exact ⟨p, hrun, (hfound ⟨2, ⟨by decide, by decide⟩⟩).1⟩

/-! ## After `qsort` -/

theorem elements_eq_map (arr : Arr) (m : Memory) :
    arr.elements m = (List.range arr.cnt).map (valueAt id arr m) := by
  unfold Arr.elements
  rw [List.range'_eq_map_range, List.map_map]
  refine List.map_congr_left fun i _ => ?_
  rw [Function.comp_apply, Nat.add_comm, element_succ]
  rfl

/-- The elements of `sort`, in order, are an array for `binary_search`. -/
theorem sortedArray_of_pairwise {compare : Compare} (ho : Orders compare)
    (hs : (arr.elements m).Pairwise compare.le) : SortedArray compare id arr m := by
  intro i j hij hj
  rw [elements_eq_map, List.pairwise_map] at hs
  rcases Nat.lt_or_eq_of_le hij with hlt | rfl
  · have hle := List.pairwise_iff_getElem.mp hs i j (by rw [List.length_range]; omega)
      (by rw [List.length_range]; omega) hlt
    rw [List.getElem_range, List.getElem_range] at hle
    exact hle
  · have := ho.swap (valueAt id arr m i) (valueAt id arr m i)
    omega

/-- There is a match if an element compares equal. -/
theorem exists_match_iff {compare : Compare} {key : List UInt8} :
    (∃ i, IsMatch compare id key arr m i) ↔ ∃ e ∈ arr.elements m, compare key e = 0 := by
  rw [elements_eq_map]
  constructor
  · rintro ⟨i, hi, hzero⟩
    exact ⟨_, List.mem_map_of_mem (List.mem_range.mpr hi), hzero⟩
  · rintro ⟨e, he, hzero⟩
    obtain ⟨i, hi, rfl⟩ := List.mem_map.mp he
    exact ⟨i, List.mem_range.mp hi, hzero⟩

/-- What `bsearch` finds after `qsort` is what the array had before. -/
theorem bsearch_after_qsort {compare : Compare} (hc : compare.IsOrder) (h : arr.Valid)
    (hsmall : arr.cnt < 2 ^ 31) (m : Memory) (key : List UInt8) :
    ∃ fuel m' p, qsort arr compare fuel m = .ok m' ∧
      bsearch compare id key arr m' (arr.cnt + 1) = .ok p ∧
      (p ≠ 0 ↔ ∃ e ∈ arr.elements m, compare key e = 0) := by
  obtain ⟨fuel, m', -, hqsort, hperm, hsorted, -⟩ := sorts_of_lt
    ⟨h.notNull, h.size, Nat.le_of_lt h.pastEnd⟩ hsmall compare m hc
  obtain ⟨p, hrun, hans⟩ := binarySearch_answers h hc.orders
    (sortedArray_of_pairwise hc.orders hsorted) key (Nat.lt_succ_self arr.cnt)
  refine ⟨fuel, m', p, hqsort, hrun, ?_⟩
  have hmem : (∃ e ∈ arr.elements m, compare key e = 0) ↔ ∃ e ∈ arr.elements m', compare key e = 0 :=
    exists_congr fun e => and_congr_left fun _ => hperm.mem_iff.symm
  rw [hmem, ← exists_match_iff]
  rcases hans with ⟨i, hi, -, hne⟩ | ⟨hnull, hnone⟩
  · exact ⟨fun _ => ⟨i, hi⟩, fun _ => hne⟩
  · exact ⟨fun hne => absurd hnull hne, fun ⟨i, hi⟩ => absurd hi (hnone i)⟩

end Pintos.Libc
