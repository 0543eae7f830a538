import Pintos.Lib.Fallible
import Pintos.Lib.HeapOrder
import Pintos.Lib.WordMemory

/-!
# `sort`

The heap sort of `lib/stdlib.c`, on a memory of bytes. A `size_t` has 32 bits, so that indexes and
addresses wrap around. `compare` is given the bytes of two elements; to look at or write to any other
bytes is a fault, `outside`.

The loop of `heapify` has fuel, which counts its rounds.
-/

namespace Pintos.Libc

open Pintos.Lib Pintos.Lib.Memory

inductive SortFault where
  /-- `array != NULL || cnt == 0`. -/
  | arrayNull
  /-- `size > 0`. -/
  | sizeZero
  /-- An element that is not in the array. -/
  | outside
  /-- The fuel is not enough. -/
  | notDone
  deriving DecidableEq, Repr

/-- The arguments of `sort` that say where the array is. -/
structure Arr where
  array : Nat
  cnt : Nat
  size : Nat
  deriving DecidableEq, Repr

/-- What `compare` says of two elements, by their bytes. -/
abbrev Compare := List UInt8 → List UInt8 → Int

/-- `array + (idx - 1) * size`. -/
def Arr.address (a : Arr) (idx : Nat) : Except SortFault Nat :=
  let p := (a.array + (idx + (2 ^ 32 - 1)) % 2 ^ 32 * a.size) % 2 ^ 32
  if a.array ≤ p ∧ p + a.size ≤ a.array + a.cnt * a.size then .ok p else .error .outside

/-- `size` bytes at an address. -/
def bytesAt (m : Memory) (p size : Nat) : List UInt8 := (List.range size).map fun i => m (p + i)

/-- The loop of `do_swap`. -/
def swapLoop (a b : Nat) : List Nat → Memory → Memory
  | [], m => m
  | i :: is, m =>
    let t := m (a + i)
    let m := Function.update m (a + i) (m (b + i))
    let m := Function.update m (b + i) t
    swapLoop a b is m

/-- `do_swap`. -/
def doSwap (arr : Arr) (aIdx bIdx : Nat) (m : Memory) : Except SortFault Memory := do
  let a ← arr.address aIdx
  let b ← arr.address bIdx
  .ok (swapLoop a b (List.range arr.size) m)

/-- `do_compare`. -/
def doCompare (arr : Arr) (compare : Compare) (aIdx bIdx : Nat) (m : Memory) :
    Except SortFault Int := do
  let a ← arr.address aIdx
  let b ← arr.address bIdx
  .ok (compare (bytesAt m a arr.size) (bytesAt m b arr.size))

/-- One of the two comparisons of `heapify`. -/
def largerOf (arr : Arr) (compare : Compare) (child max cnt : Nat) (m : Memory) :
    Except SortFault Nat :=
  if child ≤ cnt then do
    let c ← doCompare arr compare child max m
    .ok (if 0 < c then child else max)
  else .ok max

/-- `heapify`. -/
def heapify (arr : Arr) (compare : Compare) : Nat → Nat → Nat → Memory → Except SortFault Memory
  | 0, _, _, _ => .error .notDone
  | fuel + 1, i, cnt, m => do
    let left := 2 * i % 2 ^ 32
    let right := (2 * i + 1) % 2 ^ 32
    let max ← largerOf arr compare left i cnt m
    let max ← largerOf arr compare right max cnt m
    if max = i then .ok m
    else do
      let m ← doSwap arr i max m
      heapify arr compare fuel max cnt m

/-- The first loop of `sort`, from `i` down. -/
def buildLoop (arr : Arr) (compare : Compare) (fuel : Nat) : Nat → Memory → Except SortFault Memory
  | 0, m => .ok m
  | i + 1, m => do
    let m ← heapify arr compare fuel (i + 1) arr.cnt m
    buildLoop arr compare fuel i m

/-- The second loop of `sort`, from `i` down. -/
def sortLoop (arr : Arr) (compare : Compare) (fuel : Nat) : Nat → Memory → Except SortFault Memory
  | 0, m => .ok m
  | 1, m => .ok m
  | i + 2, m => do
    let m ← doSwap arr 1 (i + 2) m
    let m ← heapify arr compare fuel 1 (i + 1) m
    sortLoop arr compare fuel (i + 1) m

/-- `sort`. -/
def sort (arr : Arr) (compare : Compare) (fuel : Nat) (m : Memory) : Except SortFault Memory :=
  if ¬(arr.array ≠ 0 ∨ arr.cnt = 0) then .error .arrayNull
  else if arr.size = 0 then .error .sizeZero
  else do
    let m ← buildLoop arr compare fuel (arr.cnt / 2) m
    sortLoop arr compare fuel arr.cnt m

/-- `qsort`: its `compare` goes to `compare_thunk`. -/
def qsort (arr : Arr) (compare : Compare) (fuel : Nat) (m : Memory) : Except SortFault Memory :=
  sort arr (fun a b => compare a b) fuel m

variable {arr : Arr} {compare : Compare} {m m' : Memory} {i j k cnt fuel : Nat}

/-! ## Elements -/

/-- The element at a position, from 1 on. -/
def Arr.element (a : Arr) (m : Memory) (k : Nat) : List UInt8 :=
  if k = 0 then [] else bytesAt m (a.array + (k - 1) * a.size) a.size

/-- The elements in order. -/
def Arr.elements (a : Arr) (m : Memory) : List (List UInt8) := (List.range' 1 a.cnt).map (a.element m)

/-- The array fits in the address space. -/
structure Arr.Fits (a : Arr) : Prop where
  notNull : a.array ≠ 0 ∨ a.cnt = 0
  size : 0 < a.size
  room : a.array + a.cnt * a.size ≤ 2 ^ 32

/-- A `strcmp`-type result that says a total preorder. -/
structure Compare.IsOrder (compare : Compare) : Prop where
  swap : ∀ a b, compare a b < 0 ↔ 0 < compare b a
  trans : ∀ a b c, compare a b ≤ 0 → compare b c ≤ 0 → compare a c ≤ 0

/-- What the function does not find greater is a total preorder. -/
theorem Compare.IsOrder.preorder (h : compare.IsOrder) : TotalPreorder fun a b => compare a b ≤ 0 where
  total := fun a b => by
    have := h.swap b a
    omega
  trans := fun {a b c} => h.trans a b c

/-- Elements are counted from 1. -/
theorem element_succ (arr : Arr) (m : Memory) (k : Nat) :
    arr.element m (k + 1) = bytesAt m (arr.array + k * arr.size) arr.size := if_neg (Nat.succ_ne_zero k)

/-- The address of an element. -/
theorem Arr.Fits.address (h : arr.Fits) (hk : 1 ≤ k) (hle : k ≤ arr.cnt) :
    arr.address k = .ok (arr.array + (k - 1) * arr.size) := by
  have hroom := h.room
  have hsize := h.size
  have hcnt : arr.cnt ≤ arr.cnt * arr.size := Nat.le_mul_of_pos_right _ hsize
  have hin : (k - 1) * arr.size + arr.size ≤ arr.cnt * arr.size := by
    rw [← Nat.succ_mul]
    exact Nat.mul_le_mul_right _ (by omega)
  have hidx : (k + (2 ^ 32 - 1)) % 2 ^ 32 = k - 1 := by omega
  have hp : (arr.array + (k - 1) * arr.size) % 2 ^ 32 = arr.array + (k - 1) * arr.size :=
    Nat.mod_eq_of_lt (by omega)
  unfold Arr.address
  rw [hidx, hp]
  exact if_pos ⟨by omega, by omega⟩

/-- Elements do not overlap. -/
theorem elements_apart (size : Nat) (hne : i ≠ j) :
    i * size + size ≤ j * size ∨ j * size + size ≤ i * size := by
  rcases Nat.lt_or_gt_of_ne hne with hlt | hlt
  · exact .inl ((Nat.succ_mul i size).symm.le.trans (Nat.mul_le_mul_right size hlt))
  · exact .inr ((Nat.succ_mul j size).symm.le.trans (Nat.mul_le_mul_right size hlt))

/-! ## `do_swap` -/

/-- The loop exchanges bytes one by one. -/
theorem swapLoop_spec {a b n : Nat} (hab : a + n ≤ b ∨ b + n ≤ a) (is : List Nat) : ∀ m : Memory,
    is.Nodup → (∀ i ∈ is, i < n) →
    (∀ i ∈ is, swapLoop a b is m (a + i) = m (b + i) ∧ swapLoop a b is m (b + i) = m (a + i)) ∧
      ∀ p, (∀ i ∈ is, p ≠ a + i ∧ p ≠ b + i) → swapLoop a b is m p = m p := by
  induction is with
  | nil => exact fun m _ _ => ⟨fun i hi => absurd hi List.not_mem_nil, fun p _ => rfl⟩
  | cons i is ih =>
    intro m hnodup hlt
    obtain ⟨hi, hnodup⟩ := List.nodup_cons.mp hnodup
    have hin := hlt i List.mem_cons_self
    obtain ⟨hswap, hrest⟩ := ih (Function.update (Function.update m (a + i) (m (b + i))) (b + i) (m (a + i)))
      hnodup fun j hj => hlt j (List.mem_cons_of_mem i hj)
    unfold swapLoop
    have hother : ∀ p, p ≠ a + i → p ≠ b + i →
        Function.update (Function.update m (a + i) (m (b + i))) (b + i) (m (a + i)) p = m p := by
      intro p hpa hpb
      rw [Function.update_of_ne hpb, Function.update_of_ne hpa]
    have hfirst : Function.update (Function.update m (a + i) (m (b + i))) (b + i) (m (a + i)) (a + i) =
        m (b + i) := by
      rw [Function.update_of_ne (by omega), Function.update_self]
    have hout : ∀ j ∈ is, a + i ≠ a + j ∧ a + i ≠ b + j ∧ b + i ≠ a + j ∧ b + i ≠ b + j := by
      intro j hj
      have hjlt := hlt j (List.mem_cons_of_mem i hj)
      have hne : j ≠ i := fun heq => hi (heq ▸ hj)
      omega
    refine ⟨fun j hj => ?_, fun p hp => ?_⟩
    · rcases List.mem_cons.mp hj with rfl | hj
      · refine ⟨(hrest _ fun j hj => ⟨(hout j hj).1, (hout j hj).2.1⟩).trans hfirst, ?_⟩
        exact (hrest _ fun j hj => (hout j hj).2.2).trans (Function.update_self _ _ _)
      · obtain ⟨ha, hb⟩ := hswap j hj
        obtain ⟨h₁, h₂, h₃, h₄⟩ := hout j hj
        exact ⟨ha.trans (hother _ h₂.symm h₄.symm), hb.trans (hother _ h₁.symm h₃.symm)⟩
    · have hpi := hp i List.mem_cons_self
      exact (hrest p fun j hj => hp j (List.mem_cons_of_mem i hj)).trans (hother p hpi.1 hpi.2)

/-- Memory outside the array is as it was. -/
def Arr.Untouched (a : Arr) (m m' : Memory) : Prop :=
  ∀ p, p < a.array ∨ a.array + a.cnt * a.size ≤ p → m' p = m p

/-- What two steps leave outside the array they leave together. -/
theorem Arr.Untouched.trans {m'' : Memory} (h : arr.Untouched m m') (h' : arr.Untouched m' m'') :
    arr.Untouched m m'' := fun p hp => (h' p hp).trans (h p hp)

/-- `do_swap` exchanges two elements. -/
theorem doSwap_ok (h : arr.Fits) (hi : 1 ≤ i ∧ i ≤ arr.cnt) (hj : 1 ≤ j ∧ j ≤ arr.cnt) (hne : i ≠ j)
    (m : Memory) : ∃ m', doSwap arr i j m = .ok m' ∧
      arr.element m' = arr.element m ∘ Equiv.swap i j ∧ arr.Untouched m m' := by
  have hend : ∀ k, k ≤ arr.cnt → 1 ≤ k → (k - 1) * arr.size + arr.size ≤ arr.cnt * arr.size := by
    intro k hk hpos
    rw [← Nat.succ_mul]
    exact Nat.mul_le_mul_right _ (by omega)
  have hapart := elements_apart arr.size (show i - 1 ≠ j - 1 by omega)
  obtain ⟨hswap, hrest⟩ := swapLoop_spec (a := arr.array + (i - 1) * arr.size)
    (b := arr.array + (j - 1) * arr.size) (n := arr.size) (by omega) (List.range arr.size) m
    List.nodup_range fun k hk => List.mem_range.mp hk
  refine ⟨_, ?_, ?_, fun p hp => hrest p fun k hk => ?_⟩
  · unfold doSwap
    rw [h.address hi.1 hi.2, bind_ok, h.address hj.1 hj.2, bind_ok]
  · funext k
    rw [Function.comp_apply]
    by_cases hki : k = i
    · rw [hki, Equiv.swap_apply_left]
      unfold Arr.element
      rw [if_neg (by omega), if_neg (by omega)]
      exact List.map_congr_left fun b hb => (hswap b hb).1
    · by_cases hkj : k = j
      · rw [hkj, Equiv.swap_apply_right]
        unfold Arr.element
        rw [if_neg (by omega), if_neg (by omega)]
        exact List.map_congr_left fun b hb => (hswap b hb).2
      · rw [Equiv.swap_apply_of_ne_of_ne hki hkj]
        unfold Arr.element
        by_cases hzero : k = 0
        · rw [if_pos hzero, if_pos hzero]
        · rw [if_neg hzero, if_neg hzero]
          refine List.map_congr_left fun b hb => hrest _ fun c hc => ?_
          have hb := List.mem_range.mp hb
          have hc := List.mem_range.mp hc
          have hapart₁ := elements_apart arr.size (show k - 1 ≠ i - 1 by omega)
          have hapart₂ := elements_apart arr.size (show k - 1 ≠ j - 1 by omega)
          omega
  · have hk := List.mem_range.mp hk
    have hendi := hend i hi.2 hi.1
    have hendj := hend j hj.2 hj.1
    omega

/-- Two elements of the array can be compared. -/
theorem doCompare_ok (h : arr.Fits) (hi : 1 ≤ i ∧ i ≤ arr.cnt) (hj : 1 ≤ j ∧ j ≤ arr.cnt)
    (m : Memory) : doCompare arr compare i j m = .ok (compare (arr.element m i) (arr.element m j)) := by
  unfold doCompare Arr.element
  rw [h.address hi.1 hi.2, bind_ok, h.address hj.1 hj.2, bind_ok, if_neg (by omega),
    if_neg (by omega)]

/-! ## `heapify` -/

/-- The larger of an element and a child is found, if there is the child. -/
theorem largerOf_ok (compare : Compare) (h : arr.Fits) (hcnt : cnt ≤ arr.cnt) (hi : 1 ≤ i) (hj : 1 ≤ j ∧ j ≤ arr.cnt)
    (m : Memory) : ∃ k, largerOf arr compare i j cnt m = .ok k ∧
      ((k = j ∧ (i ≤ cnt → compare (arr.element m i) (arr.element m j) ≤ 0)) ∨
        (k = i ∧ i ≤ cnt ∧ 0 < compare (arr.element m i) (arr.element m j))) := by
  unfold largerOf
  by_cases hle : i ≤ cnt
  · rw [if_pos hle, doCompare_ok h ⟨hi, by omega⟩ hj, bind_ok]
    by_cases hpos : 0 < compare (arr.element m i) (arr.element m j)
    · rw [if_pos hpos]
      exact ⟨i, rfl, .inr ⟨rfl, hle, hpos⟩⟩
    · rw [if_neg hpos]
      exact ⟨j, rfl, .inl ⟨rfl, fun _ => by omega⟩⟩
  · rw [if_neg hle]
    exact ⟨j, rfl, .inl ⟨rfl, fun hin => absurd hin hle⟩⟩

/-- The order that `compare` says. -/
def Compare.le (compare : Compare) (a b : List UInt8) : Prop := compare a b ≤ 0

theorem Compare.IsOrder.totalPreorder (h : compare.IsOrder) : TotalPreorder compare.le := h.preorder

/-- A greater one is not smaller. -/
theorem Compare.IsOrder.le_of_pos (h : compare.IsOrder) {a b : List UInt8} (hab : 0 < compare a b) :
    compare.le b a := Int.le_of_lt ((h.swap b a).mpr hab)

/-- The largest of an element and its children. -/
theorem largest_ok (h : arr.Fits) (hc : compare.IsOrder) (hsmall : arr.cnt < 2 ^ 31)
    (hcnt : cnt ≤ arr.cnt) (hi : 1 ≤ i) (hle : i ≤ cnt) (m : Memory) :
    ∃ k₁ k₂, largerOf arr compare (2 * i % 2 ^ 32) i cnt m = .ok k₁ ∧
      largerOf arr compare ((2 * i + 1) % 2 ^ 32) k₁ cnt m = .ok k₂ ∧
      ((k₂ = i ∧ Above compare.le (arr.element m) cnt i) ∨
        (IsChild k₂ i ∧ k₂ ≤ cnt ∧ compare.le (arr.element m i) (arr.element m k₂) ∧
          ∀ c, IsChild c i → c ≤ cnt → compare.le (arr.element m c) (arr.element m k₂))) := by
  have hpre := hc.totalPreorder
  have hleft : 2 * i % 2 ^ 32 = 2 * i := Nat.mod_eq_of_lt (by omega)
  have hright : (2 * i + 1) % 2 ^ 32 = 2 * i + 1 := Nat.mod_eq_of_lt (by omega)
  rw [hleft, hright]
  obtain ⟨k₁, hk₁, hcase₁⟩ := largerOf_ok compare h hcnt (show 1 ≤ 2 * i by omega)
    (show 1 ≤ i ∧ i ≤ arr.cnt by omega) m
  have hk₁in : 1 ≤ k₁ ∧ k₁ ≤ arr.cnt := by omega
  obtain ⟨k₂, hk₂, hcase₂⟩ := largerOf_ok compare h hcnt (show 1 ≤ 2 * i + 1 by omega)
    hk₁in m
  refine ⟨k₁, k₂, hk₁, hk₂, ?_⟩
  rcases hcase₁ with ⟨rfl, hleast⟩ | ⟨rfl, hin, hgt⟩
  · rcases hcase₂ with ⟨rfl, hleast'⟩ | ⟨rfl, hin', hgt'⟩
    · refine .inl ⟨rfl, fun c hchild hcle => ?_⟩
      rcases hchild with rfl | rfl
      · exact hleast hcle
      · exact hleast' hcle
    · have hup := hc.le_of_pos hgt'
      refine .inr ⟨.inr rfl, hin', hup, fun c hchild hcle => ?_⟩
      rcases hchild with rfl | rfl
      · exact hpre.trans (hleast hcle) hup
      · exact hpre.refl _
  · have hup := hc.le_of_pos hgt
    rcases hcase₂ with ⟨rfl, hleast'⟩ | ⟨rfl, hin', hgt'⟩
    · refine .inr ⟨.inl rfl, hin, hup, fun c hchild hcle => ?_⟩
      rcases hchild with rfl | rfl
      · exact hpre.refl _
      · exact hleast' hcle
    · have hup' := hc.le_of_pos hgt'
      refine .inr ⟨.inr rfl, hin', hpre.trans hup hup', fun c hchild hcle => ?_⟩
      rcases hchild with rfl | rfl
      · exact hup'
      · exact hpre.refl _

/-- `heapify` takes an element down to where it belongs. -/
theorem heapify_ok {lo : Nat} (h : arr.Fits) (hc : compare.IsOrder) (hsmall : arr.cnt < 2 ^ 31)
    (hcnt : cnt ≤ arr.cnt) (fuel : Nat) : ∀ (i : Nat) (m : Memory), 1 ≤ i → lo ≤ i → i ≤ cnt →
    cnt < fuel + i → SiftingAt compare.le (arr.element m) lo cnt i →
    ∃ m' f, heapify arr compare fuel i cnt m = .ok m' ∧ Within cnt f ∧
      arr.element m' = arr.element m ∘ f ∧ HeapFrom compare.le (arr.element m') lo cnt ∧
      arr.Untouched m m' := by
  induction fuel with
  | zero =>
    intro i m _ _ hle hfuel
    omega
  | succ fuel ih =>
    intro i m hi hlo hle hfuel hsift
    obtain ⟨k₁, k₂, hk₁, hk₂, hcase⟩ := largest_ok h hc hsmall hcnt hi hle m
    unfold heapify
    dsimp only
    rw [hk₁, bind_ok, hk₂, bind_ok]
    rcases hcase with ⟨rfl, habove⟩ | ⟨hchild, hkle, hmax, hother⟩
    · rw [if_pos rfl]
      exact ⟨m, Equiv.refl Nat, rfl, within_refl, rfl, hsift.finish habove, fun p _ => rfl⟩
    · have hlt := hchild.lt (by omega)
      obtain ⟨m₁, hswap, hel, hun⟩ := doSwap_ok h (show 1 ≤ i ∧ i ≤ arr.cnt by omega)
        (show 1 ≤ k₂ ∧ k₂ ≤ arr.cnt by omega) (by omega) m
      have hsift' : SiftingAt compare.le (arr.element m₁) lo cnt k₂ := by
        rw [hel]
        exact hsift.swap hlo (by omega) hchild hkle hmax hother
      obtain ⟨m', f, hrun, hf, hel', hheap, hun'⟩ := ih k₂ m₁ (by omega) (by omega) hkle (by omega) hsift'
      rw [if_neg (by omega), hswap, bind_ok]
      refine ⟨m', f.trans (Equiv.swap i k₂), hrun,
        hf.trans (within_swap (by omega) (by omega)), ?_, hheap, hun.trans hun'⟩
      rw [hel', hel]
      rfl

/-! ## The two loops -/

/-- The first loop makes the array a heap. -/
theorem buildLoop_ok (h : arr.Fits) (hc : compare.IsOrder) (hsmall : arr.cnt < 2 ^ 31) (fuel : Nat)
    (hfuel : arr.cnt < fuel) (i : Nat) : ∀ m : Memory, i ≤ arr.cnt →
    HeapFrom compare.le (arr.element m) (i + 1) arr.cnt →
    ∃ m' f, buildLoop arr compare fuel i m = .ok m' ∧ Within arr.cnt f ∧
      arr.element m' = arr.element m ∘ f ∧ HeapFrom compare.le (arr.element m') 1 arr.cnt ∧
      arr.Untouched m m' := by
  induction i with
  | zero => exact fun m _ hheap => ⟨m, Equiv.refl Nat, rfl, within_refl, rfl, hheap, fun p _ => rfl⟩
  | succ i ih =>
    intro m hi hheap
    obtain ⟨m₁, f, hrun, hf, hel, hheap₁, hun⟩ := heapify_ok h hc hsmall (Nat.le_refl _) fuel (i + 1) m
      (by omega) (Nat.le_refl _) hi (by omega) (hheap.sifting (by omega))
    obtain ⟨m', g, hrest, hg, hel', hheap', hun'⟩ := ih m₁ (by omega) hheap₁
    unfold buildLoop
    rw [hrun, bind_ok]
    refine ⟨m', g.trans f, hrest, hg.trans hf, ?_, hheap', hun.trans hun'⟩
    rw [hel', hel]
    rfl

/-- The elements behind the heap are sorted, and no smaller than those in it. -/
structure SortedFrom (le : List UInt8 → List UInt8 → Prop) (x : Nat → List UInt8) (n i : Nat) : Prop where
  sorted : ∀ k l, i < k → k ≤ l → l ≤ n → le (x k) (x l)
  above : ∀ k l, 1 ≤ k → k ≤ i → i < l → l ≤ n → le (x k) (x l)

/-- The largest element goes behind the heap. -/
theorem SortedFrom.pop {le : List UInt8 → List UInt8 → Prop} {x : Nat → List UInt8} {n : Nat}
    (hle : TotalPreorder le) (hheap : HeapFrom le x 1 (i + 2)) (h : SortedFrom le x n (i + 2))
    {f : Equiv.Perm Nat} (hf : Within (i + 1) f) :
    SortedFrom le ((x ∘ Equiv.swap 1 (i + 2)) ∘ f) n (i + 1) := by
  have hroot := hheap.root hle
  have hlast : ((x ∘ Equiv.swap 1 (i + 2)) ∘ f) (i + 2) = x 1 := by
    rw [Function.comp_apply, hf _ (.inr (by omega)), Function.comp_apply, Equiv.swap_apply_right]
  have hbehind : ∀ k, i + 2 < k → ((x ∘ Equiv.swap 1 (i + 2)) ∘ f) k = x k := by
    intro k hk
    rw [Function.comp_apply, hf _ (.inr (by omega)), Function.comp_apply,
      Equiv.swap_apply_of_ne_of_ne (by omega) (by omega)]
  have hfront : ∀ k, 1 ≤ k → k ≤ i + 1 → ∃ j, 1 ≤ j ∧ j ≤ i + 2 ∧
      ((x ∘ Equiv.swap 1 (i + 2)) ∘ f) k = x j := by
    intro k hk hkle
    have hin := hf.inside ⟨hk, hkle⟩
    have hswap : Within (i + 2) (Equiv.swap 1 (i + 2)) := within_swap (by omega) (by omega)
    have hmoved := hswap.inside (k := f k) (by omega)
    exact ⟨Equiv.swap 1 (i + 2) (f k), hmoved.1, hmoved.2, rfl⟩
  constructor
  case sorted =>
    intro k l hk hkl hl
    by_cases hke : k = i + 2
    · by_cases hle' : l = i + 2
      · rw [hke, hle']
        exact hle.refl _
      · rw [hke, hlast, hbehind l (by omega)]
        exact h.above 1 l (by omega) (by omega) (by omega) hl
    · rw [hbehind k (by omega), hbehind l (by omega)]
      exact h.sorted k l (by omega) hkl hl
  case above =>
    intro k l hk hki hl hln
    obtain ⟨j, hj, hji, heq⟩ := hfront k hk hki
    rw [heq]
    by_cases hle' : l = i + 2
    · rw [hle', hlast]
      exact hroot j hj hji
    · rw [hbehind l (by omega)]
      exact h.above j l hj hji (by omega) hln

/-- The second loop sorts the heap. -/
theorem sortLoop_ok (h : arr.Fits) (hc : compare.IsOrder) (hsmall : arr.cnt < 2 ^ 31) (fuel : Nat)
    (hfuel : arr.cnt < fuel) (i : Nat) : ∀ m : Memory, i ≤ arr.cnt →
    HeapFrom compare.le (arr.element m) 1 i → SortedFrom compare.le (arr.element m) arr.cnt i →
    ∃ m' f, sortLoop arr compare fuel i m = .ok m' ∧ Within arr.cnt f ∧
      arr.element m' = arr.element m ∘ f ∧ SortedFrom compare.le (arr.element m') arr.cnt 0 ∧
      arr.Untouched m m' := by
  have hpre := hc.totalPreorder
  have hdone : ∀ m : Memory, SortedFrom compare.le (arr.element m) arr.cnt 1 →
      SortedFrom compare.le (arr.element m) arr.cnt 0 := by
    intro m hs
    refine ⟨fun k l hk hkl hl => ?_, fun k l hk hki => absurd hki (by omega)⟩
    by_cases hone : k = 1
    · by_cases hl1 : l = 1
      · rw [hone, hl1]
        exact hpre.refl _
      · exact hs.above k l (by omega) (by omega) (by omega) hl
    · exact hs.sorted k l (by omega) hkl hl
  induction i using Nat.strongRecOn with
  | _ i ih =>
    intro m hi hheap hs
    match i with
    | 0 => exact ⟨m, Equiv.refl Nat, rfl, within_refl, rfl, hs, fun p _ => rfl⟩
    | 1 => exact ⟨m, Equiv.refl Nat, rfl, within_refl, rfl, hdone m hs, fun p _ => rfl⟩
    | i + 2 =>
      obtain ⟨m₁, hswap, hel₁, hun₁⟩ := doSwap_ok h (show 1 ≤ 1 ∧ 1 ≤ arr.cnt by omega)
        (show 1 ≤ i + 2 ∧ i + 2 ≤ arr.cnt by omega) (by omega) m
      have hsift : SiftingAt compare.le (arr.element m₁) 1 (i + 1) 1 := by
        rw [hel₁]
        exact hheap.sifting_root
      obtain ⟨m₂, f, hrun, hf, hel₂, hheap₂, hun₂⟩ := heapify_ok h hc hsmall
        (show i + 1 ≤ arr.cnt by omega) fuel 1 m₁ (Nat.le_refl 1) (Nat.le_refl 1) (by omega) (by omega)
        hsift
      have hs₂ : SortedFrom compare.le (arr.element m₂) arr.cnt (i + 1) := by
        rw [hel₂, hel₁]
        exact hs.pop hpre hheap hf
      obtain ⟨m', g, hrest, hg, hel', hs', hun'⟩ := ih (i + 1) (by omega) m₂ (by omega) hheap₂ hs₂
      unfold sortLoop
      rw [hswap, bind_ok, hrun, bind_ok]
      refine ⟨m', g.trans (f.trans (Equiv.swap 1 (i + 2))), hrest,
        hg.trans ((hf.mono (by omega)).trans (within_swap (by omega) (by omega))), ?_, hs',
        (hun₁.trans hun₂).trans hun'⟩
      rw [hel', hel₂, hel₁]
      rfl

/-! ## The array is sorted -/

/-- Whatever is in the array and however it is compared, it is sorted, and nothing else is touched. -/
def Sorts (arr : Arr) : Prop := ∀ (compare : Compare) (m : Memory), compare.IsOrder →
  ∃ fuel m', sort arr compare fuel m = .ok m' ∧ qsort arr compare fuel m = .ok m' ∧
    (arr.elements m').Perm (arr.elements m) ∧ (arr.elements m').Pairwise compare.le ∧
    arr.Untouched m m'

/-- Below 2³¹ elements the array is sorted. -/
theorem sorts_of_lt (h : arr.Fits) (hsmall : arr.cnt < 2 ^ 31) : Sorts arr := by
  intro compare m hc
  have hnull : ¬¬(arr.array ≠ 0 ∨ arr.cnt = 0) := not_not_intro h.notNull
  have hsize : arr.size ≠ 0 := Nat.ne_of_gt h.size
  obtain ⟨m₁, f, hbuild, hf, hel, hheap, hun⟩ := buildLoop_ok h hc hsmall (arr.cnt + 1)
    (by omega) (arr.cnt / 2) m (by omega) fun p hp c hchild hcle => by
      unfold IsChild at hchild
      omega
  obtain ⟨m', g, hsort, hg, hel', hs, hun'⟩ := sortLoop_ok h hc hsmall (arr.cnt + 1) (by omega)
    arr.cnt m₁ (Nat.le_refl _) hheap
    ⟨fun k l hk hkl hl => absurd hl (by omega), fun k l _ _ hl hln => absurd hln (by omega)⟩
  have hrun : sort arr compare (arr.cnt + 1) m = .ok m' := by
    unfold sort
    rw [if_neg hnull, if_neg hsize, hbuild, bind_ok]
    exact hsort
  refine ⟨arr.cnt + 1, m', hrun, hrun, ?_, ?_, hun.trans hun'⟩
  · unfold Arr.elements
    rw [hel', hel]
    exact (hg.trans hf).perm (arr.element m)
  · have hlt : (List.range' 1 arr.cnt).Pairwise (· < ·) := List.pairwise_lt_range'
    refine List.pairwise_map.mpr (hlt.imp_of_mem fun {k l} hk hl hkl => ?_)
    rw [List.mem_range'_1] at hk hl
    exact hs.sorted k l (by omega) (by omega) (by omega)

/-! ## Arrays of 2^31 elements and more -/

/-- The first bytes, as numbers. -/
def byteCompare : Compare := fun a b => ((a.headD 0).toNat : Int) - (b.headD 0).toNat

/-- Comparing bytes is an order. -/
theorem byteCompare_isOrder : byteCompare.IsOrder where
  swap := fun a b => by
    unfold byteCompare
    omega
  trans := fun a b c => by
    unfold byteCompare
    omega

/-- Zeroes, but for the element at 2^31. -/
def oneSet (arr : Arr) : Memory := fun p => if p = arr.array + (2 ^ 31 - 1) then 1 else 0

/-- An array of so many elements that its indexes do not double in 32 bits. -/
structure Large (arr : Arr) : Prop where
  fits : arr.Fits
  large : 2 ^ 31 ≤ arr.cnt

/-- The elements of the large array are bytes. -/
theorem Large.size (h : Large arr) : arr.size = 1 := by
  have hroom := h.fits.room
  have hlarge := h.large
  have hsize := h.fits.size
  have hnull := h.fits.notNull
  by_contra hne
  have hmul : arr.cnt * 2 ≤ arr.cnt * arr.size := Nat.mul_le_mul_left _ (by omega)
  omega

/-- Their number fits in 32 bits. -/
theorem Large.cnt_lt (h : Large arr) : arr.cnt < 2 ^ 32 := by
  have hroom := h.fits.room
  have hlarge := h.large
  have hnull := h.fits.notNull
  rw [h.size] at hroom
  omega

/-- Each is one byte of memory. -/
theorem Large.element (h : Large arr) (m : Memory) (hk : 1 ≤ k) :
    arr.element m k = [m (arr.array + (k - 1))] := by
  unfold Arr.element bytesAt
  rw [if_neg (by omega), h.size]
  simp

/-- The one that is set is greater than the others. -/
theorem Large.compare_oneSet (h : Large arr) (hi : 1 ≤ i) (hj : 1 ≤ j) :
    byteCompare (arr.element (oneSet arr) i) (arr.element (oneSet arr) j) =
      (if i = 2 ^ 31 then 1 else 0) - (if j = 2 ^ 31 then 1 else 0) := by
  have hbyte : ∀ k, 1 ≤ k → ((arr.element (oneSet arr) k).headD 0).toNat =
      if k = 2 ^ 31 then 1 else 0 := by
    intro k hk
    rw [h.element _ hk]
    show (oneSet arr (arr.array + (k - 1))).toNat = _
    unfold oneSet
    by_cases hkk : k = 2 ^ 31
    · rw [if_pos hkk, if_pos (by omega)]
      rfl
    · rw [if_neg hkk, if_neg (by omega)]
      rfl
  unfold byteCompare
  rw [hbyte i hi, hbyte j hj]
  split <;> split <;> rfl

/-- Of elements that are no larger, `largerOf` keeps the old one. -/
theorem Large.largerOf_keep (h : Large arr) (hi : 1 ≤ i) (hj : 1 ≤ j ∧ j ≤ arr.cnt)
    (hle : i = 2 ^ 31 → j = 2 ^ 31) :
    largerOf arr byteCompare i j arr.cnt (oneSet arr) = .ok j := by
  obtain ⟨k, hk, ⟨rfl, -⟩ | ⟨-, -, hgt⟩⟩ := largerOf_ok byteCompare h.fits (Nat.le_refl _) hi hj
    (oneSet arr)
  · exact hk
  · rw [h.compare_oneSet hi hj.1] at hgt
    split at hgt
    next heq =>
      rw [if_pos (hle heq)] at hgt
      omega
    next => split at hgt <;> omega

/-- Behind the middle nothing moves. -/
theorem Large.heapify_keep (h : Large arr) (hlow : 2 ^ 30 < i) (hhigh : i ≤ arr.cnt / 2) (fuel : Nat) :
    heapify arr byteCompare (fuel + 1) i arr.cnt (oneSet arr) = .ok (oneSet arr) := by
  have hcnt := h.cnt_lt
  unfold heapify
  dsimp only
  rw [Nat.mod_eq_of_lt (by omega), Nat.mod_eq_of_lt (by omega),
    h.largerOf_keep (by omega) (by omega) (by omega), bind_ok,
    h.largerOf_keep (by omega) (by omega) (by omega), bind_ok, if_pos rfl]

/-- The element at 2^31 has a left child at 0. -/
theorem Large.heapify_outside (h : Large arr) (m : Memory) (fuel : Nat) :
    ∃ e, heapify arr byteCompare fuel (2 ^ 31) arr.cnt m = .error e := by
  cases fuel with
  | zero => exact ⟨_, rfl⟩
  | succ fuel =>
    have hroom := h.fits.room
    have hlarge := h.large
    have hnull := h.fits.notNull
    rw [h.size] at hroom
    have haddress : arr.address 0 = .error .outside := by
      unfold Arr.address
      rw [h.size]
      exact if_neg (by omega)
    have hzero : 2 * 2 ^ 31 % 2 ^ 32 = 0 := by decide
    refine ⟨.outside, ?_⟩
    unfold heapify largerOf doCompare
    dsimp only
    rw [hzero, if_pos (Nat.zero_le _), haddress]
    rfl

/-- The element at 2^30 is swapped with it. -/
theorem Large.heapify_middle (h : Large arr) (fuel : Nat) :
    ∃ e, heapify arr byteCompare fuel (2 ^ 30) arr.cnt (oneSet arr) = .error e := by
  cases fuel with
  | zero => exact ⟨_, rfl⟩
  | succ fuel =>
    have hlarge := h.large
    have hleft : largerOf arr byteCompare (2 * 2 ^ 30 % 2 ^ 32) (2 ^ 30) arr.cnt (oneSet arr) =
        .ok (2 ^ 31) := by
      obtain ⟨k, hk, ⟨-, hle⟩ | ⟨rfl, -, -⟩⟩ := largerOf_ok byteCompare h.fits
        (Nat.le_refl _) (show 1 ≤ 2 * 2 ^ 30 % 2 ^ 32 by decide)
        (show 1 ≤ 2 ^ 30 ∧ 2 ^ 30 ≤ arr.cnt by omega) (oneSet arr)
      · have hgt := hle (by omega)
        rw [h.compare_oneSet (by decide) (by decide), if_pos (by decide), if_neg (by decide)] at hgt
        omega
      · exact hk
    have hright : largerOf arr byteCompare ((2 * 2 ^ 30 + 1) % 2 ^ 32) (2 ^ 31) arr.cnt (oneSet arr) =
        .ok (2 ^ 31) :=
      h.largerOf_keep (by decide) (by omega) (by decide)
    obtain ⟨m₁, hswap, -, -⟩ := doSwap_ok h.fits (show 1 ≤ 2 ^ 30 ∧ 2 ^ 30 ≤ arr.cnt by omega)
      (show 1 ≤ 2 ^ 31 ∧ 2 ^ 31 ≤ arr.cnt by omega) (by decide) (oneSet arr)
    obtain ⟨e, he⟩ := h.heapify_outside m₁ fuel
    refine ⟨e, ?_⟩
    unfold heapify
    dsimp only
    rw [hleft, bind_ok, hright, bind_ok, if_neg (by decide), hswap, bind_ok]
    exact he

/-- The loop that builds the heap compares it outside the array. -/
theorem Large.buildLoop_outside (h : Large arr) (fuel : Nat) (i : Nat) : 2 ^ 30 ≤ i →
    i ≤ arr.cnt / 2 → ∃ e, buildLoop arr byteCompare fuel i (oneSet arr) = .error e := by
  induction i with
  | zero => exact fun hi => absurd hi (by decide)
  | succ i ih =>
    intro hlow hhigh
    unfold buildLoop
    by_cases heq : i + 1 = 2 ^ 30
    · obtain ⟨e, he⟩ := h.heapify_middle fuel
      rw [heq, he]
      exact ⟨e, rfl⟩
    · cases fuel with
      | zero => exact ⟨_, rfl⟩
      | succ fuel =>
        rw [h.heapify_keep (by omega) hhigh fuel, bind_ok]
        exact ih (by omega) (by omega)

/-- The large array is never sorted. -/
theorem Large.sort_outside (h : Large arr) (fuel : Nat) (m' : Memory) :
    sort arr byteCompare fuel (oneSet arr) ≠ .ok m' := by
  have hlarge := h.large
  obtain ⟨e, he⟩ := h.buildLoop_outside fuel (arr.cnt / 2) (by omega) (Nat.le_refl _)
  unfold sort
  rw [if_neg (not_not_intro h.fits.notNull), if_neg (Nat.ne_of_gt h.fits.size), he]
  exact nofun

/-- An array that fits in the address space is sorted, if it has fewer than 2^31 elements. -/
theorem sorts_iff (h : arr.Fits) : Sorts arr ↔ arr.cnt < 2 ^ 31 := by
  refine ⟨fun hsorts => ?_, sorts_of_lt h⟩
  by_contra hlarge
  obtain ⟨fuel, m', hrun, -⟩ := hsorts byteCompare (oneSet arr) byteCompare_isOrder
  exact Large.sort_outside ⟨h, by omega⟩ fuel m' hrun

/-- The largest array of elements of two bytes, up to the end of the address space. -/
theorem sorts_iff_large : Sorts ⟨2, 2 ^ 31 - 1, 2⟩ :=
  (sorts_iff ⟨by decide, by decide, by decide⟩).mpr (by decide)

/-- An array of 2^31 bytes, all zero but the last. -/
theorem sort_wraps : byteCompare.IsOrder ∧ ∀ fuel m',
    sort ⟨4096, 2 ^ 31, 1⟩ byteCompare fuel (oneSet ⟨4096, 2 ^ 31, 1⟩) ≠ .ok m' :=
  ⟨byteCompare_isOrder, Large.sort_outside ⟨⟨by decide, by decide, by decide⟩, by decide⟩⟩

end Pintos.Libc
