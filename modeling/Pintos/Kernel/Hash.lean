import Pintos.Lib.Buckets
import Pintos.Lib.KeyedSet

/-!
# Hash tables

The hash tables of `lib/kernel/hash.c`. An element is its `struct hash_elem`; the chains are lists,
and the array of chains is a function on the indices below `bucket_cnt`, which is never zero. The
elements of a table are different objects in memory, so `elem_cnt` does not overflow.

The loop that clears bits is a recursion on the number, and the iterator keeps the disguise of the
source: at first its element is the head of the first chain.
-/

namespace Pintos.Kernel

open Pintos.Lib

variable {E σ : Type*}

/-- `hash_hash_func` and `hash_less_func`, with their auxiliary data. -/
structure HashFuncs (E : Type*) where
  hash : E → UInt32
  less : E → E → Bool

/-- What `find_elem` takes for equal. -/
def HashFuncs.equal (fs : HashFuncs E) (a b : E) : Bool := !fs.less a b && !fs.less b a

/-- `struct hash`. -/
structure Hash (E : Type*) where
  elemCnt : Nat
  bucketCnt : Nat
  bucketCnt_pos : 0 < bucketCnt
  buckets : Fin bucketCnt → List E

/-- `hash_init`, when `malloc` has the memory for the buckets. -/
def hashInit : Hash E where
  elemCnt := 0
  bucketCnt := 4
  bucketCnt_pos := by decide
  buckets := fun _ => []

/-- The index of the bucket of `e` among `bucketCnt`. -/
def bucketIdx (fs : HashFuncs E) {bucketCnt : Nat} (h : 0 < bucketCnt) (e : E) : Fin bucketCnt :=
  ⟨(fs.hash e).toNat &&& (bucketCnt - 1), Nat.lt_of_le_of_lt Nat.and_le_right (by omega)⟩

/-- `find_bucket`. -/
def findBucket (fs : HashFuncs E) (h : Hash E) (e : E) : Fin h.bucketCnt :=
  bucketIdx fs h.bucketCnt_pos e

/-- `find_elem`. -/
def findElem (fs : HashFuncs E) (bucket : List E) (e : E) : Option E :=
  bucket.find? fun hi => fs.equal hi e

/-- `insert_elem`. -/
def insertElem (h : Hash E) (bucket : Fin h.bucketCnt) (e : E) : Hash E :=
  { h with elemCnt := h.elemCnt + 1, buckets := pushAt h.buckets bucket e }

/-- `remove_elem`, which unlinks `e` from the chain it is in. -/
def removeElem [DecidableEq E] (h : Hash E) (e : E) : Hash E :=
  { h with elemCnt := h.elemCnt - 1, buckets := eraseAll h.buckets e }

/-! ## The number of buckets -/

/-- `turn_off_least_1bit`. -/
def turnOffLeast1bit (x : Nat) : Nat := x &&& (x - 1)

/-- `is_power_of_2`. -/
def isPowerOf2 (x : Nat) : Bool := x != 0 && turnOffLeast1bit x == 0

theorem isPowerOf2_iff {x : Nat} : isPowerOf2 x = true ↔ x.isPowerOfTwo := by
  unfold isPowerOf2 turnOffLeast1bit
  rw [← Nat.ne_zero_and_sub_one_eq_zero_iff_isPowerOfTwo]
  simp

/-- A number that is no power of two has a bit left when its lowest is turned off. -/
theorem turnOffLeast1bit_pos {x : Nat} (hx : 0 < x) (h : ¬ isPowerOf2 x = true) :
    0 < turnOffLeast1bit x := by
  unfold isPowerOf2 at h
  simp only [Bool.and_eq_true, bne_iff_ne, beq_iff_eq, not_and] at h
  exact Nat.pos_of_ne_zero (h (by omega))

theorem turnOffLeast1bit_lt {x : Nat} (hx : 0 < x) : turnOffLeast1bit x < x :=
  Nat.lt_of_le_of_lt Nat.and_le_right (by omega)

/-- The loop of `rehash`. It ends because a positive number gets smaller and stays positive. -/
def turnOffBits (x : Nat) (hx : 0 < x) : Nat :=
  if h : isPowerOf2 x = true then x
  else turnOffBits (turnOffLeast1bit x) (turnOffLeast1bit_pos hx h)
termination_by x
decreasing_by exact turnOffLeast1bit_lt hx

/-- The number of buckets for so many elements. -/
def newBucketCnt (elemCnt : Nat) : Nat :=
  turnOffBits (if elemCnt / 2 < 4 then 4 else elemCnt / 2) (by split <;> omega)

/-- The leading bit stays. -/
theorem turnOffLeast1bit_log2 {x : Nat} (hx : 0 < x) (h : ¬ isPowerOf2 x = true) :
    (turnOffLeast1bit x).log2 = x.log2 := by
  have hbit : (turnOffLeast1bit x).testBit x.log2 = true :=
    Nat.and_sub_one_testBit_log2 (by omega) fun hp => h (isPowerOf2_iff.mpr hp)
  have hle := Nat.ge_two_pow_of_testBit hbit
  have hlt : turnOffLeast1bit x < 2 ^ (x.log2 + 1) :=
    (turnOffLeast1bit_lt hx).trans Nat.lt_log2_self
  exact (Nat.log2_eq_iff (turnOffLeast1bit_pos hx h).ne').mpr ⟨hle, hlt⟩

/-- The loop leaves the leading bit. -/
theorem turnOffBits_eq (x : Nat) (hx : 0 < x) : turnOffBits x hx = 2 ^ x.log2 := by
  induction x using Nat.strong_induction_on with
  | _ x ih =>
    unfold turnOffBits
    split
    next h =>
      obtain ⟨k, rfl⟩ := isPowerOf2_iff.mp h
      rw [Nat.log2_two_pow]
    next h =>
      rw [ih _ (turnOffLeast1bit_lt hx), turnOffLeast1bit_log2 hx h]

/-- The number of buckets is a power of two, at least 4. -/
theorem newBucketCnt_eq (n : Nat) : ∃ k, newBucketCnt n = 2 ^ (k + 2) := by
  have hfour : 4 ≤ if n / 2 < 4 then 4 else n / 2 := by split <;> omega
  have hlog : 2 ≤ (if n / 2 < 4 then 4 else n / 2).log2 := (Nat.le_log2 (by omega)).mpr hfour
  exact ⟨_ - 2, (turnOffBits_eq _ _).trans (by rw [Nat.sub_add_cancel hlog])⟩

theorem newBucketCnt_pos (n : Nat) : 0 < newBucketCnt n := by
  obtain ⟨k, hk⟩ := newBucketCnt_eq n
  rw [hk]
  exact Nat.two_pow_pos _

/-! ## Operations -/

/-- `list_push_front` of `e` on the bucket it belongs in. -/
def pushElem (fs : HashFuncs E) {bucketCnt : Nat} (h : 0 < bucketCnt)
    (buckets : Fin bucketCnt → List E) (e : E) : Fin bucketCnt → List E :=
  pushAt buckets (bucketIdx fs h e) e

/-- `rehash`; `mem` says whether `malloc` has the memory for the new buckets. -/
def rehash (fs : HashFuncs E) (mem : Bool) (h : Hash E) : Hash E :=
  if newBucketCnt h.elemCnt = h.bucketCnt then h
  else if mem then
    { elemCnt := h.elemCnt
      bucketCnt := newBucketCnt h.elemCnt
      bucketCnt_pos := newBucketCnt_pos h.elemCnt
      buckets := (List.finRange h.bucketCnt).foldl (fun newBuckets i =>
        (h.buckets i).foldl (pushElem fs (newBucketCnt_pos h.elemCnt)) newBuckets) fun _ => [] }
  else h

/-- `hash_insert`. -/
def hashInsert (fs : HashFuncs E) (mem : Bool) (new : E) (h : Hash E) : Option E × Hash E :=
  let bucket := findBucket fs h new
  let old := findElem fs (h.buckets bucket) new
  (old, rehash fs mem (if old.isNone then insertElem h bucket new else h))

/-- `hash_replace`. -/
def hashReplace [DecidableEq E] (fs : HashFuncs E) (mem : Bool) (new : E) (h : Hash E) :
    Option E × Hash E :=
  let bucket := findBucket fs h new
  match findElem fs (h.buckets bucket) new with
  | none => (none, rehash fs mem (insertElem h bucket new))
  | some old => (some old, rehash fs mem (insertElem (removeElem h old) bucket new))

/-- `hash_find`. -/
def hashFind (fs : HashFuncs E) (e : E) (h : Hash E) : Option E :=
  findElem fs (h.buckets (findBucket fs h e)) e

/-- `hash_delete`. -/
def hashDelete [DecidableEq E] (fs : HashFuncs E) (mem : Bool) (e : E) (h : Hash E) :
    Option E × Hash E :=
  match findElem fs (h.buckets (findBucket fs h e)) e with
  | none => (none, h)
  | some found => (some found, rehash fs mem (removeElem h found))

/-- `hash_apply`, with what `action` does to the rest of the world. -/
def hashApply (action : σ → E → σ) (s : σ) (h : Hash E) : σ :=
  (List.finRange h.bucketCnt).foldl (fun s i => (h.buckets i).foldl action s) s

/-- `hash_clear`, with what `destructor` does to the rest of the world. -/
def hashClear (destructor : σ → E → σ) (s : σ) (h : Hash E) : σ × Hash E :=
  (hashApply destructor s h, { h with elemCnt := 0, buckets := fun _ => [] })

/-- One operation. -/
def perform [DecidableEq E] (fs : HashFuncs E) (mem : Bool) (h : Hash E) :
    KeyedOp E → Option E × Hash E
  | .insert new => hashInsert fs mem new h
  | .replace new => hashReplace fs mem new h
  | .find e => (hashFind fs e h, h)
  | .delete e => hashDelete fs mem e h
  | .clear => (none, (hashClear (fun _ _ => ()) () h).2)

/-! ## Iterators -/

/-- The element of an iterator. -/
inductive Cursor (E : Type*) where
  /-- The head of the bucket, taken for an element. -/
  | head
  | elem (e : E)
  | null
  deriving DecidableEq, Repr

/-- `struct hash_iterator`, without its table. -/
structure HashIterator (E : Type*) where
  bucket : Nat
  elem : Cursor E

/-- `hash_first`. -/
def hashFirst : HashIterator E where
  bucket := 0
  elem := .head

/-- `list_next` in a chain; nothing is its end. There is nothing after a null pointer. -/
def listNext [DecidableEq E] (chain : List E) : Cursor E → Option (Option E)
  | .head => some chain.head?
  | .elem e => some (chain.dropWhile (· != e)).tail.head?
  | .null => none

/-- The loop of `hash_next`: past the end of a chain to the next one that has an element. -/
def skipEmpty (h : Hash E) (bucket : Nat) (elem : Option E) : HashIterator E :=
  match elem with
  | some e => { bucket := bucket, elem := .elem e }
  | none =>
    if hb : bucket + 1 < h.bucketCnt then
      skipEmpty h (bucket + 1) (h.buckets ⟨bucket + 1, hb⟩).head?
    else { bucket := bucket + 1, elem := .null }
termination_by h.bucketCnt - bucket

/-- `hash_next`. It may not be called again once it has answered null. -/
def hashNext [DecidableEq E] (h : Hash E) (i : HashIterator E) : Option (HashIterator E) :=
  if hb : i.bucket < h.bucketCnt then
    (listNext (h.buckets ⟨i.bucket, hb⟩) i.elem).map (skipEmpty h i.bucket)
  else none

/-- The elements that `hash_next` answers until it answers null, if it does so in fewer than `fuel`
calls. -/
def visits [DecidableEq E] (h : Hash E) : Nat → HashIterator E → Option (List E)
  | 0, _ => none
  | fuel + 1, i =>
    match hashNext h i with
    | none => none
    | some i' =>
      match i'.elem with
      | .elem e => (visits h fuel i').map (e :: ·)
      | .null => some []
      | .head => none

end Pintos.Kernel
