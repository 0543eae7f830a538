import Mathlib.Data.Finite.Prod
import Mathlib.Dynamics.PeriodicPts.Lemmas
import Mathlib.Logic.Equiv.Basic

/-!
# Pseudo-random numbers

`lib/random.c`, the RC4 stream. However the bytes are asked for, they are the consecutive bytes of the
stream of the seed; the table stays a permutation; and since a step can be undone, the stream comes
around to where it started (`random_stream`).
-/

namespace Pintos.Libc.Random

/-- `s`, `s_i` and `s_j`. -/
structure Rc4 where
  s : UInt8 → UInt8
  i : UInt8
  j : UInt8

/-- The variables of `random.c`. -/
structure Prng where
  rc4 : Rc4
  inited : Bool

/-- `swap_byte (s + a, s + b)`. -/
def swapByte (s : UInt8 → UInt8) (a b : UInt8) : UInt8 → UInt8 :=
  let t := s a
  Function.update (Function.update s a (s b)) b t

/-- The bytes of `seed` in memory. -/
def seedp (seed : UInt32) (i : Nat) : UInt8 := UInt8.ofNat (seed.toNat / 256 ^ i)

/-- One iteration of the second loop of `random_init`. -/
def mix (seed : UInt32) (sj : (UInt8 → UInt8) × UInt8) (i : Nat) : (UInt8 → UInt8) × UInt8 :=
  let j := sj.2 + (sj.1 (UInt8.ofNat i) + seedp seed (i % 4))
  (swapByte sj.1 (UInt8.ofNat i) j, j)

/-- `random_init`. -/
def randomInit (seed : UInt32) : Prng :=
  let (s, _) := (List.range 256).foldl (mix seed) (id, 0)
  { rc4 := { s := s, i := 0, j := 0 }, inited := true }

/-- The state after one iteration of the loop of `random_bytes`. -/
def Rc4.next (r : Rc4) : Rc4 :=
  let i := r.i + 1
  let j := r.j + r.s i
  { s := swapByte r.s i j, i := i, j := j }

/-- And the byte it stores. -/
def Rc4.byte (r : Rc4) : UInt8 := r.s (r.s r.i + r.s r.j)

/-- The loop of `random_bytes`. -/
def bytesLoop : Nat → Rc4 → List UInt8 × Rc4
  | 0, r => ([], r)
  | size + 1, r =>
    let (buf, r') := bytesLoop size r.next
    (r.next.byte :: buf, r')

/-- `random_bytes`. -/
def randomBytes (size : Nat) (g : Prng) : List UInt8 × Prng :=
  let g := if g.inited then g else randomInit 0
  let (buf, r) := bytesLoop size g.rc4
  (buf, { g with rc4 := r })

/-- Calls of `random_bytes`, one after the other. -/
def requests : List Nat → Prng → List (List UInt8) × Prng
  | [], g => ([], g)
  | size :: sizes, g =>
    let (buf, g) := randomBytes size g
    let (bufs, g) := requests sizes g
    (buf :: bufs, g)

/-- Before any call. -/
def boot : Prng := { rc4 := { s := fun _ => 0, i := 0, j := 0 }, inited := false }

variable {s : UInt8 → UInt8} {r : Rc4} {g : Prng} {seed : UInt32}

/-! ## The table -/

/-- Swapping two bytes of the table is composing with a transposition. -/
theorem swapByte_eq (s : UInt8 → UInt8) (a b : UInt8) : swapByte s a b = s ∘ Equiv.swap a b := by
  funext x
  unfold swapByte
  dsimp only [Function.comp]
  by_cases hb : x = b
  · rw [hb, Function.update_self, Equiv.swap_apply_right]
  · rw [Function.update_of_ne hb]
    by_cases ha : x = a
    · rw [ha, Function.update_self, Equiv.swap_apply_left]
    · rw [Function.update_of_ne ha, Equiv.swap_apply_of_ne_of_ne ha hb]

/-- A table that is a permutation stays one when two bytes are swapped. -/
theorem swapByte_injective (h : Function.Injective s) (a b : UInt8) :
    Function.Injective (swapByte s a b) := by
  rw [swapByte_eq]
  exact h.comp (Equiv.injective _)

/-- A swap undoes itself. -/
theorem swapByte_swapByte (s : UInt8 → UInt8) (a b : UInt8) : swapByte (swapByte s a b) a b = s := by
  rw [swapByte_eq, swapByte_eq]
  funext x
  exact congrArg s (congrFun (congrArg DFunLike.coe (Equiv.swap_swap a b)) x)

/-- Mixing the seed in keeps the permutation. -/
theorem mix_injective {l : List Nat} {sj : (UInt8 → UInt8) × UInt8} (h : Function.Injective sj.1) :
    Function.Injective (l.foldl (mix seed) sj).1 := by
  induction l generalizing sj with
  | nil => exact h
  | cons i l ih => exact ih (swapByte_injective h _ _)

/-- The table starts as a permutation. -/
theorem randomInit_injective (seed : UInt32) : Function.Injective (randomInit seed).rc4.s := by
  have hid : Function.Injective (id, (0 : UInt8)).1 := Function.injective_id (α := UInt8)
  exact mix_injective (l := List.range 256) hid

/-- The table stays a permutation from byte to byte. -/
theorem next_injective_table (h : Function.Injective r.s) : Function.Injective r.next.s :=
  swapByte_injective h _ _

/-! ## The stream -/

/-- The `n`-th byte from a state on. -/
def Rc4.stream (r : Rc4) (n : Nat) : UInt8 := (Rc4.next^[n + 1] r).byte

/-- The loop gives the next bytes of the stream. -/
theorem bytesLoop_eq (size : Nat) (r : Rc4) :
    bytesLoop size r = ((List.range size).map r.stream, Rc4.next^[size] r) := by
  induction size generalizing r with
  | zero => rfl
  | succ size ih =>
    unfold bytesLoop
    rw [ih, List.range_succ_eq_map, List.map_cons, List.map_map]
    rfl

/-- `random_bytes` gives the next bytes of the stream. -/
theorem randomBytes_eq (h : g.inited = true) (size : Nat) : randomBytes size g =
    ((List.range size).map g.rc4.stream, { g with rc4 := Rc4.next^[size] g.rc4 }) := by
  unfold randomBytes
  rw [if_pos h]
  dsimp only
  rw [bytesLoop_eq]

/-- Successive requests are answered by successive pieces of the stream. -/
theorem requests_eq (h : g.inited = true) (sizes : List Nat) :
    (requests sizes g).1.flatten = (List.range sizes.sum).map g.rc4.stream ∧
      (requests sizes g).1.map List.length = sizes ∧
      (requests sizes g).2 = { g with rc4 := Rc4.next^[sizes.sum] g.rc4 } := by
  induction sizes generalizing g with
  | nil => exact ⟨rfl, rfl, rfl⟩
  | cons size sizes ih =>
    unfold requests
    rw [randomBytes_eq h]
    obtain ⟨hflat, hlengths, hlast⟩ := ih (g := { g with rc4 := Rc4.next^[size] g.rc4 }) h
    refine ⟨?_, ?_, ?_⟩
    · show (List.range size).map g.rc4.stream ++ (requests sizes _).1.flatten = _
      rw [hflat, List.sum_cons, List.range_add, List.map_append, List.map_map]
      refine congrArg _ (List.map_congr_left fun n _ => ?_)
      unfold Rc4.stream
      dsimp only [Function.comp]
      rw [← Function.iterate_add_apply, Nat.add_comm (n + 1) size, Nat.add_assoc]
    · show ((List.range size).map g.rc4.stream).length :: (requests sizes _).1.map List.length = _
      rw [hlengths, List.length_map, List.length_range]
    · show (requests sizes _).2 = _
      rw [hlast, ← Function.iterate_add_apply, List.sum_cons, Nat.add_comm]

/-- The table is a permutation after any number of bytes. -/
theorem iterate_injective_table (h : Function.Injective r.s) (n : Nat) :
    Function.Injective (Rc4.next^[n] r).s := by
  induction n with
  | zero => exact h
  | succ n ih =>
    rw [Function.iterate_succ_apply']
    exact next_injective_table ih

/-! ## Going around -/

/-- Undoes a step. -/
def Rc4.prev (r : Rc4) : Rc4 :=
  let s := swapByte r.s r.i r.j
  { s := s, i := r.i - 1, j := r.j - s r.i }

/-- A step can be taken back. -/
theorem prev_next (r : Rc4) : r.next.prev = r := by
  unfold Rc4.prev Rc4.next
  dsimp only
  rw [swapByte_swapByte, UInt8.add_sub_cancel, UInt8.add_sub_cancel]

/-- No two states lead to the same. -/
theorem next_injective : Function.Injective Rc4.next :=
  Function.LeftInverse.injective (g := Rc4.prev) prev_next

/-- There are only so many states. -/
theorem finite_rc4 : Finite Rc4 := by
  have hbyte : Finite UInt8 := Finite.of_injective UInt8.toFin fun _ _ h => UInt8.toFin_inj.mp h
  have hcode : Function.Injective fun r : Rc4 => (r.s, r.i, r.j) := by
    intro r r' h
    obtain ⟨s, i, j⟩ := r
    obtain ⟨s', i', j'⟩ := r'
    cases h
    rfl
  exact Finite.of_injective _ hcode

/-- The stream comes around. -/
theorem stream_periodic (r : Rc4) : ∃ n > 0, ∀ k, r.stream (k + n) = r.stream k := by
  have hfinite := finite_rc4
  obtain ⟨n, hpos, hn⟩ := Function.mem_periodicPts.mp (next_injective.mem_periodicPts r)
  refine ⟨n, hpos, fun k => ?_⟩
  have hback : Rc4.next^[n] r = r := hn
  unfold Rc4.stream
  rw [Nat.add_right_comm, Function.iterate_add_apply, hback]

/-- With one call of `random_init` since the boot, or with none. -/
def started (call : Option UInt32) : Prng := call.elim boot randomInit

/-- The stream that is read then; the first request seeds with 0 where nobody has. -/
def seeded (call : Option UInt32) : Rc4 := (randomInit (call.getD 0)).rc4

/-- From the boot on, with one call of `random_init` or with none, requests of any sizes are answered by
the consecutive bytes of the stream of the seed, which is 0 with no call. The table stays a permutation
of the bytes, different states have different successors, and the stream is periodic. -/
theorem random_stream (call : Option UInt32) (sizes : List Nat) :
    (requests sizes (started call)).1.flatten = (List.range sizes.sum).map (seeded call).stream ∧
      (requests sizes (started call)).1.map List.length = sizes ∧
      (sizes ≠ [] → Function.Injective (requests sizes (started call)).2.rc4.s) ∧
      Function.Injective Rc4.next ∧
      ∃ n > 0, ∀ k, (seeded call).stream (k + n) = (seeded call).stream k := by
  have hseeded : ∀ seed, (requests sizes (randomInit seed)).1.flatten =
      (List.range sizes.sum).map (randomInit seed).rc4.stream ∧
      (requests sizes (randomInit seed)).1.map List.length = sizes ∧
      Function.Injective (requests sizes (randomInit seed)).2.rc4.s := by
    intro seed
    obtain ⟨hflat, hlengths, hlast⟩ := requests_eq (g := randomInit seed) rfl sizes
    refine ⟨hflat, hlengths, ?_⟩
    rw [hlast]
    exact iterate_injective_table (randomInit_injective seed) _
  cases call with
  | some seed =>
    obtain ⟨hflat, hlengths, htable⟩ := hseeded seed
    exact ⟨hflat, hlengths, fun _ => htable, next_injective, stream_periodic _⟩
  | none =>
    -- the first request seeds with 0
    cases sizes with
    | nil => exact ⟨rfl, rfl, fun h => absurd rfl h, next_injective, stream_periodic _⟩
    | cons size sizes =>
      have hfirst : requests (size :: sizes) boot = requests (size :: sizes) (randomInit 0) := rfl
      obtain ⟨hflat, hlengths, htable⟩ := hseeded 0
      dsimp only [started, seeded, Option.elim, Option.getD]
      rw [hfirst]
      exact ⟨hflat, hlengths, fun _ => htable, next_injective, stream_periodic _⟩

end Pintos.Libc.Random
