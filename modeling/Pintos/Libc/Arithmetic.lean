import Mathlib.Algebra.Group.Nat.Defs
import Mathlib.Algebra.Order.Ring.Int
import Mathlib.Tactic.Ring
import Pintos.Lib.Fallible

/-!
# Division of 64-bit numbers

`lib/arithmetic.c`: GCC calls these for the operators `/` and `%` on 64-bit numbers, which the
processor has no instruction for. What it has, `divl`, traps if the quotient does not fit in 32 bits.
-/

namespace Pintos.Libc

open Pintos.Lib

/-- `#DE`, the divide error. -/
inductive Trap where
  | divideError
  deriving DecidableEq, Repr

/-- `divl`. -/
def divl (n : UInt64) (d : UInt32) : Except Trap UInt32 :=
  if d = 0 ∨ 2 ^ 32 ≤ n.toNat / d.toNat then .error .divideError
  else .ok (UInt32.ofNat (n.toNat / d.toNat))

/-- A step of `nlz`: if the first `k` bits are zero, they are counted and shifted out. -/
def nlzStep (limit : UInt32) (k : Nat) (s : Nat × UInt32) : Nat × UInt32 :=
  if s.2 ≤ limit then (s.1 + k, s.2 <<< UInt32.ofNat k) else s

/-- `nlz`. -/
def nlz (x : UInt32) : Nat :=
  let s := nlzStep 0x0000FFFF 16 (0, x)
  let s := nlzStep 0x00FFFFFF 8 s
  let s := nlzStep 0x0FFFFFFF 4 s
  let s := nlzStep 0x3FFFFFFF 2 s
  if s.2 ≤ 0x7FFFFFFF then s.1 + 1 else s.1

/-- The 32-bit quotient and remainder, which `divl` gives as well. -/
def divide32 (n d : UInt32) : Except Trap (UInt32 × UInt32) :=
  if d = 0 then .error .divideError else .ok (n / d, n % d)

/-- `udiv64`. -/
def udiv64 (n d : UInt64) : Except Trap UInt64 :=
  if d >>> 32 = 0 then do
    let b : UInt64 := (1 : UInt64) <<< 32
    let n1 := (n >>> 32).toUInt32
    let n0 := n.toUInt32
    let d0 := d.toUInt32
    let (quotient, remainder) ← divide32 n1 d0
    let q ← divl (b * remainder.toUInt64 + n0.toUInt64) d0
    .ok (q.toUInt64 + b * quotient.toUInt64)
  else if n < d then .ok 0
  else do
    let d1 := (d >>> 32).toUInt32
    let s := nlz d1
    let q ← divl (n >>> 1) ((d <<< UInt64.ofNat s) >>> 32).toUInt32
    let q := (q >>> UInt32.ofNat (31 - s)).toUInt64
    .ok (if n - (q - 1) * d < d then q - 1 else q)

/-- `umod64`. It returns a `uint32_t`. -/
def umod64 (n d : UInt64) : Except Trap UInt32 := do
  let q ← udiv64 n d
  .ok (n - d * q).toUInt32

/-- `n >= 0 ? (uint64_t) n : -(uint64_t) n`. -/
def abs64 (n : Int64) : UInt64 := if 0 ≤ n then n.toUInt64 else -n.toUInt64

/-- `sdiv64`. -/
def sdiv64 (n d : Int64) : Except Trap Int64 := do
  let q ← udiv64 (abs64 n) (abs64 d)
  .ok (if (n < 0 ↔ d < 0) then q.toInt64 else -q.toInt64)

/-- `smod64`. It returns an `int32_t`. -/
def smod64 (n d : Int64) : Except Trap Int32 := do
  let q ← sdiv64 n d
  .ok (n - d * q).toInt32

/-- `__divdi3`. -/
def divdi3 (n d : Int64) : Except Trap Int64 := sdiv64 n d

/-- `__moddi3`. -/
def moddi3 (n d : Int64) : Except Trap Int64 := do
  let r ← smod64 n d
  .ok r.toInt64

/-- `__udivdi3`. -/
def udivdi3 (n d : UInt64) : Except Trap UInt64 := udiv64 n d

/-- `__umoddi3`. -/
def umoddi3 (n d : UInt64) : Except Trap UInt64 := do
  let r ← umod64 n d
  .ok r.toUInt64

variable {x d₀ : UInt32} {n d : UInt64} {k a b : Nat}

/-! ## Leading zeroes -/

/-- What `nlz` knows: `k` bits are still to be looked at, and `s.1` have been shifted out. -/
structure Normalizing (x : UInt32) (k : Nat) (s : Nat × UInt32) : Prop where
  shifted : s.2.toNat = x.toNat * 2 ^ s.1
  large : 2 ^ (32 - k) ≤ s.2.toNat
  few : s.1 + k ≤ 32

/-- One test halves what is left to be tested. -/
theorem Normalizing.step {s : Nat × UInt32} (h : Normalizing x (2 * k) s) (limit : UInt32)
    (hlimit : limit.toNat + 1 = 2 ^ (32 - k)) (hk : k ≤ 16) :
    Normalizing x k (nlzStep limit k s) := by
  obtain ⟨hshifted, hlarge, hfew⟩ := h
  unfold nlzStep
  by_cases hle : s.2 ≤ limit
  · rw [if_pos hle]
    have hlt : s.2.toNat < 2 ^ (32 - k) := by
      have := UInt32.le_iff_toNat_le.mp hle
      omega
    have hpow : 2 ^ (32 - k) * 2 ^ k = 2 ^ 32 := by
      rw [← pow_add]
      congr 1
      omega
    have hmul : s.2.toNat * 2 ^ k < 2 ^ 32 := by
      rw [← hpow]
      exact Nat.mul_lt_mul_of_pos_right hlt (Nat.two_pow_pos k)
    have hshift : (s.2 <<< UInt32.ofNat k).toNat = s.2.toNat * 2 ^ k := by
      have hk32 : (UInt32.ofNat k).toNat % 32 = k := by
        rw [UInt32.toNat_ofNat_of_lt' (by have : UInt32.size = 2 ^ 32 := rfl; omega)]
        omega
      rw [UInt32.toNat_shiftLeft, hk32, Nat.shiftLeft_eq, Nat.mod_eq_of_lt hmul]
    refine ⟨?_, ?_, by dsimp only; omega⟩
    · dsimp only
      rw [hshift, hshifted, Nat.pow_add, Nat.mul_assoc]
    · dsimp only
      have hle' := Nat.mul_le_mul_right (2 ^ k) hlarge
      rw [← pow_add] at hle'
      rw [hshift]
      have hexp : 32 - 2 * k + k = 32 - k := by omega
      rwa [hexp] at hle'
  · rw [if_neg hle]
    refine ⟨hshifted, ?_, by omega⟩
    have hgt : ¬s.2.toNat ≤ limit.toNat := fun h => hle (UInt32.le_iff_toNat_le.mpr h)
    omega

/-- `nlz` of a number that is not zero: shifted by it, the first bit is set. -/
theorem nlz_spec (hx : x ≠ 0) : nlz x ≤ 31 ∧ 2 ^ 31 ≤ x.toNat * 2 ^ nlz x ∧
    x.toNat * 2 ^ nlz x < 2 ^ 32 := by
  have hpos : x.toNat ≠ 0 := fun h => hx (UInt32.toNat_inj.mp h)
  have h₀ : Normalizing x (2 * 16) (0, x) := ⟨by simp, by dsimp only; omega, by omega⟩
  have h₁ : Normalizing x (2 * 8) _ := h₀.step 0x0000FFFF rfl (by omega)
  have h₂ : Normalizing x (2 * 4) _ := h₁.step 0x00FFFFFF rfl (by omega)
  have h₃ : Normalizing x (2 * 2) _ := h₂.step 0x0FFFFFFF rfl (by omega)
  have h₄ : Normalizing x (2 * 1) _ := h₃.step 0x3FFFFFFF rfl (by omega)
  have h₅ := h₄.step 0x7FFFFFFF rfl (by omega)
  have hlast : nlz x = (nlzStep 0x7FFFFFFF 1 (nlzStep 0x3FFFFFFF 2 (nlzStep 0x0FFFFFFF 4
      (nlzStep 0x00FFFFFF 8 (nlzStep 0x0000FFFF 16 (0, x)))))).1 := by
    unfold nlz
    dsimp only
    generalize nlzStep 0x3FFFFFFF 2 _ = s
    unfold nlzStep
    by_cases hle : s.2 ≤ 0x7FFFFFFF
    · rw [if_pos hle, if_pos hle]
    · rw [if_neg hle, if_neg hle]
  obtain ⟨hshifted, hlarge, hfew⟩ := h₅
  rw [← hlast] at hshifted hfew
  refine ⟨by omega, ?_, ?_⟩
  · rw [← hshifted]
    exact hlarge
  · rw [← hshifted]
    exact UInt32.toNat_lt _

/-! ## The quotient -/

/-- The trap does not occur if the high word is less than the divisor. -/
theorem divl_ok (hd : d₀ ≠ 0) (h : n.toNat < 2 ^ 32 * d₀.toNat) :
    ∃ q, divl n d₀ = .ok q ∧ q.toNat = n.toNat / d₀.toNat := by
  have hpos : 0 < d₀.toNat := Nat.pos_of_ne_zero fun heq => hd (UInt32.toNat_inj.mp heq)
  have hlt : n.toNat / d₀.toNat < 2 ^ 32 := (Nat.div_lt_iff_lt_mul hpos).mpr h
  refine ⟨UInt32.ofNat (n.toNat / d₀.toNat), ?_, UInt32.toNat_ofNat_of_lt' hlt⟩
  unfold divl
  rw [if_neg]
  rintro (heq | hge)
  · exact hd heq
  · omega

/-- The quotient by a divisor of 32 bits, word by word. -/
theorem div_by_words (n1 n0 d : Nat) (hd : 0 < d) :
    (2 ^ 32 * n1 + n0) / d = (2 ^ 32 * (n1 % d) + n0) / d + 2 ^ 32 * (n1 / d) := by
  have hsplit : 2 ^ 32 * n1 + n0 = 2 ^ 32 * (n1 % d) + n0 + d * (2 ^ 32 * (n1 / d)) := by
    have hn1 := Nat.div_add_mod n1 d
    calc 2 ^ 32 * n1 + n0 = 2 ^ 32 * (d * (n1 / d) + n1 % d) + n0 := by rw [hn1]
      _ = _ := by ring
  rw [hsplit, Nat.add_mul_div_left _ _ hd]

/-- The quotient by a divisor of which the last bits have been cleared is too large by at most one, if
the bits are few. -/
theorem div_cleared {n d c : Nat} (hd : 0 < d / c * c)
    (hfew : (n / d + 1) * (d % c) ≤ d / c * c) :
    n / d ≤ n / (d / c * c) ∧ n / (d / c * c) ≤ n / d + 1 := by
  have hle : d / c * c ≤ d := Nat.div_mul_le_self d c
  refine ⟨Nat.div_le_div_left hle hd, ?_⟩
  have hsplit : d / c * c + d % c = d := Nat.div_add_mod' d c
  have hlt : n < (n / d + 1) * d := by
    have hmod := Nat.div_add_mod' n d
    have hless := Nat.mod_lt n (Nat.lt_of_lt_of_le hd hle)
    rw [Nat.add_mul, Nat.one_mul]
    omega
  refine Nat.le_of_lt_succ ((Nat.div_lt_iff_lt_mul hd).mpr ?_)
  calc n < (n / d + 1) * d := hlt
    _ = (n / d + 1) * (d / c * c) + (n / d + 1) * (d % c) := by rw [← Nat.mul_add, hsplit]
    _ ≤ (n / d + 1) * (d / c * c) + d / c * c := Nat.add_le_add_left hfew _
    _ = (n / d + 1 + 1) * (d / c * c) := by rw [Nat.add_mul (n / d + 1) 1, Nat.one_mul]

/-- What `nlz` of the high word says of a divisor: shifted, it fills 64 bits. -/
structure Shifted (d s : Nat) : Prop where
  few : s ≤ 31
  low : 2 ^ 31 ≤ d / 2 ^ 32 * 2 ^ s
  high : d / 2 ^ 32 * 2 ^ s < 2 ^ 32

/-- Shifting by what is left and by the rest is shifting by a word. -/
theorem Shifted.mul_pow {s : Nat} (h : Shifted b s) : 2 ^ (32 - s) * 2 ^ s = 2 ^ 32 := by
  have := h.few
  rw [← pow_add]
  congr 1
  omega

/-- The shifted divisor has 64 bits. -/
theorem Shifted.lt {s : Nat} (h : Shifted b s) : b * 2 ^ s < 2 ^ 64 := by
  have hpow := h.mul_pow
  have hlt : b / 2 ^ 32 < 2 ^ (32 - s) := by
    refine Nat.lt_of_mul_lt_mul_right (a := 2 ^ s) ?_
    rw [hpow]
    exact h.high
  have hb : b < 2 ^ (32 - s) * 2 ^ 32 := by omega
  calc b * 2 ^ s < 2 ^ (32 - s) * 2 ^ 32 * 2 ^ s := Nat.mul_lt_mul_of_pos_right hb (Nat.two_pow_pos s)
    _ = 2 ^ (32 - s) * 2 ^ s * 2 ^ 32 := by ring
    _ = 2 ^ 64 := by rw [hpow]; rfl

/-- Its high word, in terms of the divisor. -/
theorem Shifted.word {s : Nat} (h : Shifted b s) : b * 2 ^ s / 2 ^ 32 = b / 2 ^ (32 - s) := by
  have hdiv := Nat.mul_div_mul_right b (2 ^ (32 - s)) (Nat.two_pow_pos s)
  rwa [h.mul_pow] at hdiv

/-- The upper word of the divisor has its highest bit set. -/
theorem Shifted.word_ge {s : Nat} (h : Shifted b s) : 2 ^ 31 ≤ b / 2 ^ (32 - s) := by
  rw [← h.word]
  refine (Nat.le_div_iff_mul_le (Nat.two_pow_pos 32)).mpr ?_
  have hlow := h.low
  calc 2 ^ 31 * 2 ^ 32 ≤ b / 2 ^ 32 * 2 ^ s * 2 ^ 32 := Nat.mul_le_mul_right _ hlow
    _ = b / 2 ^ 32 * 2 ^ 32 * 2 ^ s := by ring
    _ ≤ b * 2 ^ s := Nat.mul_le_mul_right _ (Nat.div_mul_le_self b _)

/-- The quotient that `divl` gives, shifted back, is the one by the divisor with its last bits
cleared. -/
theorem Shifted.quotient {s : Nat} (h : Shifted b s) (a : Nat) :
    a / 2 / (b / 2 ^ (32 - s)) / 2 ^ (31 - s) = a / (b / 2 ^ (32 - s) * 2 ^ (32 - s)) := by
  have hfew := h.few
  have hpow : 2 ^ (32 - s) = 2 * 2 ^ (31 - s) := by
    rw [← pow_succ']
    congr 1
    omega
  rw [Nat.div_div_eq_div_mul, Nat.div_div_eq_div_mul]
  congr 1
  generalize b / 2 ^ (32 - s) = v
  rw [hpow]
  ring

/-- So that it is the quotient, or one more. -/
theorem Shifted.estimate {s : Nat} (h : Shifted b s) (ha : a < 2 ^ 64) :
    a / b ≤ a / 2 / (b / 2 ^ (32 - s)) / 2 ^ (31 - s) ∧
      a / 2 / (b / 2 ^ (32 - s)) / 2 ^ (31 - s) ≤ a / b + 1 := by
  have hword := h.word_ge
  have hcpos : 0 < 2 ^ (32 - s) := Nat.two_pow_pos _
  have hfits : ∀ s ≤ 31, 2 ^ (s + 1) * (2 ^ (32 - s) - 1) ≤ 2 ^ 31 * 2 ^ (32 - s) ∧
      2 ^ (s + 1) * (2 ^ 31 * 2 ^ (32 - s)) = 2 ^ 64 := by decide
  obtain ⟨hroom, hall⟩ := hfits s h.few
  have hcleared : 2 ^ 31 * 2 ^ (32 - s) ≤ b / 2 ^ (32 - s) * 2 ^ (32 - s) :=
    Nat.mul_le_mul_right _ hword
  have hle : b / 2 ^ (32 - s) * 2 ^ (32 - s) ≤ b := Nat.div_mul_le_self _ _
  rw [h.quotient]
  refine div_cleared (by have := Nat.mul_pos (Nat.two_pow_pos 31) hcpos; omega) ?_
  have hquot : a / b < 2 ^ (s + 1) := by
    refine (Nat.div_lt_iff_lt_mul (by have := Nat.mul_pos (Nat.two_pow_pos 31) hcpos; omega)).mpr ?_
    calc a < 2 ^ (s + 1) * (2 ^ 31 * 2 ^ (32 - s)) := by rw [hall]; exact ha
      _ ≤ 2 ^ (s + 1) * b := Nat.mul_le_mul_left _ (hcleared.trans hle)
  have hmod : b % 2 ^ (32 - s) ≤ 2 ^ (32 - s) - 1 := by
    have := Nat.mod_lt b hcpos
    omega
  calc (a / b + 1) * (b % 2 ^ (32 - s)) ≤ 2 ^ (s + 1) * (2 ^ (32 - s) - 1) := Nat.mul_le_mul hquot hmod
    _ ≤ 2 ^ 31 * 2 ^ (32 - s) := hroom
    _ ≤ b / 2 ^ (32 - s) * 2 ^ (32 - s) := hcleared

/-- An estimate that is too large by at most one is put right. -/
theorem correct_estimate {n d q : Nat} (hle : d ≤ n) (hd : 0 < d) (hlow : n / d ≤ q)
    (hhigh : q ≤ n / d + 1) : (q - 1) * d ≤ n ∧
      (if n - (q - 1) * d < d then q - 1 else q) = n / d := by
  have hpos : 0 < n / d := Nat.div_pos hle hd
  have hmod := Nat.div_add_mod' n d
  have hlt := Nat.mod_lt n hd
  rcases Nat.eq_or_lt_of_le hlow with heq | hgt
  · have hsub : (q - 1) * d = n / d * d - d := by rw [← heq, Nat.sub_mul, Nat.one_mul]
    have hmul := Nat.le_mul_of_pos_left d hpos
    refine ⟨by omega, ?_⟩
    rw [if_neg (by omega), heq]
  · have heq : q - 1 = n / d := by omega
    rw [heq, if_pos (by omega)]
    exact ⟨by omega, rfl⟩

/-! ## `udiv64` -/

/-- The upper half of 64 bits. -/
theorem toNat_high (n : UInt64) : (n >>> 32).toUInt32.toNat = n.toNat / 2 ^ 32 := by
  have hlt := n.toNat_lt
  rw [UInt64.toNat_toUInt32, UInt64.toNat_shiftRight]
  show n.toNat >>> 32 % 2 ^ 32 = _
  rw [Nat.shiftRight_eq_div_pow]
  exact Nat.mod_eq_of_lt (by omega)

/-- A divisor of 32 bits divides digit by digit. -/
theorem udiv64_small (hd : d ≠ 0) (hsmall : d >>> 32 = 0) : udiv64 n d = .ok (n / d) := by
  have hzero : d.toNat / 2 ^ 32 = 0 := by
    rw [← toNat_high, hsmall]
    rfl
  have hd₀ : d.toUInt32.toNat = d.toNat := by
    rw [UInt64.toNat_toUInt32]
    omega
  have hne : d.toUInt32 ≠ 0 := fun heq => hd (UInt64.toNat_inj.mp (by
    rw [← hd₀, heq]
    rfl))
  have hpos : 0 < d.toNat := by
    rw [← hd₀]
    exact Nat.pos_of_ne_zero fun heq => hne (UInt32.toNat_inj.mp heq)
  have hn := n.toNat_lt
  have hn1 := toNat_high n
  have hn0 : n.toUInt32.toNat = n.toNat % 2 ^ 32 := UInt64.toNat_toUInt32 n
  have hsplit : n.toNat = 2 ^ 32 * (n.toNat / 2 ^ 32) + n.toNat % 2 ^ 32 := by omega
  have hless : n.toNat / 2 ^ 32 % d.toNat < d.toNat := Nat.mod_lt _ hpos
  have hrem : ((n >>> 32).toUInt32 % d.toUInt32).toUInt64.toNat = n.toNat / 2 ^ 32 % d.toNat := by
    rw [UInt32.toNat_toUInt64, UInt32.toNat_mod, hn1, hd₀]
  have hquot : ((n >>> 32).toUInt32 / d.toUInt32).toUInt64.toNat = n.toNat / 2 ^ 32 / d.toNat := by
    rw [UInt32.toNat_toUInt64, UInt32.toNat_div, hn1, hd₀]
  have hone : ((1 : UInt64) <<< 32).toNat = 2 ^ 32 := rfl
  have hd32 := d.toUInt32.toNat_lt
  have hdividend : ((1 : UInt64) <<< 32 * ((n >>> 32).toUInt32 % d.toUInt32).toUInt64 +
      n.toUInt32.toUInt64).toNat = 2 ^ 32 * (n.toNat / 2 ^ 32 % d.toNat) + n.toNat % 2 ^ 32 := by
    rw [UInt64.toNat_add, UInt64.toNat_mul, hone, hrem, UInt32.toNat_toUInt64, hn0]
    omega
  obtain ⟨q, hq, hval⟩ := divl_ok (n := (1 : UInt64) <<< 32 *
    ((n >>> 32).toUInt32 % d.toUInt32).toUInt64 + n.toUInt32.toUInt64) hne (by omega)
  unfold udiv64 divide32
  rw [if_pos hsmall]
  dsimp only
  rw [if_neg hne, bind_ok]
  dsimp only
  rw [hq, bind_ok]
  refine congrArg Except.ok (UInt64.toNat_inj.mp ?_)
  have hwords := div_by_words (n.toNat / 2 ^ 32) (n.toNat % 2 ^ 32) d.toNat hpos
  rw [← hsplit] at hwords
  have hle : n.toNat / d.toNat ≤ n.toNat := Nat.div_le_self _ _
  rw [UInt64.toNat_add, UInt64.toNat_mul, hone, hquot, UInt32.toNat_toUInt64, hval, hdividend, hd₀,
    UInt64.toNat_div, Nat.add_mod_mod, ← hwords]
  exact Nat.mod_eq_of_lt (by omega)

/-- A divisor with more than 32 bits is shifted by `nlz` of its high word. -/
theorem shifted_nlz (hlarge : d >>> 32 ≠ 0) : Shifted d.toNat (nlz (d >>> 32).toUInt32) := by
  have hhigh := toNat_high d
  have hne : (d >>> 32).toUInt32 ≠ 0 := by
    intro heq
    rw [heq] at hhigh
    refine hlarge (UInt64.toNat_inj.mp ?_)
    rw [UInt64.toNat_shiftRight]
    show d.toNat >>> 32 = 0
    rw [Nat.shiftRight_eq_div_pow, ← hhigh]
    rfl
  obtain ⟨hfew, hlow, hlt⟩ := nlz_spec hne
  rw [hhigh] at hlow hlt
  exact ⟨hfew, hlow, hlt⟩

/-- A larger one divides by an estimate that is off by one at most. -/
theorem udiv64_large (hlarge : d >>> 32 ≠ 0) : udiv64 n d = .ok (n / d) := by
  have hs := shifted_nlz hlarge
  have hn := n.toNat_lt
  have hword := hs.word_ge
  have hle := Nat.div_mul_le_self d.toNat (2 ^ (32 - nlz (d >>> 32).toUInt32))
  have hdpos : 0 < d.toNat := by
    refine Nat.pos_of_ne_zero fun heq => ?_
    rw [heq, Nat.zero_div] at hword
    omega
  unfold udiv64
  rw [if_neg hlarge]
  by_cases hless : n < d
  · rw [if_pos hless]
    refine congrArg Except.ok (UInt64.toNat_inj.mp ?_)
    rw [UInt64.toNat_div, Nat.div_eq_of_lt (UInt64.lt_iff_toNat_lt.mp hless)]
    rfl
  rw [if_neg hless]
  dsimp only
  have hge : d.toNat ≤ n.toNat := by
    rw [UInt64.lt_iff_toNat_lt] at hless
    omega
  obtain ⟨hlow, hhigh⟩ := hs.estimate hn
  have hfew := hs.few
  have hlt := hs.lt
  have hhw := hs.word
  generalize nlz (d >>> 32).toUInt32 = s at *
  have hs64 : (UInt64.ofNat s).toNat % 64 = s := by
    rw [UInt64.toNat_ofNat_of_lt' (by have : UInt64.size = 2 ^ 64 := rfl; omega)]
    omega
  have hs32 : (UInt32.ofNat (31 - s)).toNat % 32 = 31 - s := by
    rw [UInt32.toNat_ofNat_of_lt' (by have : UInt32.size = 2 ^ 32 := rfl; omega)]
    omega
  have hshift : (d <<< UInt64.ofNat s).toNat = d.toNat * 2 ^ s := by
    rw [UInt64.toNat_shiftLeft, hs64, Nat.shiftLeft_eq, Nat.mod_eq_of_lt hlt]
  have hv : ((d <<< UInt64.ofNat s) >>> 32).toUInt32.toNat = d.toNat / 2 ^ (32 - s) := by
    rw [toNat_high, hshift, hhw]
  have hhalf : (n >>> 1).toNat = n.toNat / 2 := by
    rw [UInt64.toNat_shiftRight]
    exact Nat.shiftRight_eq_div_pow _ 1
  have hvne : ((d <<< UInt64.ofNat s) >>> 32).toUInt32 ≠ 0 := by
    intro heq
    rw [heq] at hv
    have : (0 : UInt32).toNat = 0 := rfl
    omega
  obtain ⟨q, hq, hval⟩ := divl_ok (n := n >>> 1) hvne (by
    rw [hhalf, hv]
    omega)
  rw [hq, bind_ok]
  have hq64 : (q >>> UInt32.ofNat (31 - s)).toUInt64.toNat =
      n.toNat / 2 / (d.toNat / 2 ^ (32 - s)) / 2 ^ (31 - s) := by
    rw [UInt32.toNat_toUInt64, UInt32.toNat_shiftRight, hs32, Nat.shiftRight_eq_div_pow, hval, hhalf, hv]
  generalize (q >>> UInt32.ofNat (31 - s)).toUInt64 = e at hq64 ⊢
  rw [← hq64] at hlow hhigh
  obtain ⟨hfits, hcorrect⟩ := correct_estimate hge hdpos hlow hhigh
  have hepos : 0 < e.toNat := Nat.lt_of_lt_of_le (Nat.div_pos hge hdpos) hlow
  have hone : (1 : UInt64).toNat = 1 := rfl
  have hprev : (e - 1).toNat = e.toNat - 1 := by
    rw [UInt64.toNat_sub_of_le _ _ (UInt64.le_iff_toNat_le.mpr (by rw [hone]; exact hepos)), hone]
  have hmul : ((e - 1) * d).toNat = (e.toNat - 1) * d.toNat := by
    rw [UInt64.toNat_mul, hprev, Nat.mod_eq_of_lt (by omega)]
  have hsub : (n - (e - 1) * d).toNat = n.toNat - (e.toNat - 1) * d.toNat := by
    rw [UInt64.toNat_sub_of_le _ _ (UInt64.le_iff_toNat_le.mpr (by omega)), hmul]
  refine congrArg Except.ok (UInt64.toNat_inj.mp ?_)
  rw [UInt64.toNat_div, ← hcorrect]
  by_cases hc : n - (e - 1) * d < d
  · rw [if_pos hc, if_pos (by rw [← hsub]; exact UInt64.lt_iff_toNat_lt.mp hc), hprev]
  · rw [if_neg hc, if_neg (by rw [← hsub]; exact fun h => hc (UInt64.lt_iff_toNat_lt.mpr h))]

/-- `udiv64` divides, and no `divl` traps. -/
theorem udiv64_ok (hd : d ≠ 0) : udiv64 n d = .ok (n / d) := by
  by_cases hsmall : d >>> 32 = 0
  · exact udiv64_small hd hsmall
  · exact udiv64_large hsmall

/-! ## Signed division -/

/-- A quotient as a signed number. -/
theorem toInt_toInt64 (q : UInt64) : q.toInt64.toInt = (q.toNat : Int).bmod (2 ^ 64) :=
  BitVec.toInt_eq_toNat_bmod _

/-- The sign is the highest bit. -/
theorem Int64.toInt_eq_cond (n : Int64) : n.toInt =
    if 2 * n.toUInt64.toNat < 2 ^ 64 then (n.toUInt64.toNat : Int) else n.toUInt64.toNat - (2 ^ 64 : Nat) :=
  BitVec.toInt_eq_toNat_cond _

/-- The absolute value, the least number included. -/
theorem toNat_abs64 (n : Int64) : (abs64 n).toNat = n.toInt.natAbs := by
  have hcond := Int64.toInt_eq_cond n
  have hlt := n.toUInt64.toNat_lt
  have hzero : (0 : Int64).toInt = 0 := rfl
  have hsize : UInt64.size = 2 ^ 64 := rfl
  unfold abs64
  by_cases hn : 0 ≤ n
  · have hpos := Int64.le_iff_toInt_le.mp hn
    rw [hzero] at hpos
    rw [if_pos hn]
    by_cases hhalf : 2 * n.toUInt64.toNat < 2 ^ 64
    · rw [if_pos hhalf] at hcond
      omega
    · rw [if_neg hhalf] at hcond
      omega
  · have hneg : n.toInt < 0 := by
      rw [Int64.le_iff_toInt_le, hzero] at hn
      omega
    rw [if_neg hn, UInt64.toNat_neg, hsize]
    by_cases hhalf : 2 * n.toUInt64.toNat < 2 ^ 64
    · rw [if_pos hhalf] at hcond
      omega
    · rw [if_neg hhalf] at hcond
      omega

/-- The quotient toward zero, by absolute values. -/
theorem tdiv_natAbs (a b : Int) : a.tdiv b =
    if (a < 0 ↔ b < 0) then ((a.natAbs / b.natAbs : Nat) : Int) else -((a.natAbs / b.natAbs : Nat) : Int) := by
  obtain ⟨m, rfl | rfl⟩ := Int.eq_nat_or_neg a <;> obtain ⟨k, rfl | rfl⟩ := Int.eq_nat_or_neg b
  · rw [if_pos (by omega), Int.natAbs_natCast, Int.natAbs_natCast, Int.ofNat_tdiv]
  · rw [Int.natAbs_neg, Int.natAbs_natCast, Int.natAbs_natCast, Int.tdiv_neg, ← Int.ofNat_tdiv]
    by_cases hk : k = 0
    · rw [hk, Nat.div_zero]
      exact (ite_self 0).symm
    · rw [if_neg (by omega)]
  · rw [Int.natAbs_neg, Int.natAbs_natCast, Int.natAbs_natCast, Int.neg_tdiv, ← Int.ofNat_tdiv]
    by_cases hm : m = 0
    · rw [hm, Nat.zero_div]
      exact (ite_self 0).symm
    · rw [if_neg (by omega)]
  · rw [Int.natAbs_neg, Int.natAbs_neg, Int.natAbs_natCast, Int.natAbs_natCast, Int.neg_tdiv,
      Int.tdiv_neg, Int.neg_neg, ← Int.ofNat_tdiv]
    by_cases hmk : m = 0 ∨ k = 0
    · have hzero : m / k = 0 := by
        rcases hmk with rfl | rfl
        · exact Nat.zero_div k
        · exact Nat.div_zero m
      rw [hzero]
      exact (ite_self 0).symm
    · rw [if_pos (by omega)]

/-- `sdiv64` divides. -/
theorem sdiv64_ok {n d : Int64} (hd : d ≠ 0) : sdiv64 n d = .ok (n / d) := by
  have habs : abs64 d ≠ 0 := by
    intro heq
    have hnat := toNat_abs64 d
    rw [heq] at hnat
    refine hd (Int64.toInt_inj.mp ?_)
    have hzero : (0 : UInt64).toNat = 0 := rfl
    have hzero' : (0 : Int64).toInt = 0 := rfl
    omega
  have hsign : ∀ m : Int64, m < 0 ↔ m.toInt < 0 := fun m => Int64.lt_iff_toInt_lt
  unfold sdiv64
  rw [udiv64_ok habs, bind_ok]
  refine congrArg Except.ok (Int64.toInt_inj.mp ?_)
  rw [Int64.toInt_div, tdiv_natAbs]
  by_cases hsame : n < 0 ↔ d < 0
  · rw [if_pos hsame, if_pos (by rwa [← hsign, ← hsign]), toInt_toInt64, UInt64.toNat_div,
      toNat_abs64, toNat_abs64]
  · rw [if_neg hsame, if_neg (by rwa [← hsign, ← hsign]), Int64.toInt_neg, toInt_toInt64,
      UInt64.toNat_div, toNat_abs64, toNat_abs64, Int.bmod_neg_bmod]

/-- Division of 64-bit numbers is exact, and traps for no divisor but zero. -/
theorem division_exact :
    (∀ n d : UInt64, d ≠ 0 → ∃ q, udivdi3 n d = .ok q ∧ q.toNat = n.toNat / d.toNat) ∧
    ∀ n d : Int64, d ≠ 0 → ¬(n.toInt = -2 ^ 63 ∧ d.toInt = -1) →
      ∃ q, divdi3 n d = .ok q ∧ q.toInt = n.toInt.tdiv d.toInt := by
  refine ⟨fun n d hd => ⟨n / d, udiv64_ok hd, UInt64.toNat_div n d⟩, fun n d hd hmin => ?_⟩
  refine ⟨n / d, sdiv64_ok hd, ?_⟩
  by_cases hn : n = Int64.minValue
  · refine Int64.toInt_div_of_ne_right n d fun heq => hmin ?_
    rw [hn, heq]
    exact ⟨rfl, rfl⟩
  · exact Int64.toInt_div_of_ne_left n d hn

/-- A quotient of the largest number, and one that is rounded toward zero. -/
theorem division_exact_large :
    (∃ q, udivdi3 0xffffffffffffffff 0x100000001 = .ok q ∧ q.toNat = 0xffffffff) ∧
      ∃ q, divdi3 (-7) 2 = .ok q ∧ q.toInt = -3 :=
  ⟨division_exact.1 0xffffffffffffffff 0x100000001 (by decide),
    division_exact.2 (-7) 2 (by decide) (by decide)⟩

/-! ## Remainders -/

/-- Some multiple of `b` is at most `a`, by less than `limit`. -/
def NearMultiple (a b limit : Nat) : Prop := ∃ k, k * b ≤ a ∧ a < k * b + limit

/-- The nearest multiple is the remainder away. -/
theorem nearMultiple_iff {limit : Nat} (hb : 0 < b) : NearMultiple a b limit ↔ a % b < limit := by
  have hmod := Nat.div_add_mod' a b
  constructor
  · rintro ⟨k, hle, hlt⟩
    have hmul : k * b ≤ a / b * b := Nat.mul_le_mul_right b ((Nat.le_div_iff_mul_le hb).mpr hle)
    omega
  · intro hlt
    exact ⟨a / b, by omega, by omega⟩

/-- What the remainder of unsigned numbers should be. -/
def UnsignedRemainder (n d : UInt64) : Prop := ∃ q r, udivdi3 n d = .ok q ∧ umoddi3 n d = .ok r ∧
  r = n - d * q ∧ r < d

/-- What the remainder of signed numbers should be. -/
def SignedRemainder (n d : Int64) : Prop := ∃ q r, divdi3 n d = .ok q ∧ moddi3 n d = .ok r ∧
  r = n - d * q ∧ (0 ≤ n.toInt → 0 ≤ r.toInt) ∧ (n.toInt ≤ 0 → r.toInt ≤ 0) ∧
  r.toInt.natAbs < d.toInt.natAbs

/-- In 64 bits the remainder is right. -/
theorem toNat_remainder (n d : UInt64) : (n - d * (n / d)).toNat = n.toNat % d.toNat := by
  have hmod := Nat.div_add_mod n.toNat d.toNat
  have hn := n.toNat_lt
  have hmul : (d * (n / d)).toNat = d.toNat * (n.toNat / d.toNat) := by
    rw [UInt64.toNat_mul, UInt64.toNat_div, Nat.mod_eq_of_lt (by omega)]
  rw [UInt64.toNat_sub_of_le _ _ (UInt64.le_iff_toNat_le.mpr (by omega)), hmul]
  omega

/-- `umod64` keeps 32 bits of the remainder. -/
theorem umoddi3_ok (hd : d ≠ 0) : ∃ r, umoddi3 n d = .ok r ∧ r.toNat = n.toNat % d.toNat % 2 ^ 32 := by
  refine ⟨(n - d * (n / d)).toUInt32.toUInt64, ?_, ?_⟩
  · unfold umoddi3 umod64
    rw [udiv64_ok hd, bind_ok, bind_ok]
  · rw [UInt32.toNat_toUInt64, UInt64.toNat_toUInt32, toNat_remainder]

/-- In 32 it is right if it fits. -/
theorem unsignedRemainder_iff (hd : d ≠ 0) :
    UnsignedRemainder n d ↔ NearMultiple n.toNat d.toNat (2 ^ 32) := by
  have hpos : 0 < d.toNat := Nat.pos_of_ne_zero fun heq => hd (UInt64.toNat_inj.mp heq)
  obtain ⟨r, hr, hval⟩ := umoddi3_ok (n := n) hd
  have hless := Nat.mod_lt n.toNat hpos
  have hquot : udivdi3 n d = .ok (n / d) := udiv64_ok hd
  rw [nearMultiple_iff hpos]
  constructor
  · rintro ⟨q, r', hq, hr', heq, -⟩
    rw [hquot] at hq
    rw [hr] at hr'
    cases hq
    cases hr'
    have hsame := congrArg UInt64.toNat heq
    rw [toNat_remainder] at hsame
    omega
  · intro hlt
    refine ⟨n / d, r, hquot, hr, UInt64.toNat_inj.mp ?_, UInt64.lt_iff_toNat_lt.mpr ?_⟩
    · rw [toNat_remainder, hval, Nat.mod_eq_of_lt hlt]
    · omega

/-- The remainder toward zero has the sign of the dividend. -/
theorem tmod_sign (a b : Int) : (0 ≤ a → 0 ≤ a.tmod b) ∧ (a ≤ 0 → a.tmod b ≤ 0) := by
  refine ⟨Int.tmod_nonneg b, fun ha => ?_⟩
  have hneg := Int.tmod_nonneg b (Int.neg_nonneg.mpr ha)
  rw [Int.neg_tmod] at hneg
  omega

/-- Signed it takes the sign of the dividend. -/
theorem toInt_remainder (n d : Int64) : (n - d * (n / d)).toInt = n.toInt.tmod d.toInt := by
  have hlow := n.le_toInt
  have hhigh := n.toInt_lt
  have hmod : n.toInt - d.toInt * n.toInt.tdiv d.toInt = n.toInt.tmod d.toInt := by
    have := Int.mul_tdiv_add_tmod n.toInt d.toInt
    omega
  have habs := Int.natAbs_tmod n.toInt d.toInt
  have hle := Nat.mod_le n.toInt.natAbs d.toInt.natAbs
  obtain ⟨hpos, hneg⟩ := tmod_sign n.toInt d.toInt
  rw [Int64.toInt_sub, Int64.toInt_mul, Int64.toInt_div, Int.sub_bmod_bmod, Int.sub_bmod,
    Int.mul_bmod_bmod, ← Int.sub_bmod, hmod]
  exact Int.bmod_eq_of_le (by omega) (by omega)

/-- `smod64` keeps 32 bits of the remainder. -/
theorem moddi3_ok {n d : Int64} (hd : d ≠ 0) :
    ∃ r, moddi3 n d = .ok r ∧ r.toInt = (n.toInt.tmod d.toInt).bmod (2 ^ 32) := by
  refine ⟨(n - d * (n / d)).toInt32.toInt64, ?_, ?_⟩
  · unfold moddi3 smod64
    rw [sdiv64_ok hd, bind_ok, bind_ok]
  · rw [Int32.toInt_toInt64, Int64.toInt_toInt32, toInt_remainder]

/-- In 32 bits it is right if it fits there. -/
theorem signedRemainder_iff {n d : Int64} (hd : d ≠ 0) : SignedRemainder n d ↔
    NearMultiple n.toInt.natAbs d.toInt.natAbs (2 ^ 31 + if n.toInt < 0 then 1 else 0) := by
  have hdint : d.toInt ≠ 0 := fun heq => hd (Int64.toInt_inj.mp heq)
  have hpos : 0 < d.toInt.natAbs := Int.natAbs_pos.mpr hdint
  obtain ⟨r, hr, hval⟩ := moddi3_ok (n := n) hd
  have habs := Int.natAbs_tmod n.toInt d.toInt
  have hless := Nat.mod_lt n.toInt.natAbs hpos
  obtain ⟨hsign, hsign'⟩ := tmod_sign n.toInt d.toInt
  have hquot : divdi3 n d = .ok (n / d) := sdiv64_ok hd
  rw [nearMultiple_iff hpos, ← habs]
  constructor
  · rintro ⟨q, r', hq, hr', heq, -⟩
    rw [hquot] at hq
    rw [hr] at hr'
    cases hq
    cases hr'
    have hsame := congrArg Int64.toInt heq
    have hlow := Int.le_bmod (x := n.toInt.tmod d.toInt) (Nat.two_pow_pos 32)
    have hhigh := Int.bmod_lt (x := n.toInt.tmod d.toInt) (Nat.two_pow_pos 32)
    rw [toInt_remainder] at hsame
    split <;> omega
  · intro hlt
    have hkept : (n.toInt.tmod d.toInt).bmod (2 ^ 32) = n.toInt.tmod d.toInt := by
      refine Int.bmod_eq_of_le ?_ ?_ <;> split at hlt <;> omega
    rw [hkept] at hval
    refine ⟨n / d, r, hquot, hr, Int64.toInt_inj.mp ?_, ?_, ?_, ?_⟩
    · rw [toInt_remainder, hval]
    · rw [hval]
      exact hsign
    · rw [hval]
      exact hsign'
    · rw [hval]
      omega

/-- The remainder is right as long as it fits in 32 bits. -/
theorem remainder_iff (un ud : UInt64) (n d : Int64) (hud : ud ≠ 0) (hd : d ≠ 0) :
    (UnsignedRemainder un ud ↔ NearMultiple un.toNat ud.toNat (2 ^ 32)) ∧
    (SignedRemainder n d ↔
      NearMultiple n.toInt.natAbs d.toInt.natAbs (2 ^ 31 + if n.toInt < 0 then 1 else 0)) :=
  ⟨unsignedRemainder_iff hud, signedRemainder_iff hd⟩

/-- The unsigned remainder is `2 ^ 32 - 1`, and the signed one -2. -/
theorem remainder_iff_small : UnsignedRemainder 0x2ffffffff 0x100000000 ∧ SignedRemainder (-100) 7 := by
  obtain ⟨hunsigned, hsigned⟩ := remainder_iff 0x2ffffffff 0x100000000 (-100) 7 (by decide) (by decide)
  exact ⟨hunsigned.mpr ⟨2, by decide, by decide⟩, hsigned.mpr ⟨14, by decide, by decide⟩⟩

/-- 2^32 modulo 2^33 comes out as 0, and 2^31 modulo 2^32 as -2^31. -/
theorem remainder_truncated : umoddi3 0x100000000 0x200000000 = .ok 0 ∧
    moddi3 0x80000000 0x100000000 = .ok (-0x80000000) ∧
    ¬UnsignedRemainder 0x100000000 0x200000000 ∧ ¬SignedRemainder 0x80000000 0x100000000 := by
  have hunsigned : umoddi3 0x100000000 0x200000000 = .ok 0 := by decide
  have hsigned : moddi3 0x80000000 0x100000000 = .ok (-0x80000000) := by decide
  refine ⟨hunsigned, hsigned, ?_, ?_⟩
  · rintro ⟨q, r, hq, hr, heq, -⟩
    have hquot : udivdi3 0x100000000 0x200000000 = .ok 0 := by decide
    rw [hquot] at hq
    rw [hunsigned] at hr
    cases hq
    cases hr
    exact absurd heq (by decide)
  · rintro ⟨q, r, hq, hr, heq, -⟩
    have hquot : divdi3 0x80000000 0x100000000 = .ok 0 := by decide
    rw [hquot] at hq
    rw [hsigned] at hr
    cases hq
    cases hr
    exact absurd heq (by decide)

end Pintos.Libc
