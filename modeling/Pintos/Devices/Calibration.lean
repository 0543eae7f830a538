import Mathlib.Algebra.Group.Nat.Defs
import Mathlib.Data.Nat.Size
import Pintos.Lib.Fallible

/-!
# `timer_calibrate`

The calibration of `devices/timer.c`. `tooManyLoops` stands for the wait of `too_many_loops`; the proofs
take it as a threshold, `loops > T`. An `unsigned` has 32 bits, and the loops have fuel, which counts
their rounds.

The first loop finds the leading bit of the threshold. The second tries the nine bits below it, each
together with the leading bit alone, not with the bits that have been taken before it. So it takes every
bit that is not above the first one of the rest of the threshold (`timerCalibrate_eq`).
-/

namespace Pintos.Devices

open Pintos.Lib

inductive CalibrateFault where
  /-- `intr_get_level () == INTR_ON`. -/
  | interruptsOff
  /-- `loops_per_tick != 0`. -/
  | noLoops
  /-- The fuel is not enough. -/
  | notDone
  deriving DecidableEq, Repr

/-- The loop that doubles `loops_per_tick`. -/
def doubleLoop (tooManyLoops : Nat → Bool) : Nat → Nat → Except CalibrateFault Nat
  | 0, _ => .error .notDone
  | fuel + 1, loopsPerTick =>
    if tooManyLoops ((loopsPerTick <<< 1) % 2 ^ 32) then .ok loopsPerTick
    else
      let loopsPerTick := (loopsPerTick <<< 1) % 2 ^ 32
      if loopsPerTick = 0 then .error .noLoops
      else doubleLoop tooManyLoops fuel loopsPerTick

/-- The loop that refines it. -/
def refineLoop (tooManyLoops : Nat → Bool) (highBit : Nat) : Nat → Nat → Nat → Except CalibrateFault Nat
  | 0, _, _ => .error .notDone
  | fuel + 1, testBit, loopsPerTick =>
    if testBit ≠ highBit >>> 10 then
      let loopsPerTick :=
        if tooManyLoops (highBit ||| testBit) then loopsPerTick else loopsPerTick ||| testBit
      refineLoop tooManyLoops highBit fuel (testBit >>> 1) loopsPerTick
    else .ok loopsPerTick

/-- `timer_calibrate`: what it leaves in `loops_per_tick`. -/
def timerCalibrate (intrOn : Bool) (tooManyLoops : Nat → Bool) (fuel : Nat) :
    Except CalibrateFault Nat :=
  if ¬intrOn then .error .interruptsOff
  else do
    let highBit ← doubleLoop tooManyLoops fuel (1 <<< 10)
    refineLoop tooManyLoops highBit fuel (highBit >>> 1) highBit

variable {T k e i j q fuel : Nat}

/-- More loops than the threshold are too many. -/
def above (T loops : Nat) : Bool := decide (T < loops)

/-! ## The leading bit -/

/-- The first loop stops at the leading bit. -/
theorem doubleLoop_above (hlow : 2 ^ k ≤ T) (hhigh : T < 2 ^ (k + 1)) (hk : k < 31) (hi : i ≤ k)
    (hfuel : k < fuel + i) : doubleLoop (above T) fuel (2 ^ i) = .ok (2 ^ k) := by
  induction fuel generalizing i with
  | zero => omega
  | succ fuel ih =>
    have hshift : (2 ^ i <<< 1) % 2 ^ 32 = 2 ^ (i + 1) := by
      rw [Nat.shiftLeft_eq, ← Nat.pow_add]
      exact Nat.mod_eq_of_lt (Nat.pow_lt_pow_right (by omega) (by omega))
    unfold doubleLoop above
    rw [hshift]
    by_cases heq : i = k
    · rw [heq, if_pos (decide_eq_true hhigh)]
    · have hle : 2 ^ (i + 1) ≤ 2 ^ k := Nat.pow_le_pow_right (by omega) (by omega)
      have hpos : 2 ^ (i + 1) ≠ 0 := Nat.ne_of_gt (Nat.two_pow_pos _)
      rw [if_neg (by rw [decide_eq_true_iff]; omega)]
      dsimp only
      rw [if_neg hpos]
      exact ih (by omega) (by omega)

/-! ## The bits below it -/

/-- A bit below the lowest of a number. -/
theorem or_lower_bit (a i : Nat) : (2 ^ (i + 1) * a) ||| 2 ^ i = 2 ^ (i + 1) * a + 2 ^ i :=
  (Nat.two_pow_add_eq_or_of_lt (Nat.pow_lt_pow_right (by omega) (by omega)) a).symm

theorem lead_eq (e : Nat) : 2 ^ (e + 10) = 2 ^ 9 * 2 ^ (e + 1) := by
  rw [← Nat.pow_add]
  congr 1
  omega

theorem highBit_shift (e : Nat) : 2 ^ (e + 10) >>> 10 = 2 ^ e := by
  rw [Nat.shiftRight_eq_div_pow, Nat.pow_add, Nat.mul_div_cancel _ (Nat.two_pow_pos _)]

/-- What is left of a threshold below its leading bit, in units of the last bit that is tried. -/
def rest (T e : Nat) : Nat := T / 2 ^ (e + 1) - 2 ^ 9

/-- A bit is taken if the rest of the threshold is as large. -/
theorem above_or_bit (hlow : 2 ^ (e + 10) ≤ T) (hj : j < 9) :
    above T (2 ^ (e + 10) ||| 2 ^ (e + 1 + j)) = true ↔ ¬2 ^ j ≤ rest T e := by
  have hor : 2 ^ (e + 10) ||| 2 ^ (e + 1 + j) = (2 ^ 9 + 2 ^ j) * 2 ^ (e + 1) := by
    rw [Nat.or_comm, Nat.or_two_pow_eq_add_of_lt (Nat.pow_lt_pow_right (by omega) (by omega)), Nat.add_mul,
      ← lead_eq, ← Nat.pow_add, Nat.add_comm j, Nat.add_comm]
  have hdiv : 2 ^ 9 ≤ T / 2 ^ (e + 1) := by
    rw [Nat.le_div_iff_mul_le (Nat.two_pow_pos _), ← lead_eq]
    exact hlow
  unfold above rest
  rw [decide_eq_true_iff, hor, ← Nat.not_le, ← Nat.le_div_iff_mul_le (Nat.two_pow_pos _)]
  omega

/-- The second loop from its last `j` bits on: it takes those up to the first bit of the rest. -/
theorem refineLoop_above (hlow : 2 ^ (e + 10) ≤ T) (hj : j ≤ 9) (a : Nat) (hfuel : j < fuel) :
    refineLoop (above T) (2 ^ (e + 10)) fuel (2 ^ (e + j)) (2 ^ (e + 1 + j) * a) =
      .ok (2 ^ (e + 1 + j) * a + 2 ^ (e + 1) * (2 ^ min j (rest T e).size - 1)) := by
  induction j generalizing fuel a with
  | zero =>
    obtain ⟨fuel, rfl⟩ := Nat.exists_eq_succ_of_ne_zero (Nat.ne_of_gt hfuel)
    unfold refineLoop
    rw [highBit_shift, Nat.add_zero, if_neg (not_not_intro rfl), Nat.zero_min]
    simp
  | succ j ih =>
    obtain ⟨fuel, rfl⟩ := Nat.exists_eq_succ_of_ne_zero (Nat.ne_zero_of_lt hfuel)
    have hgo : 2 ^ (e + (j + 1)) ≠ 2 ^ (e + 10) >>> 10 := by
      rw [highBit_shift]
      exact Nat.ne_of_gt (Nat.pow_lt_pow_right (by omega) (by omega))
    have hbit : e + (j + 1) = e + 1 + j := by omega
    have hnext : 2 ^ (e + (j + 1)) >>> 1 = 2 ^ (e + j) := by
      rw [Nat.shiftRight_eq_div_pow, ← Nat.add_assoc, Nat.pow_succ, Nat.pow_one,
        Nat.mul_div_cancel _ (by omega)]
    have hdouble : 2 ^ (e + 1 + (j + 1)) * a = 2 ^ (e + 1 + j) * (2 * a) := by
      rw [← Nat.add_assoc, Nat.pow_succ, Nat.mul_assoc]
    unfold refineLoop
    rw [if_pos hgo, hnext]
    dsimp only
    rw [hbit, ← Nat.add_assoc, or_lower_bit, Nat.add_assoc _ j, hdouble]
    by_cases htake : 2 ^ j ≤ rest T e
    · have hsize : j < (rest T e).size := Nat.lt_size.mpr htake
      have htaken : 2 ^ (e + 1 + j) * (2 * a) + 2 ^ (e + 1 + j) = 2 ^ (e + 1 + j) * (2 * a + 1) := rfl
      rw [if_neg fun h => (above_or_bit hlow (by omega)).mp h htake, htaken, ih (by omega) _ (by omega),
        Nat.min_eq_left hsize, Nat.min_eq_left (by omega)]
      have hunit : 2 ^ (e + 1) ≤ 2 ^ (e + 1 + j) := Nat.pow_le_pow_right (by omega) (by omega)
      have hnine : 2 ^ (e + 1) * 2 ^ (j + 1) = 2 * 2 ^ (e + 1 + j) := by
        rw [← Nat.pow_add, ← Nat.add_assoc, Nat.pow_succ, Nat.mul_comm]
      rw [Nat.mul_sub, Nat.mul_sub, hnine, ← Nat.pow_add, Nat.mul_one, Nat.mul_add]
      congr 1
      omega
    · have hsize : (rest T e).size ≤ j := by
        rw [Nat.size_le]
        omega
      rw [if_pos ((above_or_bit hlow (by omega)).mpr htake), ih (by omega) _ (by omega),
        Nat.min_eq_right hsize, Nat.min_eq_right (by omega)]

/-! ## The result -/

/-- The last bit that is tried, for a threshold with its leading bit at `k`. -/
def lastBit (T : Nat) : Nat := 2 ^ (T.log2 - 9)

/-- The nine bits of a threshold behind its leading bit. -/
def refined (T : Nat) : Nat := T / lastBit T - 2 ^ 9

/-- A threshold by its leading bit. -/
theorem exists_lead (hlow : 2 ^ 10 ≤ T) (hhigh : T < 2 ^ 31) :
    ∃ e, e ≤ 20 ∧ lastBit T = 2 ^ (e + 1) ∧ 2 ^ (e + 10) ≤ T ∧ T < 2 ^ (e + 10 + 1) := by
  have hne : T ≠ 0 := by omega
  have hk : 10 ≤ T.log2 := (Nat.le_log2 hne).mpr hlow
  have hk' : T.log2 < 31 := (Nat.log2_lt hne).mpr hhigh
  obtain ⟨e, he⟩ : ∃ e, T.log2 = e + 10 := ⟨T.log2 - 10, by omega⟩
  refine ⟨e, by omega, ?_, he ▸ Nat.log2_self_le hne, he ▸ Nat.lt_log2_self⟩
  unfold lastBit
  rw [he]
  congr 1

/-- Behind the leading bit there are nine. -/
theorem div_lastBit (hlow : 2 ^ 10 ≤ T) (hhigh : T < 2 ^ 31) :
    2 ^ 9 ≤ T / lastBit T ∧ T / lastBit T < 2 ^ 9 + 2 ^ 9 := by
  obtain ⟨e, -, hlast, hlead, hnext⟩ := exists_lead hlow hhigh
  rw [hlast, Nat.le_div_iff_mul_le (Nat.two_pow_pos _), Nat.div_lt_iff_lt_mul (Nat.two_pow_pos _)]
  rw [Nat.pow_succ, lead_eq] at hnext
  rw [lead_eq] at hlead
  omega

/-- The leading bit, and all the bits from the first one of the next nine down. -/
theorem timerCalibrate_eq (hlow : 2 ^ 10 ≤ T) (hhigh : T < 2 ^ 31) (hfuel : 32 ≤ fuel) :
    timerCalibrate true (above T) fuel =
      .ok (lastBit T * 2 ^ 9 + lastBit T * (2 ^ (refined T).size - 1)) := by
  obtain ⟨e, he, hlast, hlead, hnext⟩ := exists_lead hlow hhigh
  have hrest : rest T e = refined T := by
    unfold rest refined
    rw [hlast]
  have hsize : (refined T).size ≤ 9 := by
    have hdiv := div_lastBit hlow hhigh
    rw [Nat.size_le]
    unfold refined
    omega
  have hdouble := doubleLoop_above hlead hnext (by omega) (show 10 ≤ e + 10 by omega)
    (show e + 10 < fuel + 10 by omega)
  have hrefine := refineLoop_above hlead (Nat.le_refl 9) 1 (show 9 < fuel by omega)
  have hfirst : 2 ^ (e + 10) >>> 1 = 2 ^ (e + 9) := by
    rw [Nat.shiftRight_eq_div_pow, Nat.pow_succ, Nat.pow_one, Nat.mul_div_cancel _ (by omega)]
  have hexp : e + 1 + 9 = e + 10 := by omega
  rw [hexp, Nat.mul_one, hrest, Nat.min_eq_right hsize] at hrefine
  unfold timerCalibrate
  rw [if_neg (not_not_intro rfl)]
  show doubleLoop (above T) fuel (2 ^ 10) >>= _ = _
  rw [hdouble, bind_ok, hfirst, hrefine, hlast, lead_eq]
  rw [Nat.mul_comm (2 ^ 9)]

/-- The result is no more than the threshold, and with another unit of the last bit it is more. -/
def FitsTick (T loopsPerTick : Nat) : Prop := loopsPerTick ≤ T ∧ T < loopsPerTick + lastBit T

/-- The size of what is one less than a power of two. -/
theorem exists_two_pow_iff : (∃ j, q + 1 = 2 ^ j) ↔ q + 1 = 2 ^ q.size := by
  constructor
  · rintro ⟨j, hj⟩
    have hle : q.size ≤ j := Nat.size_le.mpr (by omega)
    have hge : j ≤ q.size := by
      cases j with
      | zero => exact Nat.zero_le _
      | succ i =>
        have hpos := Nat.two_pow_pos i
        rw [Nat.pow_succ] at hj
        exact Nat.lt_size.mpr (by omega)
    rw [hj, Nat.le_antisymm hle hge]
  · exact fun h => ⟨_, h⟩

/-- Calibration succeeds; what it finds fits if the nine bits are zeros and then ones. -/
theorem timerCalibrate_fits_iff (hlow : 2 ^ 10 ≤ T) (hhigh : T < 2 ^ 31) (hfuel : 32 ≤ fuel) :
    (∃ loopsPerTick, timerCalibrate true (above T) fuel = .ok loopsPerTick ∧ FitsTick T loopsPerTick) ↔
      ∃ j, refined T + 1 = 2 ^ j := by
  have hpos : 0 < lastBit T := Nat.two_pow_pos _
  have hfits : FitsTick T (lastBit T * 2 ^ 9 + lastBit T * (2 ^ (refined T).size - 1)) ↔
      refined T + 1 = 2 ^ (refined T).size := by
    have hlead := (div_lastBit hlow hhigh).1
    unfold FitsTick
    rw [← Nat.mul_add, Nat.mul_comm, ← Nat.le_div_iff_mul_le hpos, ← Nat.succ_mul, ← Nat.div_lt_iff_lt_mul hpos]
    have hsize := Nat.two_pow_pos (refined T).size
    unfold refined at *
    omega
  rw [exists_two_pow_iff, ← hfits, timerCalibrate_eq hlow hhigh hfuel]
  constructor
  · rintro ⟨_, hrun, h⟩
    exact Except.ok.inj hrun ▸ h
  · exact fun h => ⟨_, rfl, h⟩

/-- 1030 is 1024 and three units of 2. -/
theorem timerCalibrate_fits_iff_1030 :
    ∃ loopsPerTick, timerCalibrate true (above 1030) 32 = .ok loopsPerTick ∧ FitsTick 1030 loopsPerTick :=
  (timerCalibrate_fits_iff (by decide) (by decide) (by decide)).mpr ⟨2, by decide⟩

/-- For a threshold of 1536 it finds 2046. -/
theorem timerCalibrate_not_fits : ¬∀ T fuel, 2 ^ 10 ≤ T → T < 2 ^ 31 → 32 ≤ fuel →
    ∃ loopsPerTick, timerCalibrate true (above T) fuel = .ok loopsPerTick ∧ FitsTick T loopsPerTick := by
  intro h
  obtain ⟨loopsPerTick, hrun, hle, -⟩ := h 1536 32 (by decide) (by decide) (by decide)
  have hfound : timerCalibrate true (above 1536) 32 = .ok 2046 := rfl
  have heq := Except.ok.inj (hfound.symm.trans hrun)
  omega

end Pintos.Devices
