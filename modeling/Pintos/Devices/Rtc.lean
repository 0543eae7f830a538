import Mathlib.Algebra.Ring.Nat
import Mathlib.Algebra.BigOperators.Group.List.Basic
import Mathlib.Data.List.GetD
import Mathlib.Tactic.IntervalCases
import Pintos.Lib.Fallible

/-!
# The real-time clock

`devices/rtc.c`. `cmos` is what the clock's registers hold at each read, the reads being counted from 0
on. The loop that reads the registers has fuel, which counts its rounds. A `time_t` is an unsigned word
of 32 bits; the one `int` that may overflow is checked.

The times are compared with the calendar: years of 365 days or 366, and months of 28 to 31
(`Date.seconds`). The loop over months counts the current month too, and a leap year is taken for one
with a multiple of 4 years since 1970, so that the time is 26 to 32 days late (`rtcGetTime_late`).
-/

namespace Pintos.Devices

open Pintos.Lib

def rtcRegSec : UInt8 := 0
def rtcRegMin : UInt8 := 2
def rtcRegHour : UInt8 := 4
def rtcRegMday : UInt8 := 7
def rtcRegMon : UInt8 := 8
def rtcRegYear : UInt8 := 9

inductive RtcFault where
  /-- The fuel is not enough. -/
  | notDone
  /-- An `int` that is out of range. -/
  | overflow
  /-- An index that is not in `days_per_month`. -/
  | outside
  deriving DecidableEq, Repr

/-- What the registers hold at each read. -/
abbrev Cmos := Nat → UInt8 → UInt8

/-- `bcd_to_bin`. -/
def bcdToBin (x : UInt8) : Nat := (x &&& 0x0f).toNat + (x >>> 4).toNat * 10

/-- `cmos_read`, the read number `n`. -/
def cmosRead (cmos : Cmos) (n : Nat) (index : UInt8) : UInt8 := cmos n index

/-- The components of a time. -/
structure Components where
  sec : Nat
  min : Nat
  hour : Nat
  mday : Nat
  mon : Nat
  year : Nat
  deriving DecidableEq, Repr

/-- The loop that reads them until the second does not change meanwhile. -/
def readLoop (cmos : Cmos) : Nat → Nat → Except RtcFault Components
  | 0, _ => .error .notDone
  | fuel + 1, n =>
    let sec := bcdToBin (cmosRead cmos n rtcRegSec)
    let min := bcdToBin (cmosRead cmos (n + 1) rtcRegMin)
    let hour := bcdToBin (cmosRead cmos (n + 2) rtcRegHour)
    let mday := bcdToBin (cmosRead cmos (n + 3) rtcRegMday)
    let mon := bcdToBin (cmosRead cmos (n + 4) rtcRegMon)
    let year := bcdToBin (cmosRead cmos (n + 5) rtcRegYear)
    if sec ≠ bcdToBin (cmosRead cmos (n + 6) rtcRegSec) then readLoop cmos fuel (n + 7)
    else .ok ⟨sec, min, hour, mday, mon, year⟩

def daysPerMonth : List Nat := [31, 28, 31, 30, 31, 30, 31, 31, 30, 31, 30, 31]

/-- An `int` added to a `time_t`. -/
def addTime (time : Nat) (x : Int) : Nat := ((time + x) % 2 ^ 32).toNat

/-- The loop over months. -/
def monthLoop : List Nat → Nat → Except RtcFault Nat
  | [], time => .ok time
  | i :: is, time =>
    match daysPerMonth[i - 1]? with
    | none => .error .outside
    | some days => monthLoop is (addTime time (days * 24 * 60 * 60))

/-- The days of the years before this one, in seconds. -/
def yearsTime (year : Int) : Except RtcFault Nat :=
  let time := (year * 365 + (year - 1).tdiv 4) * 24 * 60 * 60
  if -2 ^ 31 ≤ time ∧ time < 2 ^ 31 then .ok (addTime 0 time) else .error .overflow

/-- `rtc_get_time`. -/
def rtcGetTime (cmos : Cmos) (fuel : Nat) : Except RtcFault Nat := do
  let c ← readLoop cmos fuel 0
  let year : Int := (if c.year < 70 then c.year + 100 else c.year) - 70
  let time ← yearsTime year
  let time ← monthLoop (List.range' 1 c.mon) time
  let time := if 2 < c.mon ∧ year % 4 = 0 then addTime time (24 * 60 * 60) else time
  let time := addTime time ((c.mday - 1) * 24 * 60 * 60)
  let time := addTime time (c.hour * 60 * 60)
  let time := addTime time (c.min * 60)
  .ok (addTime time c.sec)

/-! ## The calendar -/

def IsLeap (y : Nat) : Prop := y % 4 = 0 ∧ (y % 100 ≠ 0 ∨ y % 400 = 0)

instance (y : Nat) : Decidable (IsLeap y) := inferInstanceAs (Decidable (_ ∧ _))

def daysInYear (y : Nat) : Nat := if IsLeap y then 366 else 365

def daysInMonth (y : Nat) : Nat → Nat
  | 2 => if IsLeap y then 29 else 28
  | 4 | 6 | 9 | 11 => 30
  | _ => 31

structure Date where
  year : Nat
  month : Nat
  day : Nat
  hour : Nat
  minute : Nat
  second : Nat
  deriving DecidableEq, Repr

/-- A date and time of day from 1970 to 2037. -/
structure Date.Valid (d : Date) : Prop where
  year : 1970 ≤ d.year ∧ d.year ≤ 2037
  month : 1 ≤ d.month ∧ d.month ≤ 12
  day : 1 ≤ d.day ∧ d.day ≤ daysInMonth d.year d.month
  hour : d.hour < 24
  minute : d.minute < 60
  second : d.second < 60

/-- The days since 1970-01-01. -/
def Date.days (d : Date) : Nat :=
  ((List.range' 1970 (d.year - 1970)).map daysInYear).sum +
    ((List.range' 1 (d.month - 1)).map (daysInMonth d.year)).sum + (d.day - 1)

/-- The seconds since 1970-01-01 00:00:00. -/
def Date.seconds (d : Date) : Nat := d.days * 86400 + d.hour * 3600 + d.minute * 60 + d.second

/-- A number below 100 in BCD. -/
def toBcd (n : Nat) : UInt8 := UInt8.ofNat (n / 10 * 16 + n % 10)

/-- What the clock's registers hold. -/
def Date.registers (d : Date) (index : UInt8) : UInt8 :=
  if index = rtcRegSec then toBcd d.second
  else if index = rtcRegMin then toBcd d.minute
  else if index = rtcRegHour then toBcd d.hour
  else if index = rtcRegMday then toBcd d.day
  else if index = rtcRegMon then toBcd d.month
  else if index = rtcRegYear then toBcd (d.year % 100)
  else 0

variable {d : Date} {n y m fuel time : Nat} {x : Int}

/-- Two decimal digits are read back. -/
theorem bcdToBin_toBcd : ∀ n < 100, bcdToBin (toBcd n) = n := by decide

/-- Every fourth year is a leap year up to 2037. -/
theorem isLeap_iff (hn : n ≤ 67) : IsLeap (1970 + n) ↔ n % 4 = 2 := by
  unfold IsLeap
  omega

/-- The years before one up to 2037. -/
theorem sum_daysInYear (hn : n ≤ 68) :
    ((List.range' 1970 n).map daysInYear).sum = 365 * n + (n + 1) / 4 := by
  induction n with
  | zero => rfl
  | succ n ih =>
    rw [List.range'_1_concat, List.map_append, List.sum_append, ih (by omega), List.map_singleton,
      List.sum_singleton]
    unfold daysInYear
    have hleap := isLeap_iff (show n ≤ 67 by omega)
    by_cases h : IsLeap (1970 + n)
    · have := hleap.mp h
      rw [if_pos h]
      omega
    · have := mt hleap.mpr h
      rw [if_neg h]
      omega

/-- The days of a month that is not in a leap year. -/
def monthDays (i : Nat) : Nat := daysPerMonth.getD (i - 1) 0

/-- 1 for the month that has a leap day. -/
def leapDay (y m : Nat) : Nat := if m = 2 ∧ IsLeap y then 1 else 0

/-- The days are the table's, and one more in a leap February. -/
theorem daysInMonth_eq (hm : 1 ≤ m ∧ m ≤ 12) (y : Nat) :
    daysInMonth y m = monthDays m + leapDay y m := by
  obtain ⟨hlow, hhigh⟩ := hm
  unfold leapDay
  interval_cases m <;> simp [daysInMonth, monthDays, daysPerMonth]
  split <;> rfl

/-- The months up to one. -/
theorem sum_daysInMonth (hm : m ≤ 12) (y : Nat) :
    ((List.range' 1 m).map (daysInMonth y)).sum =
      ((List.range' 1 m).map monthDays).sum + if 2 ≤ m ∧ IsLeap y then 1 else 0 := by
  induction m with
  | zero => rfl
  | succ m ih =>
    rw [List.range'_1_concat, List.map_append, List.sum_append, List.map_append, List.sum_append,
      ih (by omega), List.map_singleton, List.map_singleton, List.sum_singleton, List.sum_singleton,
      daysInMonth_eq (by omega)]
    unfold leapDay
    by_cases h : IsLeap y
    · simp only [h, and_true]
      split <;> split <;> split <;> omega
    · simp only [h, and_false, if_false, Nat.add_zero]

/-- A month has 28 to 31. -/
theorem monthDays_bounds (hm : 1 ≤ m ∧ m ≤ 12) : 28 ≤ monthDays m ∧ monthDays m ≤ 31 := by
  obtain ⟨hlow, hhigh⟩ := hm
  interval_cases m <;> decide

/-- The months before a date have at most 31 days each. -/
theorem sum_monthDays_le (hm : m ≤ 12) : ((List.range' 1 m).map monthDays).sum ≤ 31 * m := by
  induction m with
  | zero => exact Nat.le_refl 0
  | succ m ih =>
    rw [List.range'_1_concat, List.map_append, List.sum_append, List.map_singleton, List.sum_singleton]
    have hlast := (monthDays_bounds (m := 1 + m) (by omega)).2
    have := ih (by omega)
    omega

/-! ## What `rtc_get_time` returns -/

/-- A sum that is in range. -/
theorem addTime_eq {s : Nat} (hs : (time + x : Int) = s) (hlt : s < 2 ^ 32) : addTime time x = s := by
  unfold addTime
  rw [hs]
  omega

/-- The loop adds the months it runs over. -/
theorem monthLoop_ok (is : List Nat) (his : ∀ i ∈ is, 1 ≤ i ∧ i ≤ 12) (time : Nat)
    (hlt : time + (is.map monthDays).sum * 86400 < 2 ^ 32) :
    monthLoop is time = .ok (time + (is.map monthDays).sum * 86400) := by
  induction is generalizing time with
  | nil => rfl
  | cons i is ih =>
    have hi := his i List.mem_cons_self
    have hlen : i - 1 < daysPerMonth.length := by
      have hlen : daysPerMonth.length = 12 := rfl
      omega
    have hdays : daysPerMonth[i - 1]? = some (monthDays i) := by
      unfold monthDays
      rw [List.getElem?_eq_getElem hlen, List.getD_eq_getElem _ _ hlen]
    rw [List.map_cons, List.sum_cons, Nat.add_mul, ← Nat.add_assoc] at hlt ⊢
    have hin : time + monthDays i * 86400 < 2 ^ 32 := by omega
    have hadd : addTime time (monthDays i * 24 * 60 * 60) = time + monthDays i * 86400 := by
      refine addTime_eq ?_ hin
      omega
    unfold monthLoop
    rw [hdays]
    dsimp only
    rw [hadd, ih (fun j hj => his j (List.mem_cons_of_mem i hj)) _ hlt]

/-- The day of a date is small enough for the sums. -/
theorem Date.Valid.day_le (h : d.Valid) : d.day ≤ 32 := by
  have hday := h.day.2
  have hbound := (monthDays_bounds h.month).2
  rw [daysInMonth_eq h.month] at hday
  unfold leapDay at hday
  split at hday <;> omega

/-- The loop reads the date in one round. -/
theorem readLoop_registers (h : d.Valid) (hfuel : 0 < fuel) (n : Nat) :
    readLoop (fun _ => d.registers) fuel n =
      .ok ⟨d.second, d.minute, d.hour, d.day, d.month, d.year % 100⟩ := by
  obtain ⟨fuel, rfl⟩ := Nat.exists_eq_succ_of_ne_zero (Nat.ne_of_gt hfuel)
  have hday := h.day_le
  have hsecond := h.second
  have hminute := h.minute
  have hhour := h.hour
  have hmonth := h.month
  have hsec : ∀ n, bcdToBin (cmosRead (fun _ => d.registers) n rtcRegSec) = d.second :=
    fun n => bcdToBin_toBcd _ (by omega)
  have hmin : bcdToBin (cmosRead (fun _ => d.registers) (n + 1) rtcRegMin) = d.minute := bcdToBin_toBcd _ (by omega)
  have hhr : bcdToBin (cmosRead (fun _ => d.registers) (n + 2) rtcRegHour) = d.hour := bcdToBin_toBcd _ (by omega)
  have hmday : bcdToBin (cmosRead (fun _ => d.registers) (n + 3) rtcRegMday) = d.day := bcdToBin_toBcd _ (by omega)
  have hmon : bcdToBin (cmosRead (fun _ => d.registers) (n + 4) rtcRegMon) = d.month := bcdToBin_toBcd _ (by omega)
  have hyear : bcdToBin (cmosRead (fun _ => d.registers) (n + 5) rtcRegYear) = d.year % 100 :=
    bcdToBin_toBcd _ (by omega)
  unfold readLoop
  dsimp only
  rw [hsec, hsec, hmin, hhr, hmday, hmon, hyear, if_neg (not_not_intro rfl)]

/-- The years before are counted with their leap days. -/
theorem yearsTime_ok (hn : n ≤ 67) : yearsTime n = .ok ((365 * n + (n - 1) / 4) * 86400) := by
  have hdiv : ((n : Int) - 1).tdiv 4 = ((n - 1) / 4 : Nat) := by
    cases n with
    | zero => rfl
    | succ n =>
      rw [Int.tdiv_eq_ediv_of_nonneg (by omega)]
      omega
  have htime : ((n : Int) * 365 + ((n : Int) - 1).tdiv 4) * 24 * 60 * 60 =
      ((365 * n + (n - 1) / 4) * 86400 : Nat) := by
    rw [hdiv]
    omega
  have hlt : (365 * n + (n - 1) / 4) * 86400 < 2 ^ 31 := by
    have : 365 * n + (n - 1) / 4 ≤ 24471 := by omega
    omega
  unfold yearsTime
  dsimp only
  rw [htime, if_pos (by omega), addTime_eq (s := (365 * n + (n - 1) / 4) * 86400) (by omega) (by omega)]

/-- A leap day is a day more. -/
theorem addTime_leapDay {c : Prop} [Decidable c] {days : Nat} (hdays : days ≤ 40000) :
    (if c then addTime (days * 86400) (24 * 60 * 60) else days * 86400) =
      (days + if c then 1 else 0) * 86400 := by
  split
  · exact addTime_eq (by omega) (by omega)
  · rfl

/-- The time of day, after `days` days and those of the month. -/
theorem addTime_day {days mday hour min sec : Nat} (hdays : days + mday ≤ 40000) (hmday : 1 ≤ mday)
    (hhour : hour < 24) (hmin : min < 60) (hsec : sec < 60) :
    addTime (addTime (addTime (addTime (days * 86400) (((mday : Int) - 1) * 24 * 60 * 60)) (hour * 60 * 60))
      (min * 60)) sec = (days + (mday - 1)) * 86400 + hour * 3600 + min * 60 + sec := by
  have hday : addTime (days * 86400) (((mday : Int) - 1) * 24 * 60 * 60) = (days + (mday - 1)) * 86400 :=
    addTime_eq (by omega) (by omega)
  have hhr : addTime ((days + (mday - 1)) * 86400) (hour * 60 * 60) =
      (days + (mday - 1)) * 86400 + hour * 3600 := addTime_eq (by omega) (by omega)
  have hmn : addTime ((days + (mday - 1)) * 86400 + hour * 3600) (min * 60) =
      (days + (mday - 1)) * 86400 + hour * 3600 + min * 60 := addTime_eq (by omega) (by omega)
  rw [hday, hhr, hmn]
  exact addTime_eq (by omega) (by omega)

/-- The time is 26 to 32 days late. -/
theorem rtcGetTime_late (h : d.Valid) (hfuel : 0 < fuel) :
    ∃ late, 26 ≤ late ∧ late ≤ 32 ∧
      rtcGetTime (fun _ => d.registers) fuel = .ok (d.seconds + late * 86400) := by
  obtain ⟨n, hyear⟩ : ∃ n, d.year = 1970 + n := ⟨d.year - 1970, by have := h.year; omega⟩
  have hn : n ≤ 67 := by have := h.year; omega
  have hcomp : ((if d.year % 100 < 70 then d.year % 100 + 100 else d.year % 100 : Nat) : Int) - 70 = n := by
    split <;> omega
  have hmonth := h.month
  unfold rtcGetTime
  rw [readLoop_registers h hfuel, bind_ok]
  dsimp only
  have hdays : d.days = 365 * n + (n + 1) / 4 + (((List.range' 1 (d.month - 1)).map monthDays).sum +
      if 2 ≤ d.month - 1 ∧ n % 4 = 2 then 1 else 0) + (d.day - 1) := by
    unfold Date.days
    rw [hyear, Nat.add_sub_cancel_left, sum_daysInYear (by omega), sum_daysInMonth (by omega)]
    simp only [isLeap_iff hn]
  obtain ⟨m, hm⟩ : ∃ m, d.month = 1 + m := ⟨d.month - 1, by omega⟩
  have hmonths : ((List.range' 1 d.month).map monthDays).sum =
      ((List.range' 1 (d.month - 1)).map monthDays).sum + monthDays d.month := by
    rw [hm, Nat.add_sub_cancel_left, Nat.add_comm 1 m, List.range'_1_concat, List.map_append, List.sum_append,
      List.map_singleton, List.sum_singleton, Nat.add_comm 1 m]
  have hsum := sum_monthDays_le (show d.month ≤ 12 from hmonth.2)
  have hlast := monthDays_bounds hmonth
  have hbound : 365 * n + (n - 1) / 4 ≤ 24471 := by omega
  rw [hcomp, yearsTime_ok hn, bind_ok, monthLoop_ok _ (fun i hi => by
    rw [List.mem_range'_1] at hi
    omega) _ (by omega), bind_ok, ← Nat.add_mul, addTime_leapDay (by omega)]
  have hday := h.day_le
  have hleap : (if 2 < d.month ∧ (n : Int) % 4 = 0 then 1 else 0) ≤ 1 := by split <;> omega
  obtain ⟨late, hlow, hhigh, hlate⟩ : ∃ late, 26 ≤ late ∧ late ≤ 32 ∧
      365 * n + (n - 1) / 4 + ((List.range' 1 d.month).map monthDays).sum +
        (if 2 < d.month ∧ (n : Int) % 4 = 0 then 1 else 0) + (d.day - 1) = d.days + late := by
    refine ⟨365 * n + (n - 1) / 4 + ((List.range' 1 d.month).map monthDays).sum +
      (if 2 < d.month ∧ (n : Int) % 4 = 0 then 1 else 0) + (d.day - 1) - d.days, ?_⟩
    rw [hdays, hmonths]
    split <;> split <;> omega
  refine ⟨late, hlow, hhigh, ?_⟩
  rw [addTime_day (by omega) h.day.1 h.hour h.minute h.second, hlate, Nat.add_mul]
  unfold Date.seconds
  rw [Nat.add_right_comm _ (late * 86400), Nat.add_right_comm _ (late * 86400), Nat.add_right_comm _ (late * 86400)]

/-- On no date is the time right. -/
theorem rtcGetTime_wrong (h : d.Valid) (hfuel : 0 < fuel) :
    ∃ t, rtcGetTime (fun _ => d.registers) fuel = .ok t ∧ t ≠ d.seconds := by
  obtain ⟨late, hlow, -, hrun⟩ := rtcGetTime_late h hfuel
  exact ⟨_, hrun, by omega⟩

/-- 29 February 2000. -/
theorem rtcGetTime_wrong_2000 : ∃ t, rtcGetTime (fun _ => Date.registers ⟨2000, 2, 29, 12, 30, 0⟩) 1 = .ok t ∧
    t ≠ Date.seconds ⟨2000, 2, 29, 12, 30, 0⟩ :=
  rtcGetTime_wrong ⟨by decide, by decide, by decide, by decide, by decide, by decide⟩ (by decide)

/-- The epoch is taken for 31 days later, and 1 February 1970 for two days before 31 January. -/
theorem rtcGetTime_epoch :
    (¬∀ d : Date, d.Valid → rtcGetTime (fun _ => d.registers) 1 = .ok d.seconds) ∧
      rtcGetTime (fun _ => Date.registers ⟨1970, 1, 31, 0, 0, 0⟩) 1 = .ok 5270400 ∧
      rtcGetTime (fun _ => Date.registers ⟨1970, 2, 1, 0, 0, 0⟩) 1 = .ok 5097600 := by
  refine ⟨fun h => ?_, rfl, rfl⟩
  have hrun := h ⟨1970, 1, 1, 0, 0, 0⟩ ⟨by decide, by decide, by decide, by decide, by decide, by decide⟩
  have hfound : rtcGetTime (fun _ => Date.registers ⟨1970, 1, 1, 0, 0, 0⟩) 1 = .ok 2678400 := rfl
  have heq := Except.ok.inj (hfound.symm.trans hrun)
  exact absurd heq (by decide)

end Pintos.Devices
