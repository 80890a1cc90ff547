import Mathlib

/-! `timer_calibrate` of `devices/timer.c` and `rtc_get_time` of `devices/rtc.c`. A busy wait is
longer than a tick when it has more than `tick` iterations. Loops have fuel. -/

namespace Pintos.Clocks

section Calibration

def tooManyLoops (tick loops : Nat) : Bool := tick < loops

/-- `loops_per_tick` is doubled while it is not too large; a shift drops the bits above 32. -/
def doublingLoop (tick : Nat) : Nat → Nat → Option Nat
  | 0, _ => none
  | fuel + 1, loopsPerTick =>
    if !tooManyLoops tick (loopsPerTick <<< 1 % 2 ^ 32) then do
      let loopsPerTick := loopsPerTick <<< 1 % 2 ^ 32
      guard (loopsPerTick ≠ 0)
      doublingLoop tick fuel loopsPerTick
    else some loopsPerTick

/-- Every bit is tried on top of `highBit` alone. -/
def refineLoop (tick highBit : Nat) : Nat → Nat → Nat → Option Nat
  | 0, _, _ => none
  | fuel + 1, testBit, loopsPerTick =>
    if testBit ≠ highBit >>> 10 then
      refineLoop tick highBit fuel (testBit >>> 1)
        (if !tooManyLoops tick (highBit ||| testBit) then loopsPerTick ||| testBit
        else loopsPerTick)
    else some loopsPerTick

def timerCalibrate (fuel tick : Nat) : Option Nat := do
  let highBit ← doublingLoop tick fuel (1 <<< 10)
  refineLoop tick highBit fuel (highBit >>> 1) highBit

variable {tick k n fuel : Nat}

theorem doublingLoop_eq (low : 2 ^ k ≤ tick) (high : tick < 2 ^ 31) (enough : 31 < k + fuel) :
    doublingLoop tick fuel (2 ^ k) = some (2 ^ Nat.log 2 tick) := by
  have small := (Nat.pow_lt_pow_iff_right (by decide)).mp (low.trans_lt high)
  induction fuel generalizing k with
  | zero => omega
  | succ fuel ih =>
    have shifted : 2 ^ k <<< 1 % 2 ^ 32 = 2 ^ (k + 1) := by
      rw [Nat.shiftLeft_eq, ← Nat.pow_succ]
      exact Nat.mod_eq_of_lt (Nat.pow_lt_pow_right (by decide) (by omega))
    rw [doublingLoop, shifted, tooManyLoops]
    by_cases more : tick < 2 ^ (k + 1)
    · simp [more, Nat.log_eq_of_pow_le_of_lt_pow low more]
    · have next := (Nat.pow_lt_pow_iff_right (by decide)).mp ((Nat.not_lt.mp more).trans_lt high)
      simp [more, guard, ih (Nat.not_lt.mp more) (by omega) next]

/-- The search goes the same way when all is divided by `2 ^ k`. -/
theorem refineLoop_scale (x : Nat) (enough : n < fuel) :
    refineLoop tick (1024 * 2 ^ k) fuel (2 ^ n * 2 ^ k) (x * 2 ^ k) =
      (refineLoop (tick / 2 ^ k) 1024 (n + 1) (2 ^ n) x).map (· * 2 ^ k) := by
  have last : (1024 * 2 ^ k) >>> 10 = 2 ^ k := by
    rw [Nat.shiftRight_eq_div_pow]
    omega
  induction n generalizing fuel x with
  | zero =>
    obtain _ | fuel := fuel
    · omega
    simp [refineLoop, last]
  | succ n ih =>
    obtain _ | fuel := fuel
    · omega
    have going : 2 ^ (n + 1) ≠ 1024 >>> 10 := (Nat.one_lt_two_pow (by omega)).ne'
    have going' : 2 ^ (n + 1) * 2 ^ k ≠ 2 ^ k := by
      rw [← Nat.pow_add]
      exact fun same => absurd (Nat.pow_right_injective (Nat.le_refl 2) same) (by omega)
    have half : 2 ^ (n + 1) >>> 1 = 2 ^ n := by
      rw [Nat.shiftRight_eq_div_pow]
      omega
    have half' : (2 ^ (n + 1) * 2 ^ k) >>> 1 = 2 ^ n * 2 ^ k := by
      rw [Nat.shiftRight_eq_div_pow, Nat.pow_succ, Nat.mul_right_comm]
      omega
    have both (a b : Nat) : a * 2 ^ k ||| b * 2 ^ k = (a ||| b) * 2 ^ k := by
      simp only [← Nat.shiftLeft_eq, Nat.shiftLeft_or_distrib]
    have tried (b : Nat) : tooManyLoops tick (b * 2 ^ k) = tooManyLoops (tick / 2 ^ k) b :=
      decide_eq_decide.mpr (Nat.div_lt_iff_lt_mul (Nat.two_pow_pos k)).symm
    unfold refineLoop
    rw [last, if_pos going, if_pos going', half, half', both, both, tried, ← apply_ite (· * 2 ^ k)]
    exact ih _ (by omega)

theorem refineLoop_range : ∀ t < 2048, 1024 ≤ t → ∃ loops ∈ refineLoop t 1024 10 512 1024,
    t ≤ loops + 1 ∧ ((∃ j < 10, (t - 1024) / 2 + 1 = 2 ^ j) → loops ≤ t) := by
  decide +kernel

end Calibration

section Calendar

def bcdToBin (x : UInt8) : Int := (x &&& 0x0f).toNat + (x >>> 4).toNat * 10

structure Reading where
  sec : Int
  min : Int
  hour : Int
  mday : Int
  mon : Int
  year : Int

/-- `cmosRead n index` is the `n`th read of the clock, here of the register `index`. -/
def readLoop (cmosRead : Nat → UInt8 → UInt8) : Nat → Nat → Option Reading
  | 0, _ => none
  | fuel + 1, n =>
    let now : Reading :=
      { sec := bcdToBin (cmosRead n 0), min := bcdToBin (cmosRead (n + 1) 2),
        hour := bcdToBin (cmosRead (n + 2) 4), mday := bcdToBin (cmosRead (n + 3) 7),
        mon := bcdToBin (cmosRead (n + 4) 8), year := bcdToBin (cmosRead (n + 5) 9) }
    if now.sec ≠ bcdToBin (cmosRead (n + 6) 0) then readLoop cmosRead fuel (n + 7)
    else some now

def daysPerMonth : List Int := [31, 28, 31, 30, 31, 30, 31, 31, 30, 31, 30, 31]

/-- The seconds of the years since 1970 and of the months. -/
def monthTime (year mon : Int) : Int :=
  let time := (year * 365 + (year - 1).tdiv 4) * 24 * 60 * 60
  let time := (daysPerMonth.take mon.toNat).foldl (fun time days => time + days * 24 * 60 * 60) time
  if mon > 2 ∧ year.tmod 4 = 0 then time + 24 * 60 * 60 else time

/-- `time_t` has 32 bits and no sign. -/
def rtcGetTime (fuel : Nat) (cmosRead : Nat → UInt8 → UInt8) : Option Int := do
  let now ← readLoop cmosRead fuel 0
  let year := if now.year < 70 then now.year + 100 else now.year
  let time := monthTime (year - 70) now.mon
  let time := time + (now.mday - 1) * 24 * 60 * 60
  return (time + now.hour * 60 * 60 + now.min * 60 + now.sec) % 2 ^ 32

/-- A time of the calendar, with its month and its day counted from one. -/
structure Time where
  year : Nat
  mon : Nat
  mday : Nat
  hour : Nat
  min : Nat
  sec : Nat

def isLeap (year : Nat) : Bool := year % 4 = 0 && (year % 100 ≠ 0 || year % 400 = 0)

def monthDays (year mon : Nat) : Nat :=
  if mon = 2 then if isLeap year then 29 else 28 else if mon ∈ [4, 6, 9, 11] then 30 else 31

namespace Time

structure Valid (d : Time) : Prop where
  year : 1970 ≤ d.year ∧ d.year ≤ 2037
  mon : 1 ≤ d.mon ∧ d.mon ≤ 12
  mday : 1 ≤ d.mday ∧ d.mday ≤ monthDays d.year d.mon
  hour : d.hour < 24
  min : d.min < 60
  sec : d.sec < 60

/-- The days from 1970 to the first of the month. -/
def monthStart (year mon : Nat) : Nat :=
  ((List.range (year - 1970)).map fun y => if isLeap (1970 + y) then 366 else 365).sum +
    ((List.range (mon - 1)).map fun m => monthDays year (m + 1)).sum

/-- The seconds since the first of the month. -/
def seconds (d : Time) : Nat := (((d.mday - 1) * 24 + d.hour) * 60 + d.min) * 60 + d.sec

def epoch (d : Time) : Nat := monthStart d.year d.mon * 86400 + d.seconds

/-- The order of the calendar is that of these lists. -/
def fields (d : Time) : List Nat := [d.year, d.mon, d.mday, d.hour, d.min, d.sec]

def bcd (n : Nat) : UInt8 := .ofNat (n / 10 * 16 + n % 10)

/-- The registers of the clock while it shows `d`. -/
def cmos (d : Time) (_ : Nat) (index : UInt8) : UInt8 :=
  if index = 0 then bcd d.sec else if index = 2 then bcd d.min else if index = 4 then bcd d.hour
  else if index = 7 then bcd d.mday else if index = 8 then bcd d.mon
  else if index = 9 then bcd (d.year % 100) else 0

end Time

open Time

theorem bcdToBin_bcd {n : Nat} (small : n < 100) : bcdToBin (bcd n) = n := by
  revert n
  decide +kernel

theorem monthTime_bound : ∀ y < 68, ∀ m < 13,
    0 ≤ monthTime (y : Nat) (m : Nat) ∧ monthTime (y : Nat) (m : Nat) ≤ 2 ^ 31 := by
  decide +kernel

theorem monthDays_le (year mon : Nat) : monthDays year mon ≤ 31 := by
  unfold monthDays
  split_ifs <;> omega

variable {d e : Time} {fuel : Nat}

theorem rtcGetTime_eq (valid : d.Valid) : rtcGetTime (fuel + 1) d.cmos =
    some (monthTime (d.year - 1970 : Nat) d.mon + d.seconds) := by
  obtain ⟨⟨since, upto⟩, ⟨first, last⟩, ⟨day, days⟩, hour, min, sec⟩ := valid
  have most := monthDays_le d.year d.mon
  have bound := monthTime_bound (d.year - 1970) (by omega) d.mon (by omega)
  have short : (if ((d.year % 100 : Nat) : Int) < 70 then ((d.year % 100 : Nat) : Int) + 100
      else (d.year % 100 : Nat)) - 70 = (d.year - 1970 : Nat) := by
    split_ifs <;> omega
  have shown n : d.cmos n 0 = bcd d.sec ∧ d.cmos n 2 = bcd d.min ∧ d.cmos n 4 = bcd d.hour ∧
      d.cmos n 7 = bcd d.mday ∧ d.cmos n 8 = bcd d.mon ∧ d.cmos n 9 = bcd (d.year % 100) :=
    ⟨rfl, rfl, rfl, rfl, rfl, rfl⟩
  simp (disch := omega) only [rtcGetTime, readLoop, shown, bcdToBin_bcd, ne_eq, not_true,
    if_false, Option.bind_eq_bind, Option.bind_some, short]
  rw [Int.emod_eq_of_lt (by omega) (by omega), seconds]
  refine congrArg some ?_
  omega

end Calendar

end Pintos.Clocks
