import Iraf.Lib.Periods
import Mathlib.Data.Rat.Floor
import Mathlib.Algebra.BigOperators.Intervals
import Mathlib.Tactic.IntervalCases

/-!
# Calendar dates

`brktime.x`, which breaks the seconds since 1 January 1980 into a date and a time of day,
and the functions of `dtmcnv.x` that go back.  Their floating point numbers are rational
numbers here.
-/

namespace Iraf.Etc

open Periods

def secondsPerDay : Nat := 86400

def secondsPerHour : Nat := 3600

def secondsPerMinute : Nat := 60

def monday : Nat := 2

/-- The fields of `time.h`; Sunday is day 1 of the week. -/
structure Tm where
  sec : Nat
  min : Nat
  hour : Nat
  mday : Nat
  month : Nat
  year : Nat
  wday : Nat
  yday : Nat
  deriving DecidableEq, Repr

/-- The loop over the years, with the days passed and the days of the year. -/
def breakYear (days : Nat) : Nat → Nat → Nat → Nat → Option (Nat × Nat)
  | 0, _, _, _ => none
  | fuel + 1, temp, year, daysPerYear =>
      if days > temp + daysPerYear then
        breakYear days fuel (temp + daysPerYear) (year + 1)
          (if (year + 1) % 4 = 0 then 366 else 365)
      else some (year, temp)

def daysPerMonth (year : Nat) : List Nat :=
  [31, if year % 4 = 0 then 29 else 28, 31, 30, 31, 30, 31, 31, 30, 31, 30, 31]

/-- The loop over the months, which must not pass the end of the table. -/
def breakMonth (daysPerMonth : List Nat) (nights : Nat) : Nat → Nat → Nat → Option (Nat × Nat)
  | 0, _, _ => none
  | fuel + 1, temp, month => do
      let days ← daysPerMonth[month - 1]?
      if nights > temp + days then breakMonth daysPerMonth nights fuel (temp + days) (month + 1)
      else some (month, temp)

/-- A pass over a year takes one day of `days` or more, and one over a month takes one of
the twelve; the last pass takes none. -/
def brktime (ltime : Nat) : Option Tm := do
  let seconds := ltime % secondsPerDay
  let days := ltime / secondsPerDay + 1
  let hour := seconds / secondsPerHour
  let temp := seconds - hour * secondsPerHour
  let min := temp / secondsPerMinute
  let sec := temp - min * secondsPerMinute
  let wday := (days + monday) % 7
  let wday := if wday = 0 then 7 else wday
  let (year, temp) ← breakYear days days 0 1980 366
  let yday := days - temp
  let (month, temp) ← breakMonth (daysPerMonth year) yday 12 0 1
  pure { sec, min, hour, mday := yday - temp, month, year, wday, yday }

/-! ## Julian days -/

/-- Assignment of a floating point number to an integer. -/
def trunc (x : Rat) : Int := if 0 ≤ x then ⌊x⌋ else ⌈x⌉

def dtmDateToJulday (year month day : Int) (t : Rat) : Rat :=
  let y := if year < 100 then 1900 + year else year
  let (m, y) := if month > 2 then (month + 1, y) else (month + 13, y - 1)
  let jd : Rat := trunc (365.25 * y) + trunc (30.6001 * m) + day + 1720995
  let jd :=
    if day + 31 * (m + 12 * y) ≥ 588829 then
      let d := y.tdiv 100
      let m := y.tdiv 400
      jd + 2 - d + m
    else jd
  jd - 0.5 + trunc (t * 360000 + 0.5) / 360000 / 24

/-- The Julian day of the first second. -/
def startIrafEpoch : Rat := 2444239.5

/-- What `dtmLtime` makes of a date string, from the fields that are decoded; a time of
day that is not given is indefinite.  Nothing stands for ERR. -/
def dtmLtime (yr mon day : Int) (hr min : Option Int) (sec : Option Rat) (oldfits : Bool) :
    Option Int :=
  let yr := if oldfits then yr + 100 else yr
  let ltime :=
    match hr, min, sec with
    | some hr, some min, some sec =>
        trunc (hr * secondsPerHour + min * secondsPerMinute + sec)
    | _, _, _ => 0
  let ndays := trunc (dtmDateToJulday yr mon day 0 - startIrafEpoch)
  let ltime := ltime + ndays * secondsPerDay
  if ltime ≥ 0 then some ltime else none

/-! ## Valid dates -/

/-- The leap years of the Gregorian calendar. -/
def IsLeap (year : Nat) : Prop := 4 ∣ year ∧ (100 ∣ year → 400 ∣ year)

instance (year : Nat) : Decidable (IsLeap year) := inferInstanceAs (Decidable (_ ∧ _))

def daysInMonth (year month : Nat) : Nat :=
  if month = 2 then if IsLeap year then 29 else 28
  else if month ∈ [4, 6, 9, 11] then 30
  else 31

/-- The Julian day that ends the night to a date. -/
def julianDay (year month day : Int) : Int := trunc (dtmDateToJulday year month day 0 + 0.5)

/-- A date of the Gregorian calendar with its day of the year and of the week, and a time
of day. -/
structure Tm.Valid (tm : Tm) : Prop where
  month : 1 ≤ tm.month ∧ tm.month ≤ 12
  mday : 1 ≤ tm.mday ∧ tm.mday ≤ daysInMonth tm.year tm.month
  yday : tm.yday = ∑ m ∈ Finset.Ico 1 tm.month, daysInMonth tm.year m + tm.mday
  wday : (tm.wday : Int) = (julianDay tm.year tm.month tm.mday + 1) % 7 + 1
  time : tm.hour < 24 ∧ tm.min < 60 ∧ tm.sec < 60

/-- The date comes before another one. -/
def Tm.Before (tm tm' : Tm) : Prop :=
  tm.year < tm'.year ∨ tm.year = tm'.year ∧
    (tm.month < tm'.month ∨ tm.month = tm'.month ∧ tm.mday < tm'.mday)

/-- The days from 1 January 1980 to 28 February 2100. -/
def lastDay : Nat := 43889

variable {days k m nights year : Nat}

/-! ## The loops -/

def yearDays (k : Nat) : Nat := if (1980 + k) % 4 = 0 then 366 else 365

def monthDays (year i : Nat) : Nat := (daysPerMonth year).getD i 0

theorem breakYear_eq (days fuel temp k : Nat) :
    breakYear days fuel temp (1980 + k) (yearDays k) =
      (locate yearDays days fuel k temp).map fun p => (1980 + p.1, p.2) := by
  induction fuel generalizing temp k with
  | zero => rfl
  | succ fuel ih =>
      rw [breakYear, locate]
      split
      · exact ih _ (k + 1)
      · rfl

theorem breakMonth_eq (year nights fuel temp k : Nat) (hk : k + fuel ≤ 12) :
    breakMonth (daysPerMonth year) nights fuel temp (k + 1) =
      (locate (monthDays year) nights fuel k temp).map fun p => (p.1 + 1, p.2) := by
  induction fuel generalizing temp k with
  | zero => rfl
  | succ fuel ih =>
      have hget : (daysPerMonth year)[k]? = some (monthDays year k) := by
        have hlen : k < (daysPerMonth year).length := by
          simp [daysPerMonth]
          omega
        rw [monthDays, List.getD_eq_getElem?_getD, List.getElem?_eq_getElem hlen,
          Option.getD_some]
      rw [breakMonth, locate, Nat.add_sub_cancel, hget]
      simp only [Option.bind_eq_bind, Option.bind_some]
      split
      · exact ih _ (k + 1) (by omega)
      · rfl

theorem before_yearDays (k : Nat) : before yearDays k = 365 * k + (k + 3) / 4 := by
  induction k with
  | zero => rfl
  | succ k ih =>
      rw [before_succ, ih, yearDays]
      split <;> omega

theorem before_monthDays (hm : m ≤ 12) :
    before (monthDays year) m =
      [0, 31, 59, 90, 120, 151, 181, 212, 243, 273, 304, 334, 365].getD m 0 +
        if 2 ≤ m ∧ year % 4 = 0 then 1 else 0 := by
  by_cases hleap : year % 4 = 0 <;> interval_cases m <;>
    simp [before, Finset.sum_range_succ, monthDays, daysPerMonth, hleap]

/-! ## Julian days of the calendar -/

theorem trunc_of_nonneg {x : Rat} (h : 0 ≤ x) : trunc x = ⌊x⌋ := if_pos h

theorem trunc_div (n d : Nat) : trunc ((n : Rat) / d) = ((n / d : Nat) : Int) := by
  rw [trunc_of_nonneg (by positivity), Rat.floor_natCast_div_natCast, Int.natCast_div]

theorem trunc_intCast (n : Int) : trunc n = n := by
  rw [trunc, Int.floor_intCast, Int.ceil_intCast, ite_self]

/-- The number of the day in terms of the year and month that begin in March. -/
theorem julday_march {year month : Int} {y m day : Nat} (hyear : 100 ≤ year)
    (hy : 1979 ≤ y) (hfrom : if month > 2 then (m : Int) = month + 1 ∧ (y : Int) = year
      else (m : Int) = month + 13 ∧ (y : Int) = year - 1) :
    dtmDateToJulday year month day 0 =
      ((1461 * y / 4 + 306001 * m / 10000 + day + 1720997 + y / 400 : Nat) : Rat) -
        ((y / 100 : Nat) : Rat) - 0.5 := by
  have hyears : trunc (365.25 * ((y : Int) : Rat)) = ((1461 * y / 4 : Nat) : Int) := by
    rw [← trunc_div]
    congr 1
    push_cast
    ring
  have hmonths : trunc (30.6001 * ((m : Int) : Rat)) = ((306001 * m / 10000 : Nat) : Int) := by
    rw [← trunc_div]
    congr 1
    push_cast
    ring
  have htime : trunc (0 * 360000 + 0.5) = 0 := by
    rw [trunc_of_nonneg (by norm_num)]
    norm_num
  have hpair : (if month > 2 then (month + 1, if year < 100 then 1900 + year else year)
      else (month + 13, (if year < 100 then 1900 + year else year) - 1)) = ((m : Int), (y : Int)) := by
    rw [if_neg (by omega : ¬ year < 100)]
    split at hfrom
    · rw [if_pos ‹_›, hfrom.1, hfrom.2]
    · rw [if_neg ‹_›, hfrom.1, hfrom.2]
  rw [dtmDateToJulday]
  simp only [hpair, hyears, hmonths, htime]
  rw [if_pos (by omega)]
  have h100 : ((y : Int).tdiv 100) = ((y / 100 : Nat) : Int) := rfl
  have h400 : ((y : Int).tdiv 400) = ((y / 400 : Nat) : Int) := rfl
  rw [h100, h400]
  simp only [Int.cast_natCast, Nat.cast_add, Nat.cast_ofNat]
  ring

theorem julday_eq {month day : Nat} (hk : k ≤ 120) (hmonth : 1 ≤ month ∧ month ≤ 12)
    (hlast : k = 120 → month ≤ 2) :
    dtmDateToJulday (1980 + k : Nat) month day 0 =
      ((2444238 + before yearDays k + before (monthDays (1980 + k)) (month - 1) + day : Nat) :
        Rat) + 0.5 := by
  have hmonths := @before_monthDays (month - 1) (1980 + k) (by omega)
  obtain ⟨hlo, hhi⟩ := hmonth
  obtain ⟨y, m, hfrom, hy, hday⟩ : ∃ y m : Nat,
      (if (month : Int) > 2 then (m : Int) = month + 1 ∧ (y : Int) = (1980 + k : Nat)
        else (m : Int) = month + 13 ∧ (y : Int) = (1980 + k : Nat) - 1) ∧ 1979 ≤ y ∧
      1461 * y / 4 + 306001 * m / 10000 + 1720997 + y / 400 =
        2444239 + before yearDays k + before (monthDays (1980 + k)) (month - 1) + y / 100 := by
    rw [before_yearDays, hmonths]
    clear hmonths
    by_cases hmarch : 2 < month
    · refine ⟨1980 + k, month + 1, ?_, by omega, ?_⟩
      · rw [if_pos (by omega)]
        omega
      · have hcentury : (1980 + k) / 400 + 15 = (1980 + k) / 100 := by omega
        have hyears : 1461 * (1980 + k) / 4 = 365 * (1980 + k) + (1980 + k) / 4 := by omega
        rw [← hcentury, hyears]
        by_cases hleap : (1980 + k) % 4 = 0 <;> interval_cases month <;> simp [hleap] <;> omega
    · refine ⟨1979 + k, month + 13, ?_, by omega, ?_⟩
      · rw [if_neg (by omega)]
        omega
      · have hcentury : (1979 + k) / 400 + 15 = (1979 + k) / 100 := by omega
        have hyears : 1461 * (1979 + k) / 4 = 365 * (1979 + k) + (1979 + k) / 4 := by omega
        rw [← hcentury, hyears]
        interval_cases month <;> simp <;> omega
  rw [julday_march (by omega) hy hfrom,
    show 1461 * y / 4 + 306001 * m / 10000 + day + 1720997 + y / 400 =
      2444239 + before yearDays k + before (monthDays (1980 + k)) (month - 1) + day + y / 100 by
        omega]
  simp only [Nat.cast_add, Nat.cast_ofNat]
  ring

/-! ## Breaking a time -/

theorem breakYear_spec (hpos : 0 < days) (hlast : days ≤ lastDay) :
    ∃ k ≤ 120, breakYear days days 0 1980 366 = some (1980 + k, before yearDays k) ∧
      Within yearDays k days ∧ days - before yearDays k ≤ yearDays k ∧
      (k = 120 → days - before yearDays k ≤ 59) := by
  have hhi : days ≤ before yearDays (0 + days) := by
    rw [before_yearDays]
    omega
  obtain ⟨k, -, hwithin, hlocate⟩ := @locate_spec yearDays 0 days days hpos hhi
  have hbefore := before_yearDays k
  obtain ⟨hlo, hle⟩ := hwithin
  rw [before_succ] at hle
  have hlast' : days ≤ 43889 := hlast
  refine ⟨k, by omega, ?_, ⟨hlo, by rwa [before_succ]⟩, by omega, by omega⟩
  have hcall := breakYear_eq days days 0 0
  rw [before_zero] at hlocate
  rw [hlocate] at hcall
  exact hcall

theorem breakMonth_spec (hpos : 0 < nights) (hlast : nights ≤ yearDays k) :
    ∃ m < 12, breakMonth (daysPerMonth (1980 + k)) nights 12 0 1 =
        some (m + 1, before (monthDays (1980 + k)) m) ∧
      Within (monthDays (1980 + k)) m nights := by
  have hhi : nights ≤ before (monthDays (1980 + k)) (0 + 12) := by
    have hyear := @before_monthDays 12 (1980 + k) le_rfl
    rw [Nat.zero_add, hyear]
    rw [yearDays] at hlast
    split at hlast <;> simp_all
  obtain ⟨m, hm, hwithin, hlocate⟩ := @locate_spec (monthDays (1980 + k)) 0 nights 12 hpos hhi
  refine ⟨m, by omega, ?_, hwithin⟩
  have hcall := breakMonth_eq (1980 + k) nights 12 0 0 (by omega)
  rw [before_zero] at hlocate
  rw [hlocate] at hcall
  exact hcall

theorem brktime_spec {ltime : Nat} (hlast : ltime < lastDay * secondsPerDay) :
    ∃ k m, k ≤ 120 ∧ m < 12 ∧ Within yearDays k (ltime / secondsPerDay + 1) ∧
      Within (monthDays (1980 + k)) m (ltime / secondsPerDay + 1 - before yearDays k) ∧
      (k = 120 → ltime / secondsPerDay + 1 - before yearDays k ≤ 59) ∧
      brktime ltime = some
        { sec := ltime % 60
          min := ltime / 60 % 60
          hour := ltime / 3600 % 24
          mday := ltime / secondsPerDay + 1 - before yearDays k -
            before (monthDays (1980 + k)) m
          month := m + 1
          year := 1980 + k
          wday := (ltime / secondsPerDay + 2) % 7 + 1
          yday := ltime / secondsPerDay + 1 - before yearDays k } := by
  have hdays : ltime / secondsPerDay + 1 ≤ lastDay := by
    have := (Nat.div_lt_iff_lt_mul (show 0 < secondsPerDay by decide)).2 hlast
    omega
  obtain ⟨k, hk, hyear, hwithin, hyday, hend⟩ :=
    @breakYear_spec (ltime / secondsPerDay + 1) (Nat.succ_pos _) hdays
  obtain ⟨m, hm, hmonth, hwithin'⟩ :=
    @breakMonth_spec k (ltime / secondsPerDay + 1 - before yearDays k)
      (by have := hwithin.1; omega) hyday
  refine ⟨k, m, hk, hm, hwithin, hwithin', hend, ?_⟩
  have hwday : (if (ltime / secondsPerDay + 1 + monday) % 7 = 0 then 7
      else (ltime / secondsPerDay + 1 + monday) % 7) = (ltime / secondsPerDay + 2) % 7 + 1 := by
    rw [monday]
    split <;> omega
  rw [brktime]
  simp only [hyear, hmonth, hwday, Option.bind_eq_bind, Option.bind_some, Option.pure_def]
  simp only [Option.some.injEq, Tm.mk.injEq, and_true, secondsPerDay, secondsPerHour,
    secondsPerMinute]
  exact ⟨by omega, by omega, by omega⟩

/-! ## Dates and days -/

theorem isLeap_iff (hk : k ≤ 119) : IsLeap (1980 + k) ↔ (1980 + k) % 4 = 0 := by
  unfold IsLeap
  omega

theorem daysInMonth_eq (hk : k ≤ 120) (hm : m < 12) (hlast : k = 120 → m = 0) :
    daysInMonth (1980 + k) (m + 1) = monthDays (1980 + k) m := by
  rcases Nat.lt_or_ge k 120 with hlt | hge
  · have hleap := @isLeap_iff k (by omega)
    interval_cases m <;> simp [daysInMonth, monthDays, daysPerMonth, hleap]
  · obtain rfl := hlast (by omega)
    rfl

theorem sum_daysInMonth (hk : k ≤ 120) (hm : m < 12) (hlast : k = 120 → m ≤ 1) :
    ∑ j ∈ Finset.Ico 1 (m + 1), daysInMonth (1980 + k) j = before (monthDays (1980 + k)) m := by
  rw [Finset.sum_Ico_eq_sum_range, Nat.add_sub_cancel, before]
  refine Finset.sum_congr rfl fun i hi => ?_
  rw [Finset.mem_range] at hi
  rw [Nat.add_comm 1 i]
  exact daysInMonth_eq hk (by omega) fun h => by
    have := hlast h
    omega

theorem julday_within (hk : k ≤ 120) (hm : m < 12) (hlast : k = 120 → m ≤ 1)
    (hyear : Within yearDays k days)
    (hmonth : Within (monthDays (1980 + k)) m (days - before yearDays k)) :
    dtmDateToJulday (1980 + k : Nat) (m + 1 : Nat)
        (days - before yearDays k - before (monthDays (1980 + k)) m : Nat) 0 =
      ((2444238 + days : Nat) : Rat) + 0.5 := by
  rw [julday_eq hk ⟨by omega, by omega⟩ fun h => by have := hlast h; omega, Nat.add_sub_cancel]
  obtain ⟨hlo, -⟩ := hyear
  obtain ⟨hlo', -⟩ := hmonth
  congr 2
  omega

/-! ## Breaking and making a time -/

theorem trunc_julday (n : Nat) : trunc (((2444238 + n : Nat) : Rat) + 0.5 + 0.5) = 2444239 + n := by
  have hsum : ((2444238 + n : Nat) : Rat) + 0.5 + 0.5 = ((2444239 + n : Nat) : Int) := by
    simp only [Nat.cast_add, Nat.cast_ofNat, Int.cast_add, Int.cast_natCast, Int.cast_ofNat]
    ring
  rw [hsum, trunc_intCast]
  push_cast
  rfl

theorem trunc_epoch (n : Nat) :
    trunc (((2444238 + (n + 1) : Nat) : Rat) + 0.5 - startIrafEpoch) = n := by
  have hdiff : ((2444238 + (n + 1) : Nat) : Rat) + 0.5 - startIrafEpoch = ((n : Int) : Rat) := by
    simp only [startIrafEpoch, Nat.cast_add, Nat.cast_ofNat, Nat.cast_one, Int.cast_natCast]
    ring
  rw [hdiff, trunc_intCast]

theorem trunc_time (hour min sec : Nat) :
    trunc (((hour : Int) : Rat) * secondsPerHour + ((min : Int) : Rat) * secondsPerMinute + sec) =
      (hour * 3600 + min * 60 + sec : Nat) := by
  have hcast : ((hour : Int) : Rat) * secondsPerHour + ((min : Int) : Rat) * secondsPerMinute +
      sec = (((hour * 3600 + min * 60 + sec : Nat) : Int) : Rat) := by
    simp only [secondsPerHour, secondsPerMinute, Int.cast_natCast, Nat.cast_add, Nat.cast_mul,
      Nat.cast_ofNat, Int.cast_add, Int.cast_mul, Int.cast_ofNat]
  rw [hcast, trunc_intCast]

theorem month_le_of_last (hm : Within (monthDays 2100) m nights) (hlast : nights ≤ 59) :
    m ≤ 1 := by
  by_contra hlt
  have hmono := @before_mono (monthDays 2100) 2 m (by omega)
  have htwo : before (monthDays 2100) 2 = 60 := before_monthDays (by decide)
  have hlo := hm.1
  omega

theorem mday_le (hk : k ≤ 120) (hm : m < 12) (hmonth : Within (monthDays (1980 + k)) m nights)
    (hend : k = 120 → nights ≤ 59) :
    nights - before (monthDays (1980 + k)) m ≤ daysInMonth (1980 + k) (m + 1) := by
  have hhi := hmonth.2
  rw [before_succ] at hhi
  by_cases hfebruary : k = 120 ∧ m = 1
  · obtain ⟨rfl, rfl⟩ := hfebruary
    have hle := hend rfl
    have hone : before (monthDays (1980 + 120)) 1 = 31 := before_monthDays (by decide)
    have hdays : daysInMonth (1980 + 120) (1 + 1) = 28 := by decide
    omega
  · rw [daysInMonth_eq hk hm]
    · omega
    · rintro rfl
      have hle := month_le_of_last hmonth (hend rfl)
      omega

/-- A time is broken into a valid date and time of day, which are made into it again. -/
theorem brktime_valid {ltime : Nat} (hlast : ltime < lastDay * secondsPerDay) :
    ∃ tm, brktime ltime = some tm ∧ tm.Valid ∧
      dtmDateToJulday tm.year tm.month tm.mday 0 =
        startIrafEpoch + (ltime / secondsPerDay : Nat) ∧
      dtmLtime tm.year tm.month tm.mday (some tm.hour) (some tm.min) (some tm.sec) false =
        some ltime := by
  obtain ⟨k, m, hk, hm, hyear, hmonth, hend, hcall⟩ := brktime_spec hlast
  have hlast' : k = 120 → m ≤ 1 := by
    rintro rfl
    exact month_le_of_last hmonth (hend rfl)
  have hjulday := julday_within hk hm hlast' hyear hmonth
  have hlo := hmonth.1
  refine ⟨_, hcall, ⟨⟨by simp, by simpa using hm⟩,
    ⟨by simp; omega, mday_le hk hm hmonth hend⟩, ?_, ?_, by simp; omega⟩, ?_, ?_⟩
  · dsimp only
    rw [sum_daysInMonth hk hm hlast']
    omega
  · dsimp only
    rw [julianDay, hjulday, trunc_julday]
    push_cast
    omega
  · dsimp only
    rw [hjulday, startIrafEpoch]
    push_cast
    ring
  · dsimp only
    have hseconds : (ltime / 3600 % 24 * 3600 + ltime / 60 % 60 * 60 + ltime % 60 : Nat) +
        (ltime / secondsPerDay : Nat) * secondsPerDay = ltime := by
      rw [secondsPerDay]
      omega
    have hcast : ((ltime / 3600 % 24 * 3600 + ltime / 60 % 60 * 60 + ltime % 60 : Nat) : Int) +
        ((ltime / secondsPerDay : Nat) : Int) * (secondsPerDay : Int) = ltime := by
      exact_mod_cast hseconds
    rw [dtmLtime]
    simp only [Bool.false_eq_true, if_false, hjulday, trunc_epoch, trunc_time, hcast]
    exact if_pos (Int.natCast_nonneg _)

theorem brktime_before {ltime ltime' : Nat} {tm tm' : Tm}
    (hlast : ltime' < lastDay * secondsPerDay)
    (hlt : ltime / secondsPerDay < ltime' / secondsPerDay) (htm : brktime ltime = some tm)
    (htm' : brktime ltime' = some tm') : tm.Before tm' := by
  have hlast₀ : ltime < lastDay * secondsPerDay :=
    lt_trans (lt_of_not_ge fun hle => absurd (Nat.div_le_div_right hle) (not_le.2 hlt)) hlast
  obtain ⟨k, m, -, -, hyear, hmonth, -, hcall⟩ := brktime_spec hlast₀
  obtain ⟨k', m', -, -, hyear', hmonth', -, hcall'⟩ := brktime_spec hlast
  obtain rfl := Option.some.inj (htm.symm.trans hcall)
  obtain rfl := Option.some.inj (htm'.symm.trans hcall')
  rcases Nat.lt_or_ge k k' with hk | hk
  · exact .inl (Nat.add_lt_add_left hk 1980)
  -- both lie in one year, since the earlier day is in no later one
  obtain rfl : k = k' := le_antisymm (hyear.le_of_lt hyear' (by omega)) hk
  have hday := hyear.1
  rcases Nat.lt_or_ge m m' with hm | hm
  · exact .inr ⟨rfl, .inl (Nat.succ_lt_succ hm)⟩
  obtain rfl : m = m' := le_antisymm (hmonth.le_of_lt hmonth' (by omega)) hm
  have hmday := hmonth.1
  refine .inr ⟨rfl, .inr ⟨rfl, ?_⟩⟩
  dsimp only
  omega

/-- Every time from 1 January 1980 to 28 February 2100 is broken into a valid date and time
of day, later days into later dates, from which the day and the time are got back. -/
theorem brktime_inverse {ltime : Nat} (hlast : ltime < lastDay * secondsPerDay) :
    ∃ tm, brktime ltime = some tm ∧ tm.Valid ∧
      dtmDateToJulday tm.year tm.month tm.mday 0 =
        startIrafEpoch + (ltime / secondsPerDay : Nat) ∧
      dtmLtime tm.year tm.month tm.mday (some tm.hour) (some tm.min) (some tm.sec) false =
        some ltime ∧
      ∀ ltime' tm', ltime' < lastDay * secondsPerDay →
        ltime / secondsPerDay < ltime' / secondsPerDay → brktime ltime' = some tm' →
        tm.Before tm' := by
  obtain ⟨tm, hcall, hvalid, hjulday, hltime⟩ := brktime_valid hlast
  exact ⟨tm, hcall, hvalid, hjulday, hltime, fun _ _ hlast' hlt htm' =>
    brktime_before hlast' hlt hcall htm'⟩

example : brktime 3792009599 = some
    { sec := 59, min := 59, hour := 23, mday := 28, month := 2, year := 2100, wday := 1,
      yday := 59 } := by
  decide +kernel

/-- The last second of 28 February 2100. -/
theorem brktime_inverse_last :
    3792009599 < lastDay * secondsPerDay ∧
      ∃ tm, brktime 3792009599 = some tm ∧ tm.Valid ∧
        dtmDateToJulday tm.year tm.month tm.mday 0 =
          startIrafEpoch + (3792009599 / secondsPerDay : Nat) ∧
        dtmLtime tm.year tm.month tm.mday (some tm.hour) (some tm.min) (some tm.sec) false =
          some (3792009599 : Nat) ∧
        ∀ ltime' tm', ltime' < lastDay * secondsPerDay →
          3792009599 / secondsPerDay < ltime' / secondsPerDay → brktime ltime' = some tm' →
          tm.Before tm' :=
  ⟨by decide, brktime_inverse (by decide)⟩

end Iraf.Etc
