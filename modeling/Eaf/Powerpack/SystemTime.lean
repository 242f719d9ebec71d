import Eaf.Core.Message
import Eaf.Foundation.Gregorian
import Eaf.Powerpack.ClockSums

/-!
# The system time

`eaf_time_getsystem` of `time.c`, for the systems other than Windows.  The
seconds come from one reading of the clock and the milliseconds from another
one.
-/

namespace Eaf
namespace Powerpack

open Core Gregorian

/-- `struct tm` -/
structure Tm where
  tmSec : Int
  tmMin : Int
  tmHour : Int
  tmMday : Int
  tmMon : Int
  tmYear : Int
  tmYday : Int
  deriving DecidableEq, Repr

/-- `gmtime_r`, which fails for a year that `int` cannot hold. -/
def gmtimeR (timer : Int) : Option Tm :=
  let c := DateTime.ofSecond timer
  let year := c.year - 1900
  if -2 ^ 31 ≤ year ∧ year < 2 ^ 31 then
    some ⟨c.second, c.minute, c.hour, c.day, c.month, year,
      daysBeforeMonth c.year c.month + c.day - 1⟩
  else none

/-- `eaf_calendar_time_t` -/
@[ext]
structure CalendarTime where
  year : UInt32
  month : UInt32
  day : UInt32
  hour : UInt32
  minute : UInt32
  second : UInt32
  mseconds : UInt32
  deriving DecidableEq, Repr, Inhabited

/-- `eaf_time_get`, with what `gettimeofday` stores if it succeeds. -/
def timeGet (timeofday : Option (Int × Int)) (tv : ClockTime) : Int × ClockTime :=
  match timeofday with
  | none => (Errno.unknown, tv)
  | some (sec, usec) => (0, ⟨UInt64.ofInt sec, UInt32.ofInt usec * 1000⟩)

/-- `eaf_time_getsystem`, with what `time` returns and what `gettimeofday`
stores: the code, and what is in `tv` afterwards. -/
def timeGetsystem (curTime : Int) (timeofday : Option (Int × Int))
    (tv : CalendarTime) : Int × CalendarTime :=
  if curTime = -1 then (Errno.unknown, tv)
  else
    match gmtimeR curTime with
    | none => (Errno.unknown, tv)
    | some tmpTm =>
        let (code, tmpClock) := timeGet timeofday default
        if code < 0 then (Errno.unknown, tv)
        else (0, {
          year := UInt32.ofInt (tmpTm.tmYday + 1900)
          month := UInt32.ofInt (tmpTm.tmMon + 1)
          day := UInt32.ofInt tmpTm.tmMday
          hour := UInt32.ofInt tmpTm.tmHour
          minute := UInt32.ofInt tmpTm.tmMin
          second := UInt32.ofInt tmpTm.tmSec
          mseconds := tmpClock.tvNsec / 1000 / 1000 })

/-! ## Calls -/

/-- A call of `eaf_time_getsystem`.  It reads the clock, which counts
microseconds, first with `time` and then with `gettimeofday`. -/
structure SystemCall where
  timeAt : Int
  clockAt : Int
  timeFails : Bool
  clockFails : Bool
  deriving DecidableEq, Repr

namespace SystemCall

variable {c : SystemCall} {tv : CalendarTime}

/-- The second that `time` reads. -/
def readSecond (c : SystemCall) : Int := c.timeAt / 1000000

def curTime (c : SystemCall) : Int := if c.timeFails then -1 else c.readSecond

def timeofday (c : SystemCall) : Option (Int × Int) :=
  if c.clockFails then none else some (c.clockAt / 1000000, c.clockAt % 1000000)

/-- The milliseconds that `gettimeofday` reads. -/
def readMsec (c : SystemCall) : Nat := (c.clockAt % 1000000 / 1000).toNat

def getsystem (c : SystemCall) (tv : CalendarTime) : Int × CalendarTime :=
  timeGetsystem c.curTime c.timeofday tv

/-- The calendar time that a call returns, if it succeeds. -/
def result (c : SystemCall) : Option CalendarTime :=
  if (c.getsystem default).1 = 0 then some (c.getsystem default).2 else none

/-- Nothing goes wrong in the call. -/
def Succeeds (c : SystemCall) : Prop :=
  c.timeFails = false ∧ c.clockFails = false ∧ c.readSecond ≠ -1 ∧
    (gmtimeR c.readSecond).isSome

instance (c : SystemCall) : Decidable c.Succeeds :=
  inferInstanceAs (Decidable (_ ∧ _))

/-- The day of the year of the second, counted from 0, is the number of the
year after 1900. -/
def DayIsYear (c : SystemCall) : Prop :=
  (gmtimeR c.readSecond).all (fun tm => tm.tmYday = tm.tmYear) = true

instance (c : SystemCall) : Decidable c.DayIsYear :=
  inferInstanceAs (Decidable (_ = _))

/-! ## What a call returns -/

/-- The date and time of the second that `time` reads. -/
def dateTime (c : SystemCall) : DateTime := DateTime.ofSecond c.readSecond

/-- The day of the year of that second, counted from 0. -/
def dayOfYear (c : SystemCall) : Nat :=
  daysBeforeMonth c.dateTime.year c.dateTime.month + c.dateTime.day - 1

theorem dateTime_valid (c : SystemCall) : c.dateTime.Valid :=
  (DateTime.ofSecond_spec _).1

theorem dateTime_second (c : SystemCall) :
    c.dateTime.secondNumber = c.readSecond :=
  (DateTime.ofSecond_spec _).2

theorem dayOfYear_lt (c : SystemCall) : c.dayOfYear < 366 := by
  have hday := c.dateTime_valid.day_lt
  have hpos := c.dateTime_valid.day_pos
  have hyear : daysInYear c.dateTime.year ≤ 366 := by
    rw [daysInYear]
    split <;> omega
  rw [dayOfYear]
  omega

theorem toNat_ofInt {x : Int} (hlow : 0 ≤ x) (hhigh : x < 2 ^ 32) :
    (UInt32.ofInt x).toNat = x.toNat := by
  rw [UInt32.ofInt, UInt32.toNat_ofNat']
  omega

theorem gmtimeR_eq (h : (gmtimeR c.readSecond).isSome) :
    gmtimeR c.readSecond = some ⟨c.dateTime.second, c.dateTime.minute,
      c.dateTime.hour, c.dateTime.day, c.dateTime.month, c.dateTime.year - 1900,
      c.dayOfYear⟩ := by
  have hpos := c.dateTime_valid.day_pos
  have hyday : ((c.dayOfYear : Nat) : Int) =
      daysBeforeMonth c.dateTime.year c.dateTime.month + c.dateTime.day - 1 := by
    rw [dayOfYear]
    omega
  rw [hyday]
  by_cases hyear : -2 ^ 31 ≤ c.dateTime.year - 1900 ∧ c.dateTime.year - 1900 < 2 ^ 31
  · exact if_pos hyear
  · have hnone : gmtimeR c.readSecond = none := if_neg hyear
    rw [hnone] at h
    cases h

theorem dayIsYear_iff (h : c.Succeeds) :
    c.DayIsYear ↔ (c.dayOfYear : Int) + 1900 = c.dateTime.year := by
  rw [DayIsYear, gmtimeR_eq h.2.2.2, Option.all_some, decide_eq_true_eq]
  simp only
  omega

/-- A call succeeds if nothing goes wrong in it. -/
theorem result_of_not (h : ¬ c.Succeeds) : c.result = none := by
  have hfails : ∀ tv, c.getsystem tv = (Errno.unknown, tv) := by
    intro tv
    unfold getsystem timeGetsystem
    by_cases hcur : c.curTime = -1
    · rw [if_pos hcur]
    · rw [if_neg hcur]
      have htime : c.timeFails = false ∧ c.curTime = c.readSecond := by
        unfold curTime at hcur ⊢
        cases hfail : c.timeFails
        · exact ⟨rfl, rfl⟩
        · simp [hfail] at hcur
      cases hgm : gmtimeR c.curTime with
      | none => rfl
      | some tm =>
          have hclock : c.clockFails = true := by
            by_contra hok
            apply h
            rw [htime.2] at hcur hgm
            exact ⟨htime.1, eq_false_of_ne_true hok, hcur, by rw [hgm]; rfl⟩
          simp only [timeofday, hclock, if_true, timeGet]
          rfl
  rw [result, hfails]
  exact if_neg (by decide)

/-- The fields of what a successful call returns. -/
theorem result_of_succeeds (h : c.Succeeds) : ∃ tv, c.result = some tv ∧
    tv.year.toNat = c.dayOfYear + 1900 ∧
    tv.month.toNat = c.dateTime.month + 1 ∧ tv.day.toNat = c.dateTime.day ∧
    tv.hour.toNat = c.dateTime.hour ∧ tv.minute.toNat = c.dateTime.minute ∧
    tv.second.toNat = c.dateTime.second ∧ tv.mseconds.toNat = c.readMsec := by
  obtain ⟨htime, hclock, hsecond, hgm⟩ := h
  have hcur : c.curTime = c.readSecond := by
    rw [curTime, htime]
    rfl
  have hday : c.timeofday = some (c.clockAt / 1000000, c.clockAt % 1000000) := by
    rw [timeofday, hclock]
    rfl
  have hres : c.getsystem default = (0, {
      year := UInt32.ofInt ((c.dayOfYear : Int) + 1900)
      month := UInt32.ofInt ((c.dateTime.month : Int) + 1)
      day := UInt32.ofInt c.dateTime.day
      hour := UInt32.ofInt c.dateTime.hour
      minute := UInt32.ofInt c.dateTime.minute
      second := UInt32.ofInt c.dateTime.second
      mseconds := UInt32.ofInt (c.clockAt % 1000000) * 1000 / 1000 / 1000 }) := by
    rw [getsystem, timeGetsystem, hcur, if_neg hsecond, gmtimeR_eq hgm, hday]
    rfl
  have hvalid := c.dateTime_valid
  have hmonth := hvalid.month
  have hhour := hvalid.hour
  have hminute := hvalid.minute
  have hsec := hvalid.second
  have hyday := c.dayOfYear_lt
  have hdays : c.dateTime.day ≤ 366 := by
    have hlt := hvalid.day_lt
    have hyear : daysInYear c.dateTime.year ≤ 366 := by
      rw [daysInYear]
      split <;> omega
    omega
  refine ⟨(c.getsystem default).2, by rw [result, hres]; rfl, ?_⟩
  rw [hres]
  have husec : (UInt32.ofInt (c.clockAt % 1000000) * 1000 / 1000 / 1000).toNat =
      c.readMsec := by
    have hthousand : UInt32.toNat 1000 = 1000 := rfl
    have hlt : (c.clockAt % 1000000).toNat * 1000 < 2 ^ 32 := by omega
    rw [UInt32.toNat_div, UInt32.toNat_div, UInt32.toNat_mul, hthousand,
      toNat_ofInt (by omega) (by omega), Nat.mod_eq_of_lt hlt,
      Nat.mul_div_cancel _ (by omega), readMsec]
    omega
  refine ⟨?_, ?_, ?_, ?_, ?_, ?_, husec⟩
  all_goals
    simp only
    rw [toNat_ofInt (by omega) (by omega)]
    omega

end SystemCall

end Powerpack
end Eaf
