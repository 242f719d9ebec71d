import Mathlib.Data.Int.Basic
import Mathlib.Data.Prod.Lex
import Mathlib.Order.Monotone.Basic

/-!
# The proleptic Gregorian calendar

Seconds are numbered from the beginning of 1970.  Every number belongs to one
date and time of day, and the numbers grow with the lexicographic order of
dates and times.
-/

namespace Eaf
namespace Gregorian

variable {y z : Int} {m n : Nat}

/-! ## Years and months -/

def isLeap (y : Int) : Bool := y % 4 = 0 && (y % 100 ≠ 0 || y % 400 = 0)

def daysInYear (y : Int) : Nat := if isLeap y then 366 else 365

/-- The days from the beginning of year 1 to the beginning of a year. -/
def daysBeforeYear (y : Int) : Int :=
  365 * (y - 1) + (y - 1) / 4 - (y - 1) / 100 + (y - 1) / 400

/-- The days in a month.  Months are counted from 0. -/
def daysInMonth (y : Int) : Nat → Nat
  | 1 => if isLeap y then 29 else 28
  | 3 => 30
  | 5 => 30
  | 8 => 30
  | 10 => 30
  | _ => 31

/-- The days from the beginning of a year to the beginning of a month. -/
def daysBeforeMonth (y : Int) : Nat → Nat
  | 0 => 0
  | m + 1 => daysBeforeMonth y m + daysInMonth y m

theorem isLeap_iff : isLeap y = true ↔ y % 4 = 0 ∧ (y % 100 ≠ 0 ∨ y % 400 = 0) := by
  simp [isLeap]

theorem daysBeforeYear_succ (y : Int) :
    daysBeforeYear (y + 1) = daysBeforeYear y + daysInYear y := by
  unfold daysBeforeYear daysInYear
  by_cases hleap : isLeap y = true
  · rw [if_pos hleap]
    rw [isLeap_iff] at hleap
    omega
  · rw [if_neg hleap]
    rw [isLeap_iff] at hleap
    omega

theorem daysBeforeYear_le (h : y ≤ z) : daysBeforeYear y ≤ daysBeforeYear z := by
  unfold daysBeforeYear
  omega

theorem daysBeforeMonth_mono (y : Int) : Monotone (daysBeforeMonth y) :=
  monotone_nat_of_le_succ fun _ => Nat.le_add_right _ _

theorem daysBeforeMonth_year (y : Int) : daysBeforeMonth y 12 = daysInYear y := by
  simp only [daysBeforeMonth, daysInMonth, daysInYear]
  split <;> rfl

/-! ## Dates and times -/

/-- A date and a time of day.  The months are counted from 0, and the days of a
month from 1. -/
@[ext]
structure DateTime where
  year : Int
  month : Nat
  day : Nat
  hour : Nat
  minute : Nat
  second : Nat
  deriving DecidableEq, Repr

namespace DateTime

variable {c c' : DateTime}

/-- The date exists. -/
structure Valid (c : DateTime) : Prop where
  month : c.month < 12
  day_pos : 0 < c.day
  day : c.day ≤ daysInMonth c.year c.month
  hour : c.hour < 24
  minute : c.minute < 60
  second : c.second < 60

/-- The first day of 1970, counted from the beginning of year 1. -/
def epoch : Int := 719162

/-- The number of the day. -/
def dayNumber (c : DateTime) : Int :=
  daysBeforeYear c.year + daysBeforeMonth c.year c.month + (c.day - 1) - epoch

/-- The number of the second. -/
def secondNumber (c : DateTime) : Int :=
  c.dayNumber * 86400 + c.hour * 3600 + c.minute * 60 + c.second

/-- What dates and times are ordered by. -/
def key (c : DateTime) : ℤ ×ₗ ℕ ×ₗ ℕ ×ₗ ℕ ×ₗ ℕ ×ₗ ℕ :=
  toLex (c.year, toLex (c.month, toLex (c.day, toLex (c.hour,
    toLex (c.minute, c.second)))))

theorem key_lt : c.key < c'.key ↔
    c.year < c'.year ∨ c.year = c'.year ∧ (c.month < c'.month ∨
      c.month = c'.month ∧ (c.day < c'.day ∨ c.day = c'.day ∧
        (c.hour < c'.hour ∨ c.hour = c'.hour ∧ (c.minute < c'.minute ∨
          c.minute = c'.minute ∧ c.second < c'.second)))) := by
  simp only [key, Prod.Lex.toLex_lt_toLex]

theorem key_inj : c.key = c'.key ↔ c = c' := by
  constructor
  · intro h
    simp only [key, EmbeddingLike.apply_eq_iff_eq, Prod.mk.injEq] at h
    obtain ⟨hyear, hmonth, hday, hhour, hminute, hsecond⟩ := h
    exact DateTime.ext hyear hmonth hday hhour hminute hsecond
  · exact congrArg key

/-- A day lies in its month, and a month in its year. -/
theorem Valid.day_lt (h : c.Valid) :
    daysBeforeMonth c.year c.month + c.day ≤ daysBeforeMonth c.year (c.month + 1) ∧
      daysBeforeMonth c.year (c.month + 1) ≤ daysInYear c.year := by
  constructor
  · rw [daysBeforeMonth]
    exact Nat.add_le_add_left h.day _
  · rw [← daysBeforeMonth_year]
    exact daysBeforeMonth_mono _ h.month

theorem Valid.dayNumber_lt_of_year (h : c.Valid) (h' : c'.Valid)
    (hlt : c.year < c'.year) : c.dayNumber < c'.dayNumber := by
  have hyears := daysBeforeYear_le (show c.year + 1 ≤ c'.year from hlt)
  rw [daysBeforeYear_succ] at hyears
  have hday := h.day_lt
  have hpos := h'.day_pos
  unfold dayNumber
  omega

theorem Valid.dayNumber_lt_of_month (h : c.Valid) (h' : c'.Valid)
    (hyear : c.year = c'.year) (hlt : c.month < c'.month) :
    c.dayNumber < c'.dayNumber := by
  have hmonths := daysBeforeMonth_mono c'.year (show c.month + 1 ≤ c'.month from hlt)
  have hday := h.day_lt
  have hpos := h'.day_pos
  unfold dayNumber
  rw [hyear] at hday ⊢
  omega

/-- Later dates and times have greater numbers. -/
theorem Valid.secondNumber_lt (h : c.Valid) (h' : c'.Valid) (hlt : c.key < c'.key) :
    c.secondNumber < c'.secondNumber := by
  have hhour := h.hour
  have hminute := h.minute
  have hsecond := h.second
  have hnext : c.dayNumber < c'.dayNumber → c.secondNumber < c'.secondNumber := by
    intro hdays
    unfold secondNumber
    omega
  rw [key_lt] at hlt
  rcases hlt with hyear | ⟨hyear, hmonth | ⟨hmonth, hday | ⟨hday, htime⟩⟩⟩
  · exact hnext (h.dayNumber_lt_of_year h' hyear)
  · exact hnext (h.dayNumber_lt_of_month h' hyear hmonth)
  · apply hnext
    unfold dayNumber
    rw [hyear, hmonth]
    omega
  · have hminute' := h'.minute
    have hsecond' := h'.second
    have hsame : c.dayNumber = c'.dayNumber := by
      unfold dayNumber
      rw [hyear, hmonth, hday]
    unfold secondNumber
    rw [hsame]
    omega

/-- The order of valid dates and times is the order of their numbers. -/
theorem Valid.key_le_iff (h : c.Valid) (h' : c'.Valid) :
    c.key ≤ c'.key ↔ c.secondNumber ≤ c'.secondNumber := by
  constructor
  · intro hle
    rcases lt_or_eq_of_le hle with hlt | heq
    · exact (h.secondNumber_lt h' hlt).le
    · rw [key_inj.mp heq]
  · intro hle
    by_contra hgt
    have hlt := h'.secondNumber_lt h (not_le.mp hgt)
    omega

/-- A number belongs to one date and time. -/
theorem Valid.secondNumber_inj (h : c.Valid) (h' : c'.Valid) :
    c.secondNumber = c'.secondNumber ↔ c = c' := by
  constructor
  · intro hsame
    exact key_inj.mp (le_antisymm ((h.key_le_iff h').mpr hsame.le)
      ((h'.key_le_iff h).mpr hsame.ge))
  · exact congrArg secondNumber

/-! ## From numbers to dates -/

/-- The year of a day that is counted from the beginning of year 1, and the day
in that year.  The last day of a leap year ends the fourth year, and the last
day of a year divisible by 400 ends the fourth century. -/
def yearOfDay (day : Int) : Int × Nat :=
  let cycles := day / 146097
  let day := day % 146097
  let centuries := min (day / 36524) 3
  let day := day - centuries * 36524
  let fours := day / 1461
  let day := day % 1461
  let ones := min (day / 365) 3
  (400 * cycles + 100 * centuries + 4 * fours + ones + 1, (day - ones * 365).toNat)

/-- Years in a cycle of 400, with the centuries, the groups of four years and
the years counted. -/
theorem daysBeforeYear_parts {cycles centuries fours ones : Int}
    (hcenturies : 0 ≤ centuries ∧ centuries ≤ 3) (hfours : 0 ≤ fours ∧ fours ≤ 24)
    (hones : 0 ≤ ones ∧ ones ≤ 3) :
    daysBeforeYear (400 * cycles + 100 * centuries + 4 * fours + ones + 1) =
      146097 * cycles + 36524 * centuries + 1461 * fours + 365 * ones := by
  unfold daysBeforeYear
  omega

/-- The leap years in a cycle. -/
theorem isLeap_parts {cycles centuries fours : Int} (hfours : 0 ≤ fours ∧ fours ≤ 24)
    (hlast : fours = 24 → centuries = 3) :
    isLeap (400 * cycles + 100 * centuries + 4 * fours + 3 + 1) = true := by
  rw [isLeap_iff]
  omega

theorem yearOfDay_spec (day : Int) : (yearOfDay day).2 < daysInYear (yearOfDay day).1 ∧
    daysBeforeYear (yearOfDay day).1 + (yearOfDay day).2 = day := by
  unfold yearOfDay
  simp only
  generalize hcycles : day / 146097 = cycles
  generalize hcycle : day % 146097 = cycle
  generalize hcenturies : min (cycle / 36524) 3 = centuries
  generalize hcentury : cycle - centuries * 36524 = century
  generalize hfours : century / 1461 = fours
  generalize hfour : century % 1461 = four
  generalize hones : min (four / 365) 3 = ones
  have hcenturies_le : 0 ≤ centuries ∧ centuries ≤ 3 := by omega
  have hcentury_le : 0 ≤ century ∧ century ≤ 36524 ∧
      (century = 36524 → centuries = 3) := by omega
  have hfours_le : 0 ≤ fours ∧ fours ≤ 24 := by omega
  have hones_le : 0 ≤ ones ∧ ones ≤ 3 := by omega
  have hday : 0 ≤ four - ones * 365 ∧ four - ones * 365 ≤ 365 ∧
      (four - ones * 365 = 365 → ones = 3 ∧ (fours = 24 → centuries = 3)) := by
    omega
  constructor
  · unfold daysInYear
    by_cases hfull : four - ones * 365 = 365
    · obtain ⟨hthree, hlast⟩ := hday.2.2 hfull
      rw [hthree, if_pos (isLeap_parts hfours_le hlast)]
      omega
    · split <;> omega
  · rw [daysBeforeYear_parts hcenturies_le hfours_le hones_le]
    omega

/-- The month of a day in a year, and the day in that month. -/
def monthOfDay (y : Int) : Nat → Nat → Nat → Nat × Nat
  | 0, m, day => (m, day)
  | turns + 1, m, day =>
      if day < daysInMonth y m then (m, day)
      else monthOfDay y turns (m + 1) (day - daysInMonth y m)

theorem monthOfDay_spec (y : Int) (turns m day : Nat) (hturns : m + turns = 11)
    (hday : daysBeforeMonth y m + day < daysInYear y) :
    (monthOfDay y turns m day).1 < 12 ∧
    (monthOfDay y turns m day).2 < daysInMonth y (monthOfDay y turns m day).1 ∧
    daysBeforeMonth y (monthOfDay y turns m day).1 + (monthOfDay y turns m day).2 =
      daysBeforeMonth y m + day := by
  induction turns generalizing m day with
  | zero =>
      have hlast : m = 11 := hturns
      subst hlast
      have htwelve := daysBeforeMonth_year y
      rw [daysBeforeMonth] at htwelve
      have hlt : day < daysInMonth y 11 := by omega
      rw [monthOfDay]
      exact ⟨by omega, hlt, rfl⟩
  | succ turns ih =>
      rw [monthOfDay]
      split
      · next hlt => exact ⟨by omega, hlt, rfl⟩
      · next hge =>
        have hnext : daysBeforeMonth y (m + 1) + (day - daysInMonth y m) =
            daysBeforeMonth y m + day := by
          rw [daysBeforeMonth]
          omega
        rw [← hnext]
        exact ih (m + 1) _ (by omega) (by omega)

/-- The date and time of a second. -/
def ofSecond (t : Int) : DateTime :=
  let (year, day) := yearOfDay (t / 86400 + epoch)
  let (month, day) := monthOfDay year 11 0 day
  let rest := (t % 86400).toNat
  ⟨year, month, day + 1, rest / 3600, rest / 60 % 60, rest % 60⟩

theorem ofSecond_spec (t : Int) :
    (ofSecond t).Valid ∧ (ofSecond t).secondNumber = t := by
  obtain ⟨hyear, hday⟩ := yearOfDay_spec (t / 86400 + epoch)
  obtain ⟨hmonth, hlast, hnumber⟩ :=
    monthOfDay_spec (yearOfDay (t / 86400 + epoch)).1 11 0
      (yearOfDay (t / 86400 + epoch)).2 rfl (by rw [daysBeforeMonth]; omega)
  rw [daysBeforeMonth] at hnumber
  constructor
  · exact ⟨hmonth, Nat.succ_pos _, hlast, by simp only [ofSecond]; omega,
      by simp only [ofSecond]; omega, by simp only [ofSecond]; omega⟩
  · simp only [ofSecond, secondNumber, dayNumber]
    omega

end DateTime

end Gregorian
end Eaf
