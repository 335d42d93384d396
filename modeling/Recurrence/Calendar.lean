import Recurrence.Weekday

set_option autoImplicit false
set_option relaxedAutoImplicit false

/-!
The proleptic Gregorian calendar. A day is an integer, counted from 1970-01-01, so that adding and
comparing days is arithmetic; years, months, weekdays and ISO weeks are functions of it. The
calendar that dates are kept in ends at `firstDay` and `lastDay`.
-/

namespace Recurrence.Calendar

/-- Leap years are those divisible by four, save the centuries not divisible by four hundred. -/
def IsLeap (year : Int) : Prop := year % 4 = 0 ∧ (year % 100 ≠ 0 ∨ year % 400 = 0)

instance (year : Int) : Decidable (IsLeap year) :=
  inferInstanceAs (Decidable (_ ∧ _))

def leapDays (year : Int) : Nat := if IsLeap year then 1 else 0

def yearLength (year : Int) : Nat := 365 + leapDays year

/-- The number of days of a month, 1 to 12. -/
def monthLength (year : Int) (month : Nat) : Nat :=
  if month = 2 then 28 + leapDays year
  else if month = 4 ∨ month = 6 ∨ month = 9 ∨ month = 11 then 30
  else 31

def yearStart (year : Int) : Int :=
  365 * (year - 1) + (year - 1) / 4 - (year - 1) / 100 + (year - 1) / 400 - 719162

/-- The days of a common year before a month. -/
def commonDaysBefore : Nat → Nat
  | 2 => 31
  | 3 => 59
  | 4 => 90
  | 5 => 120
  | 6 => 151
  | 7 => 181
  | 8 => 212
  | 9 => 243
  | 10 => 273
  | 11 => 304
  | 12 => 334
  | _ => 0

/-- The days of a year before a month. -/
def daysBeforeMonth (year : Int) (month : Nat) : Nat :=
  commonDaysBefore month + if 2 < month then leapDays year else 0

/-- A day by its year, month and day of the month. -/
def day (year : Int) (month dayOfMonth : Nat) : Int :=
  yearStart year + daysBeforeMonth year month + dayOfMonth - 1

/-- The year that a day belongs to. Four hundred years are 146097 days, and the quotient by the mean
length of a year is right or one too small. -/
def yearOf (day : Int) : Int :=
  let passed := day + 719162
  let estimate := passed / 146097 * 400 + passed % 146097 * 400 / 146097 + 1
  if yearStart (estimate + 1) ≤ day then estimate + 1 else estimate

/-- The month that holds the day with `passed` days of the year before it, in a year with the given
number of leap days. -/
def monthAfter (leapDays passed : Nat) : Nat :=
  if passed < 31 then 1
  else if passed < 59 + leapDays then 2
  else if passed < 90 + leapDays then 3
  else if passed < 120 + leapDays then 4
  else if passed < 151 + leapDays then 5
  else if passed < 181 + leapDays then 6
  else if passed < 212 + leapDays then 7
  else if passed < 243 + leapDays then 8
  else if passed < 273 + leapDays then 9
  else if passed < 304 + leapDays then 10
  else if passed < 334 + leapDays then 11
  else 12

/-- A date: a day named by year, month and day of the month, with its place in the year. -/
structure Date where
  year : Int
  month : Nat
  dayOfMonth : Nat
  dayOfYear : Nat
  deriving DecidableEq, Repr

def date (day : Int) : Date :=
  let year := yearOf day
  let passed := (day - yearStart year).toNat
  let month := monthAfter (leapDays year) passed
  { year, month, dayOfMonth := passed - daysBeforeMonth year month + 1, dayOfYear := passed + 1 }

/-- The weekday of a day, as its number from Sunday. -/
def weekdayNumber (day : Int) : Nat := ((day + 4) % 7).toNat

def weekday (day : Int) : Weekday := (Weekday.ofNumber? (weekdayNumber day)).getD .sunday

/-- A week of an ISO year. The week belongs to the year that holds its Thursday. -/
structure IsoWeek where
  year : Int
  week : Nat
  deriving DecidableEq, Repr

def isoWeek (day : Int) : IsoWeek :=
  let thursday := day - (day + 3) % 7 + 3
  let year := yearOf thursday
  { year, week := ((thursday - yearStart year) / 7).toNat + 1 }

def firstYear : Int := -262143

def lastYear : Int := 262142

def firstDay : Int := day firstYear 1 1

def lastDay : Int := day lastYear 12 31

/-- The number of weeks of an ISO year: 53 if 28 December lies in week 53, otherwise 52. Years
outside the calendar count as short ones. -/
def isoWeeks (year : Int) : Nat :=
  if firstYear ≤ year ∧ year ≤ lastYear ∧ (isoWeek (day year 12 28)).week = 53 then 53 else 52

/-- A day of a month, moved to the month's last day if the month is too short. -/
def clampedDay (year : Int) (month dayOfMonth : Nat) : Int :=
  day year month (min dayOfMonth (monthLength year month))

/-- The day with the given year, month and day of the month, if the calendar has it. -/
def day? (year : Int) (month dayOfMonth : Nat) : Option Int :=
  if firstYear ≤ year ∧ year ≤ lastYear ∧ 1 ≤ month ∧ month ≤ 12 ∧
      1 ≤ dayOfMonth ∧ dayOfMonth ≤ monthLength year month then
    some (day year month dayOfMonth)
  else none

/-- The `value`-th place among `length` places, counted from 1, or back from the last place for a
negative value. -/
def place? (value : Int) (length : Nat) : Option Nat :=
  let place := if value < 0 then length + value + 1 else value
  if 1 ≤ place ∧ place ≤ length then some place.toNat else none

end Recurrence.Calendar
