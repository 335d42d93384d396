import Recurrence.Calendar.Lemmas
import Recurrence.CalendarUnit

set_option autoImplicit false
set_option relaxedAutoImplicit false

/-!
Units are aligned with the days: a unit has begun by a day exactly if it is the unit of that day or
an earlier one.
-/

namespace Recurrence.Frequency

open Recurrence.Calendar

theorem monthStart_eq (unit : Int) :
    unitStart monthly .monday unit =
      yearStart (unit / 12) + daysBeforeMonth (unit / 12) ((unit % 12).toNat + 1) := by
  simp only [unitStart, day]
  omega

theorem monthStart_succ (unit : Int) :
    unitStart monthly .monday (unit + 1) =
      unitStart monthly .monday unit + monthLength (unit / 12) ((unit % 12).toNat + 1) := by
  have lengths := daysBeforeMonth_add_monthLength (unit / 12)
    (show 1 ≤ (unit % 12).toNat + 1 by omega) (by omega)
  rw [monthStart_eq, monthStart_eq]
  by_cases h : unit % 12 = 11
  · have place : (unit % 12).toNat + 1 = 12 := by omega
    have nextYear : (unit + 1) / 12 = unit / 12 + 1 := by omega
    have nextPlace : ((unit + 1) % 12).toNat + 1 = 1 := by omega
    rw [place, if_pos rfl] at lengths
    rw [place, nextYear, nextPlace, yearStart_succ]
    have none : daysBeforeMonth (unit / 12 + 1) 1 = 0 := by simp [daysBeforeMonth, commonDaysBefore]
    omega
  · have sameYear : (unit + 1) / 12 = unit / 12 := by omega
    have nextPlace : ((unit + 1) % 12).toNat + 1 = (unit % 12).toNat + 1 + 1 := by omega
    rw [if_neg (by omega)] at lengths
    rw [sameYear, nextPlace]
    omega

theorem unitStart_lt_succ (frequency : Frequency) (weekStart : Weekday) (unit : Int) :
    frequency.unitStart weekStart unit < frequency.unitStart weekStart (unit + 1) := by
  cases frequency with
  | daily => simp only [unitStart]; omega
  | weekly => simp only [unitStart]; omega
  | monthly =>
    have step := monthStart_succ unit
    have length := monthLength_bounds (unit / 12) ((unit % 12).toNat + 1)
    change unitStart monthly .monday unit < unitStart monthly .monday (unit + 1)
    omega
  | yearly => exact yearStart_lt (by omega)

theorem unitStart_lt (frequency : Frequency) (weekStart : Weekday) {a b : Int} (h : a < b) :
    frequency.unitStart weekStart a < frequency.unitStart weekStart b := by
  have steps : ∀ n : Nat,
      frequency.unitStart weekStart a < frequency.unitStart weekStart (a + n + 1) := by
    intro n
    induction n with
    | zero => simpa using unitStart_lt_succ frequency weekStart a
    | succ n ih =>
      have step := unitStart_lt_succ frequency weekStart (a + n + 1)
      have same : a + (n + 1 : Nat) + 1 = a + n + 1 + 1 := by omega
      rw [same]
      omega
  have result := steps (b - a - 1).toNat
  have same : a + ((b - a - 1).toNat : Int) + 1 = b := by omega
  rwa [same] at result

theorem unitOf_bounds (frequency : Frequency) (weekStart : Weekday) (d : Int) :
    frequency.unitStart weekStart (frequency.unitOf weekStart d) ≤ d ∧
      d < frequency.unitStart weekStart (frequency.unitOf weekStart d + 1) := by
  cases frequency with
  | daily => simp only [unitStart, unitOf]; omega
  | weekly => simp only [unitStart, unitOf]; omega
  | monthly =>
    have parts := date_bounds d
    have named := day_date d
    have step := monthStart_succ (unitOf monthly .monday d)
    have start := monthStart_eq (unitOf monthly .monday d)
    have year : unitOf monthly .monday d / 12 = (date d).year := by simp only [unitOf]; omega
    have month : (unitOf monthly .monday d % 12).toNat + 1 = (date d).month := by
      simp only [unitOf]
      omega
    rw [year, month] at step start
    unfold day at named
    change unitStart monthly .monday (unitOf monthly .monday d) ≤ d ∧
      d < unitStart monthly .monday (unitOf monthly .monday d + 1)
    omega
  | yearly => exact yearOf_bounds d

/-- A unit has begun by a day exactly if the day's own unit is that unit or a later one. -/
theorem unitStart_le_iff {frequency : Frequency} {weekStart : Weekday} {unit d : Int} :
    frequency.unitStart weekStart unit ≤ d ↔ unit ≤ frequency.unitOf weekStart d := by
  have bounds := unitOf_bounds frequency weekStart d
  constructor
  · intro h
    by_cases later : frequency.unitOf weekStart d + 1 ≤ unit
    · by_cases same : frequency.unitOf weekStart d + 1 = unit
      · rw [same] at bounds
        omega
      · have := unitStart_lt frequency weekStart
          (show frequency.unitOf weekStart d + 1 < unit by omega)
        omega
    · omega
  · intro h
    by_cases same : unit = frequency.unitOf weekStart d
    · rw [same]
      exact bounds.1
    · have := unitStart_lt frequency weekStart
        (show unit < frequency.unitOf weekStart d by omega)
      omega

end Recurrence.Frequency
