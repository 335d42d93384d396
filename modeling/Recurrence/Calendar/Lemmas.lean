import Recurrence.Calendar

set_option autoImplicit false
set_option relaxedAutoImplicit false

/-!
Laws of the calendar. Years and months partition the days: a day lies in the year and the month
that its date names, and `day` and `date` are inverse to each other.
-/

namespace Recurrence.Calendar

theorem leapDays_le_one (year : Int) : leapDays year ≤ 1 := by
  unfold leapDays
  split <;> omega

theorem monthLength_bounds (year : Int) (month : Nat) :
    28 ≤ monthLength year month ∧ monthLength year month ≤ 31 := by
  have leap := leapDays_le_one year
  unfold monthLength
  repeat' split
  all_goals omega

theorem yearLength_le (year : Int) : yearLength year ≤ 366 := by
  have leap := leapDays_le_one year
  unfold yearLength
  omega

theorem yearStart_succ (year : Int) : yearStart (year + 1) = yearStart year + yearLength year := by
  unfold yearStart yearLength leapDays
  by_cases h : IsLeap year
  · rw [if_pos h]
    unfold IsLeap at h
    omega
  · rw [if_neg h]
    unfold IsLeap at h
    omega

theorem yearStart_add_365_le (year : Int) : yearStart year + 365 ≤ yearStart (year + 1) := by
  rw [yearStart_succ]
  unfold yearLength
  omega

theorem yearStart_lt {a b : Int} (h : a < b) : yearStart a < yearStart b := by
  have steps : ∀ n : Nat, yearStart a < yearStart (a + n + 1) := by
    intro n
    induction n with
    | zero =>
      have := yearStart_add_365_le a
      simpa using (by omega : yearStart a < yearStart (a + 1))
    | succ n ih =>
      have := yearStart_add_365_le (a + n + 1)
      have same : a + (n + 1 : Nat) + 1 = a + n + 1 + 1 := by omega
      rw [same]
      omega
  have := steps (b - a - 1).toNat
  have same : a + ((b - a - 1).toNat : Int) + 1 = b := by omega
  rwa [same] at this

theorem yearStart_le_iff {a b : Int} : yearStart a ≤ yearStart b ↔ a ≤ b := by
  constructor
  · intro h
    by_cases hb : b < a
    · have := yearStart_lt hb
      omega
    · omega
  · intro h
    by_cases hab : a = b
    · subst hab
      omega
    · have := yearStart_lt (show a < b by omega)
      omega

theorem yearOf_bounds (day : Int) :
    yearStart (yearOf day) ≤ day ∧ day < yearStart (yearOf day + 1) := by
  unfold yearOf
  simp only
  split
  · rename_i h
    refine ⟨h, ?_⟩
    unfold yearStart at *
    omega
  · rename_i h
    refine ⟨?_, by omega⟩
    unfold yearStart at *
    omega

/-- The year of a day is the only one that the day lies in. -/
theorem yearOf_eq_iff {day year : Int} :
    yearOf day = year ↔ yearStart year ≤ day ∧ day < yearStart (year + 1) := by
  have bounds := yearOf_bounds day
  constructor
  · rintro rfl
    exact bounds
  · rintro ⟨low, high⟩
    have upper : yearOf day < year + 1 := by
      by_cases h : year + 1 ≤ yearOf day
      · have := yearStart_le_iff.2 h
        omega
      · omega
    have lower : year < yearOf day + 1 := by
      by_cases h : yearOf day + 1 ≤ year
      · have := yearStart_le_iff.2 h
        omega
      · omega
    omega

private theorem monthAfter_bounds {year : Int} {passed : Nat} (h : passed < yearLength year) :
    1 ≤ monthAfter (leapDays year) passed ∧ monthAfter (leapDays year) passed ≤ 12 ∧
      daysBeforeMonth year (monthAfter (leapDays year) passed) ≤ passed ∧
      passed < daysBeforeMonth year (monthAfter (leapDays year) passed) +
        monthLength year (monthAfter (leapDays year) passed) := by
  have leap := leapDays_le_one year
  unfold yearLength at h
  unfold monthAfter
  repeat' split
  all_goals
    simp only [daysBeforeMonth, commonDaysBefore, monthLength]
    simp
    omega

/-- The parts of a date are within their ranges, and name the day. -/
theorem date_bounds (d : Int) :
    1 ≤ (date d).month ∧ (date d).month ≤ 12 ∧ 1 ≤ (date d).dayOfMonth ∧
      (date d).dayOfMonth ≤ monthLength (date d).year (date d).month := by
  have bounds := yearOf_bounds d
  rw [yearStart_succ] at bounds
  have inYear : (d - yearStart (yearOf d)).toNat < yearLength (yearOf d) := by omega
  have month := monthAfter_bounds inYear
  simp only [date]
  omega

theorem day_date (d : Int) : day (date d).year (date d).month (date d).dayOfMonth = d := by
  have bounds := yearOf_bounds d
  rw [yearStart_succ] at bounds
  have inYear : (d - yearStart (yearOf d)).toNat < yearLength (yearOf d) := by omega
  have month := monthAfter_bounds inYear
  simp only [date, day]
  omega

theorem year_date (d : Int) : (date d).year = yearOf d := rfl

theorem dayOfYear_date (d : Int) : ((date d).dayOfYear : Int) = d - yearStart (yearOf d) + 1 := by
  have bounds := yearOf_bounds d
  simp only [date]
  omega

theorem daysBeforeMonth_add_monthLength (year : Int) {month : Nat} (low : 1 ≤ month)
    (high : month ≤ 12) :
    daysBeforeMonth year month + monthLength year month =
      if month = 12 then yearLength year else daysBeforeMonth year (month + 1) := by
  have leap := leapDays_le_one year
  have cases : month = 1 ∨ month = 2 ∨ month = 3 ∨ month = 4 ∨ month = 5 ∨ month = 6 ∨ month = 7 ∨
      month = 8 ∨ month = 9 ∨ month = 10 ∨ month = 11 ∨ month = 12 := by omega
  rcases cases with rfl | rfl | rfl | rfl | rfl | rfl | rfl | rfl | rfl | rfl | rfl | rfl <;>
    simp [daysBeforeMonth, commonDaysBefore, monthLength, yearLength] <;> omega

theorem daysBeforeMonth_mono (year : Int) {a b : Nat} (low : 1 ≤ a) (h : a < b) (high : b ≤ 12) :
    daysBeforeMonth year a + monthLength year a ≤ daysBeforeMonth year b := by
  induction b with
  | zero => omega
  | succ b ih =>
    have step := daysBeforeMonth_add_monthLength year (show 1 ≤ b by omega)
      (show b ≤ 12 by omega)
    rw [if_neg (show b ≠ 12 by omega)] at step
    by_cases hab : a = b
    · subst hab
      omega
    · have := ih (by omega) (by omega)
      omega

private theorem daysBeforeMonth_add_le (year : Int) {month : Nat} (low : 1 ≤ month)
    (high : month ≤ 12) :
    daysBeforeMonth year month + monthLength year month ≤ yearLength year := by
  by_cases h : month = 12
  · have last := daysBeforeMonth_add_monthLength year low high
    rw [if_pos h] at last
    omega
  · have before := daysBeforeMonth_mono year low (show month < 12 by omega) (by omega)
    have last := daysBeforeMonth_add_monthLength year (show 1 ≤ 12 by omega)
      (show 12 ≤ 12 by omega)
    rw [if_pos rfl] at last
    omega

private theorem monthAfter_eq {year : Int} {month passed : Nat} (low : 1 ≤ month)
    (high : month ≤ 12) (begun : daysBeforeMonth year month ≤ passed)
    (within : passed < daysBeforeMonth year month + monthLength year month) :
    monthAfter (leapDays year) passed = month := by
  have fits := daysBeforeMonth_add_le year low high
  have found := monthAfter_bounds (show passed < yearLength year by omega)
  by_cases below : monthAfter (leapDays year) passed < month
  · have := daysBeforeMonth_mono year found.1 below high
    omega
  · by_cases above : month < monthAfter (leapDays year) passed
    · have := daysBeforeMonth_mono year low above found.2.1
      omega
    · omega

theorem date_day {year : Int} {month dayOfMonth : Nat} (low : 1 ≤ month) (high : month ≤ 12)
    (first : 1 ≤ dayOfMonth) (last : dayOfMonth ≤ monthLength year month) :
    date (day year month dayOfMonth) =
      ⟨year, month, dayOfMonth, daysBeforeMonth year month + dayOfMonth⟩ := by
  have fits := daysBeforeMonth_add_le year low high
  have next := yearStart_succ year
  have inYear : yearOf (day year month dayOfMonth) = year := by
    rw [yearOf_eq_iff]
    unfold day
    omega
  have passed : (day year month dayOfMonth - yearStart year).toNat =
      daysBeforeMonth year month + dayOfMonth - 1 := by
    unfold day
    omega
  have inMonth : monthAfter (leapDays year) (daysBeforeMonth year month + dayOfMonth - 1) = month :=
    monthAfter_eq low high (by omega) (by omega)
  simp only [date, inYear, passed, inMonth]
  congr 1 <;> omega

end Recurrence.Calendar
