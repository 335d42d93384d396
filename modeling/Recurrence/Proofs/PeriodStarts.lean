import Recurrence.Proofs.CalendarEnds
import Recurrence.Proofs.CounterBounds

set_option autoImplicit false
set_option relaxedAutoImplicit false

/-!
The first days of periods, computed with words: numbers of four or eight bytes, and spans of time of
limited length. Any of them may be too small, but none is for a period that begins within the
calendar. So the calculation comes to nothing exactly for the periods that begin behind the
calendar's last day.
-/

namespace Recurrence

open Calendar

namespace Calendar

def within? (low high n : Int) : Option Int := if low ≤ n ∧ n ≤ high then some n else none

private theorem within?_eq_some_iff {low high n m : Int} :
    within? low high n = some m ↔ m = n ∧ low ≤ n ∧ n ≤ high := by
  unfold within?
  split_ifs with h
  · simp [h, eq_comm]
  · simp [h]

def word32? : Int → Option Int := within? (-2147483648) 2147483647

def word64? : Int → Option Int := within? (-9223372036854775808) 9223372036854775807

/-- A number of seconds as a span of time. A span has at most as many milliseconds as a word. -/
def span? : Int → Option Int := within? (-9223372036854775) 9223372036854775

def dayAfter? (day units unitDays : Int) : Option Int := do
  let seconds ← word64? (units * (unitDays * 86400))
  let span ← span? seconds
  let days ← word32? (span.tdiv 86400)
  within? firstDay lastDay (day + days)

private theorem dayAfter?_eq_some_iff {day units unitDays d : Int} (hday : firstDay ≤ day)
    (hunits : 0 ≤ units * unitDays) :
    dayAfter? day units unitDays = some d ↔ d = day + units * unitDays ∧ d ≤ lastDay := by
  have hfirst : firstDay = -96465292 := by decide
  have hlast : lastDay = 95026236 := by decide
  have hseconds : units * (unitDays * 86400) = units * unitDays * 86400 := by rw [Int.mul_assoc]
  have hdays : (units * unitDays * 86400).tdiv 86400 = units * unitDays :=
    Int.mul_tdiv_cancel _ (by decide)
  unfold dayAfter? word64? word32? span?
  simp only [Option.bind_eq_bind, Option.bind_eq_some_iff, within?_eq_some_iff, hseconds]
  constructor
  · rintro ⟨_, ⟨rfl, -, -⟩, _, ⟨rfl, -, -⟩, _, ⟨rfl, -, -⟩, rfl, -, hle⟩
    rw [hdays] at hle ⊢
    exact ⟨rfl, hle⟩
  · rintro ⟨rfl, hle⟩
    refine ⟨_, ⟨rfl, by omega, by omega⟩, _, ⟨rfl, by omega, by omega⟩, _, ⟨rfl, ?_⟩, ?_⟩ <;>
      rw [hdays]
    · exact ⟨by omega, by omega⟩
    · exact ⟨rfl, by omega, hle⟩

private theorem first_of_month_within_iff {year : Int} {month : Nat} (hlow : 1 ≤ month)
    (hhigh : month ≤ 12) : (firstDay ≤ day year month 1 ∧ day year month 1 ≤ lastDay) ↔
      firstYear ≤ year ∧ year ≤ lastYear := by
  have hfirst : firstDay = yearStart firstYear := by decide
  have hlast : lastDay + 1 = yearStart (lastYear + 1) := by decide
  have hlength := monthLength_bounds year month
  have hyear : yearOf (day year month 1) = year := by
    rw [← year_date, date_day hlow hhigh le_rfl (by omega)]
  have hbegun := @yearStart_le_day_iff firstYear (day year month 1)
  have hended := @lt_yearStart_iff (lastYear + 1) (day year month 1)
  rw [hyear] at hbegun hended
  omega

private theorem day?_first_eq_some_iff {year d : Int} {month : Nat} (hlow : 1 ≤ month)
    (hhigh : month ≤ 12) :
    day? year month 1 = some d ↔ d = day year month 1 ∧ firstDay ≤ d ∧ d ≤ lastDay := by
  have hlength := monthLength_bounds year month
  have hwithin : (firstDay ≤ day year month 1 ∧ day year month 1 ≤ lastDay) ↔
    firstYear ≤ year ∧ year ≤ lastYear := first_of_month_within_iff hlow hhigh
  unfold day?
  rw [Option.ite_none_right_eq_some, Option.some.injEq]
  constructor
  · rintro ⟨⟨hfirst, hlast, -⟩, rfl⟩
    exact ⟨rfl, hwithin.2 ⟨hfirst, hlast⟩⟩
  · rintro ⟨rfl, hd⟩
    obtain ⟨hfirst, hlast⟩ := hwithin.1 hd
    exact ⟨⟨hfirst, hlast, hlow, hhigh, le_rfl, by omega⟩, rfl⟩

private theorem day_first_of_year (year : Int) : day year 1 1 = yearStart year := by
  simp [day, daysBeforeMonth, commonDaysBefore]

end Calendar

namespace Pattern

variable {p : Pattern} {k : Nat}

/-- The first day of the unit a number of units after the anchor's, computed with words that may be
too small. -/
def startAfter? (p : Pattern) (units : Int) : Option Int :=
  match p.rule.frequency with
  | .daily => dayAfter? p.anchor.day units 1
  | .weekly => dayAfter? (p.periodStart 0) units 7
  | .monthly => do
    let index ← word64? (p.unitOf p.anchor.day + units)
    let year ← word32? (index / 12)
    day? year ((index % 12).toNat + 1) 1
  | .yearly => do
    let years ← word32? units
    let year ← word32? (p.unitOf p.anchor.day + years)
    day? year 1 1

def checkedStart? (p : Pattern) (k : Nat) : Option Int := do
  let number ← word64? k
  let units ← word64? (number * p.step)
  p.startAfter? units

/-- Words are large enough for every unit that begins within the calendar. -/
private theorem startAfter?_eq_some_iff {units d : Int} (hp : firstDay ≤ p.periodStart 0)
    (hunits : 0 ≤ units) : p.startAfter? units = some d ↔
      d = p.rule.frequency.unitStart p.rule.weekStart (p.unitOf p.anchor.day + units) ∧
        d ≤ lastDay := by
  have hfirst : firstDay = -96465292 := by decide
  have hlast : lastDay = 95026236 := by decide
  have hyears : firstYear = -262143 ∧ lastYear = 262142 := ⟨rfl, rfl⟩
  have hbegun := p.periodStart_zero_le
  -- As every unit takes a day, there are few units before the calendar's last day.
  have hspan := Frequency.unitStart_add_le p.rule.frequency p.rule.weekStart
    (p.unitOf p.anchor.day) units.toNat
  rw [Int.toNat_of_nonneg hunits] at hspan
  have hzero := p.periodStart_zero
  have hafter : firstDay ≤
      p.rule.frequency.unitStart p.rule.weekStart (p.unitOf p.anchor.day + units) := by omega
  unfold startAfter?
  cases hf : p.rule.frequency with
  | daily =>
    simp only
    rw [dayAfter?_eq_some_iff (by omega) (by omega)]
    simp [unitOf, hf, Frequency.unitOf, Frequency.unitStart]
  | weekly =>
    have hsum : p.periodStart 0 + units * 7 =
        Frequency.unitStart .weekly p.rule.weekStart (p.unitOf p.anchor.day + units) := by
      rw [hzero, hf]
      simp only [Frequency.unitStart]
      omega
    simp only
    rw [dayAfter?_eq_some_iff hp (by omega), hsum]
  | monthly =>
    rw [hf] at hafter
    have hstart : Frequency.unitStart .monthly p.rule.weekStart (p.unitOf p.anchor.day + units) =
      day ((p.unitOf p.anchor.day + units) / 12)
        (((p.unitOf p.anchor.day + units) % 12).toNat + 1) 1 := rfl
    simp only [word64?, word32?, Option.bind_eq_bind, Option.bind_eq_some_iff,
      within?_eq_some_iff]
    constructor
    · rintro ⟨_, ⟨rfl, -, -⟩, _, ⟨rfl, -, -⟩, h⟩
      obtain ⟨rfl, -, hd⟩ := (day?_first_eq_some_iff (by omega) (by omega)).1 h
      exact ⟨hstart, hd⟩
    · rintro ⟨rfl, hd⟩
      have hyear := (first_of_month_within_iff (by omega) (by omega)).1 ⟨hstart ▸ hafter, hstart ▸ hd⟩
      exact ⟨_, ⟨rfl, by omega, by omega⟩, _, ⟨rfl, by omega, by omega⟩,
        (day?_first_eq_some_iff (by omega) (by omega)).2 ⟨hstart, hafter, hd⟩⟩
  | yearly =>
    rw [hf] at hafter hspan hzero
    have hstart : Frequency.unitStart .yearly p.rule.weekStart (p.unitOf p.anchor.day + units) =
      day (p.unitOf p.anchor.day + units) 1 1 := (day_first_of_year _).symm
    simp only [word32?, Option.bind_eq_bind, Option.bind_eq_some_iff, within?_eq_some_iff]
    constructor
    · rintro ⟨_, ⟨rfl, -, -⟩, _, ⟨rfl, -, -⟩, h⟩
      obtain ⟨rfl, -, hd⟩ := (day?_first_eq_some_iff (by omega) (by omega)).1 h
      exact ⟨hstart.symm, hd⟩
    · rintro ⟨rfl, hd⟩
      have hyear := (first_of_month_within_iff le_rfl (by omega)).1 ⟨hstart ▸ hafter, hstart ▸ hd⟩
      exact ⟨_, ⟨rfl, by omega, by omega⟩, _, ⟨rfl, by omega, by omega⟩,
        (day?_first_eq_some_iff (by omega) (by omega)).2 ⟨hstart, hafter, hd⟩⟩

theorem checkedStart?_eq_some_iff {d : Int} (hp : firstDay ≤ p.periodStart 0) :
    p.checkedStart? k = some d ↔ d = p.periodStart k ∧ d ≤ lastDay := by
  have hfirst : firstDay = -96465292 := by decide
  have hlast : lastDay = 95026236 := by decide
  have hstep := p.step_pos
  have hnumber := Int.mul_le_mul_of_nonneg_left hstep (Int.natCast_nonneg k)
  rw [Int.mul_one] at hnumber
  have hspan := Frequency.unitStart_add_le p.rule.frequency p.rule.weekStart
    (p.unitOf p.anchor.day) (k * p.step).toNat
  rw [Int.toNat_of_nonneg (by omega)] at hspan
  have hzero := p.periodStart_zero
  unfold checkedStart? word64?
  simp only [Option.bind_eq_bind, Option.bind_eq_some_iff, within?_eq_some_iff]
  constructor
  · rintro ⟨_, ⟨rfl, -, -⟩, _, ⟨rfl, -, -⟩, h⟩
    exact (startAfter?_eq_some_iff hp (by omega)).1 h
  · rintro ⟨rfl, hd⟩
    have hroom : p.rule.frequency.unitStart p.rule.weekStart
        (p.unitOf p.anchor.day + k * p.step) ≤ lastDay := hd
    exact ⟨_, ⟨rfl, by omega, by omega⟩, _, ⟨rfl, by omega, by omega⟩,
      (startAfter?_eq_some_iff hp (by omega)).2 ⟨rfl, hd⟩⟩

private theorem checkedStart?_eq (hp : firstDay ≤ p.periodStart 0) (k : Nat) :
    p.checkedStart? k = p.periodStart? k := by
  ext d
  rw [checkedStart?_eq_some_iff hp]
  unfold periodStart?
  rw [Option.ite_none_right_eq_some, Option.some.injEq]
  constructor
  · rintro ⟨rfl, hd⟩
    exact ⟨hd, rfl⟩
  · rintro ⟨hd, rfl⟩
    exact ⟨rfl, hd⟩

theorem checkedStart?_eq_none_iff (hp : firstDay ≤ p.periodStart 0) :
    p.checkedStart? k = none ↔ lastDay < p.periodStart k := by
  rw [checkedStart?_eq hp]
  unfold periodStart?
  rw [ite_eq_right_iff]
  simp

end Pattern

end Recurrence
