import Recurrence.Proofs.PeriodStarts

set_option autoImplicit false
set_option relaxedAutoImplicit false

/-!
The period of an instant, computed from calendar dates. The units since the anchor are a difference
of days, of the first days of weeks, of numbered months or of years, and a division by the step makes
periods of them. In every unit this rounds down: the period is the last one to begin by the day of
the instant. So earlier periods hold only candidates before the instant, and later ones only
candidates after it.
-/

namespace Recurrence

open Calendar

namespace Calendar

def weekStartOf (weekStart : Weekday) (d : Int) : Except CalendarError Int :=
  let first := d - ((weekdayNumber d : Int) - weekStart.number) % 7
  if firstDay ≤ first then .ok first else .error .outOfRange

/-- The number of the month that holds a day, counted from January of the year 0. -/
def monthIndex (d : Int) : Int := (date d).year * 12 + ((date d).month - 1)

private theorem weekStartOf_eq_ok {weekStart : Weekday} {d : Int}
    (hfirst : firstDay ≤ Frequency.unitStart .weekly weekStart (Frequency.unitOf .weekly weekStart d)) :
    weekStartOf weekStart d =
      .ok (Frequency.unitStart .weekly weekStart (Frequency.unitOf .weekly weekStart d)) := by
  have hsame : d - ((weekdayNumber d : Int) - weekStart.number) % 7 =
      Frequency.unitStart .weekly weekStart (Frequency.unitOf .weekly weekStart d) := by
    unfold weekdayNumber
    simp only [Frequency.unitStart, Frequency.unitOf]
    omega
  unfold weekStartOf
  simp only
  rw [hsame, if_pos hfirst]

private theorem monthIndex_eq (weekStart : Weekday) (d : Int) :
    monthIndex d = Frequency.unitOf .monthly weekStart d := by
  unfold monthIndex
  simp only [Frequency.unitOf]
  omega

end Calendar

namespace Pattern

variable {p : Pattern} {c t : Instant} {d : Int} {j k : Nat}

def unitsTo (p : Pattern) (d : Int) : Except CalendarError Int :=
  match p.rule.frequency with
  | .daily => .ok (d - p.anchor.day)
  | .weekly => do
    let week ← weekStartOf p.rule.weekStart d
    let anchorWeek ← weekStartOf p.rule.weekStart p.anchor.day
    return (week - anchorWeek) / 7
  | .monthly => .ok (monthIndex d - monthIndex p.anchor.day)
  | .yearly => .ok ((date d).year - (date p.anchor.day).year)

/-- The period that holds a day or, if the day lies between two periods, the earlier of them. Days
before the anchor's unit count as being in the first period. -/
def periodHolding (p : Pattern) (d : Int) : Except CalendarError Nat := do
  let units ← p.unitsTo d
  return if units ≤ 0 then 0 else (units.tdiv p.step).toNat

/-- Where the anchor's unit begins within the calendar, so do the later ones, and counting units
from dates agrees with numbering them. -/
private theorem unitsTo_eq_ok (hp : firstDay ≤ p.periodStart 0) (hd : p.anchor.day ≤ d) :
    p.unitsTo d = .ok (p.unitOf d - p.unitOf p.anchor.day) := by
  unfold unitsTo unitOf
  cases hf : p.rule.frequency with
  | daily => rfl
  | weekly =>
    have hbegun := p.periodStart_zero
    unfold unitOf at hbegun
    rw [hf] at hbegun
    have hlater := Frequency.unitOf_mono .weekly p.rule.weekStart hd
    have hanchor := weekStartOf_eq_ok (hbegun ▸ hp)
    -- The week of a later day begins no earlier than the anchor's, so the calendar has it as well.
    have hbegin : firstDay ≤ Frequency.unitStart .weekly p.rule.weekStart
        (Frequency.unitOf .weekly p.rule.weekStart d) := by
      simp only [Frequency.unitStart] at hbegun ⊢
      omega
    have hweek := weekStartOf_eq_ok hbegin
    simp only [hanchor, hweek]
    refine congrArg Except.ok ?_
    simp only [Frequency.unitStart]
    omega
  | monthly =>
    simp only
    rw [monthIndex_eq p.rule.weekStart, monthIndex_eq p.rule.weekStart]
  | yearly => simp only [year_date, Frequency.unitOf]

private theorem periodHolding_eq_ok (hp : firstDay ≤ p.periodStart 0) (hd : p.anchor.day ≤ d) :
    p.periodHolding d = .ok (p.periodOf d) := by
  have hmono : p.unitOf p.anchor.day ≤ p.unitOf d := Frequency.unitOf_mono _ _ hd
  unfold periodHolding periodOf
  rw [unitsTo_eq_ok hp hd]
  refine congrArg Except.ok ?_
  split_ifs with hunits
  · rw [show p.unitOf d - p.unitOf p.anchor.day = 0 by omega, Int.zero_ediv, Int.toNat_zero]
  · rw [Int.tdiv_eq_ediv_of_nonneg (by omega)]

private theorem periodStart_le_iff (hd : p.anchor.day ≤ d) :
    p.periodStart k ≤ d ↔ k ≤ p.periodOf d := by
  have hstart : p.periodStart k ≤ d ↔ p.unit k ≤ p.unitOf d := Frequency.unitStart_le_iff
  rw [hstart]
  constructor
  · intro hk
    by_contra hlater
    have hnext := p.unit_le_iff.2 (not_le.1 hlater)
    have hbefore := p.unitOf_lt_unit_periodOf_succ d
    exact absurd (hnext.trans hk) (not_le.2 hbefore)
  · intro hk
    exact (p.unit_le_iff.2 hk).trans (unit_periodOf_le hd)

private theorem lt_of_lt_periodOf (ht : p.anchor ≤ t) (hj : j < p.periodOf t.day)
    (hc : c ∈ p.candidates j) : c < t := by
  refine Instant.lt_of_day_lt (day_lt_of_unitOf_lt (p := p) ?_)
  rw [unitOf_of_mem_candidates hc]
  exact (p.unit_lt_iff.2 hj).trans_le (unit_periodOf_le (Instant.day_le_of_le ht))

private theorem lt_of_periodOf_lt (hj : p.periodOf t.day < j) (hc : c ∈ p.candidates j) :
    t < c := by
  refine Instant.lt_of_day_lt (day_lt_of_unitOf_lt (p := p) ?_)
  rw [unitOf_of_mem_candidates hc]
  exact (p.unitOf_lt_unit_periodOf_succ t.day).trans_le (p.unit_le_iff.2 hj)

/-- The period of an instant is found, begins by its day and is the last that does: of all periods
that the calendar has, it and the earlier ones begin by that day, the next one later. What earlier
periods yield comes before the instant, what later ones yield after it. -/
theorem periodHolding_is_floor (r : Rule) (anchor t : Instant)
    (hstart : (Pattern.of r anchor).checkStart = .ok ()) (hfrom : anchor ≤ t)
    (hlast : t.day ≤ lastDay) :
    let p : Pattern := .of r anchor
    ∃ k, p.periodHolding t.day = .ok k ∧ p.periodOf t.day = k ∧
      (∃ start, p.checkedStart? k = some start ∧ start ≤ t.day) ∧
      (∀ next, p.checkedStart? (k + 1) = some next → t.day < next) ∧
      (∀ j start, p.checkedStart? j = some start → (start ≤ t.day ↔ j ≤ k)) ∧
      (∀ j < k, ∀ c ∈ p.candidates j, c < t) ∧
      ∀ j, k < j → ∀ c ∈ p.candidates j, t < c := by
  intro p
  have hp : firstDay ≤ p.periodStart 0 := firstDay_le_periodStart hstart
  have hday : p.anchor.day ≤ t.day := Instant.day_le_of_le hfrom
  have hfloor : ∀ j start, p.checkedStart? j = some start →
      (start ≤ t.day ↔ j ≤ p.periodOf t.day) := by
    intro j start hj
    obtain ⟨rfl, -⟩ := (checkedStart?_eq_some_iff hp).1 hj
    exact periodStart_le_iff hday
  have hbegun : p.periodStart (p.periodOf t.day) ≤ t.day := (periodStart_le_iff hday).2 le_rfl
  refine ⟨p.periodOf t.day, periodHolding_eq_ok hp hday, rfl,
    ⟨_, (checkedStart?_eq_some_iff hp).2 ⟨rfl, hbegun.trans hlast⟩, hbegun⟩, ?_, hfloor, ?_, ?_⟩
  · intro next hnext
    exact not_le.1 fun hle => absurd ((hfloor _ _ hnext).1 hle) (Nat.not_succ_le_self _)
  · intro j hj c hc
    exact lt_of_lt_periodOf hfrom hj hc
  · intro j hj c hc
    exact lt_of_periodOf_lt hj hc

/-- Every other week from Friday to Thursday, the first ending with the Ides of March of the year
-44: the 5th of April lies in a week between two periods. Its period is the one that began on the
23rd of March, two weeks before the next. -/
theorem periodHolding_between_weeks :
    let p : Pattern := .of { frequency := .weekly
                             interval := ⟨2, by decide, by decide⟩
                             weekdays := .ofList [.monday]
                             weekStart := .friday }
      (.nine (-44) 3 15)
    let t : Instant := .nine (-44) 4 5
    p.checkStart = .ok () ∧ p.anchor ≤ t ∧ t.day ≤ lastDay ∧ p.periodHolding t.day = .ok 1 ∧
      p.checkedStart? 1 = some (day (-44) 3 23) ∧ p.checkedStart? 2 = some (day (-44) 4 6) ∧
      day (-44) 3 23 ≤ t.day ∧ t.day < day (-44) 4 6 ∧
      (∀ j < 1, ∀ c ∈ p.candidates j, c < t) ∧ ∀ j, 1 < j → ∀ c ∈ p.candidates j, t < c := by
  intro p t
  have hstart : p.checkStart = .ok () := by decide +kernel
  have hfrom : p.anchor ≤ t := by decide +kernel
  have hlast : t.day ≤ lastDay := by decide +kernel
  have hone : p.periodHolding t.day = .ok 1 := by decide +kernel
  have hbegun : p.checkedStart? 1 = some (day (-44) 3 23) := by decide +kernel
  have hnext : p.checkedStart? 2 = some (day (-44) 4 6) := by decide +kernel
  obtain ⟨k, hk, -, -, hbefore, hfloor, hearlier, hlater⟩ :=
    periodHolding_is_floor p.rule p.anchor t hstart hfrom hlast
  obtain rfl : k = 1 := Except.ok.inj (hk.symm.trans hone)
  exact ⟨hstart, hfrom, hlast, hone, hbegun, hnext, (hfloor 1 _ hbegun).2 le_rfl,
    hbefore _ hnext, hearlier, hlater⟩

end Pattern

end Recurrence
