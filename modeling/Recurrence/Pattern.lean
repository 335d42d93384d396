import Recurrence.CalendarUnit
import Recurrence.Rule

set_option autoImplicit false
set_option relaxedAutoImplicit false

/-!
A rule set going at an anchor. Time is divided into periods, the `k`-th lying `k` steps of the
rule's unit after the unit that holds the anchor. A period has its days, and every day the same
times of day; together they are the period's candidates.
-/

namespace Recurrence

namespace Rule

/-- The values of a set, or a default if it chooses nothing. -/
def valuesOr (s : SortedSet Octet) (default : Nat) : List Nat :=
  if s.isEmpty then [default] else s.elements.map (·.val.toNat)

/-- The times of day at which a rule recurs: every hour with every minute with every second, as far
as a clock shows them. What the rule leaves open comes from the anchor, and so does the fraction of
the second. -/
def timesOfDay (r : Rule) (anchor : TimeOfDay) : List TimeOfDay :=
  (valuesOr r.hours anchor.hour).flatMap fun hour =>
    (valuesOr r.minutes anchor.minute).flatMap fun minute =>
      (valuesOr r.seconds anchor.secondOfMinute).filterMap fun second =>
        TimeOfDay.ofClock? hour minute second anchor.nano

/-- True if a set is empty or one of its places, counted from either end, is `place`. -/
def choosesPlace {low high : Int} (s : SortedSet (BoundedInt low high)) (length place : Nat) : Bool :=
  s.isEmpty || s.elements.any fun n => Calendar.place? n.val length == some place

/-- True of the dates in the rule's months, on its days of the month and of the year. -/
def choosesDate (r : Rule) (date : Calendar.Date) : Bool :=
  (r.months.isEmpty || r.months.elements.any fun n => n.val == date.month) &&
    choosesPlace r.monthDays (Calendar.monthLength date.year date.month) date.dayOfMonth &&
    choosesPlace r.yearDays (Calendar.yearLength date.year) date.dayOfYear

/-- True of the ISO weeks that the rule chooses. -/
def choosesWeek (r : Rule) (week : Calendar.IsoWeek) : Bool :=
  choosesPlace r.weekNumbers (Calendar.isoWeeks week.year) week.week

/-- True if the date of a day matters to the rule. -/
def hasDateFilters (r : Rule) : Bool :=
  !r.months.isEmpty || !r.monthDays.isEmpty || !r.yearDays.isEmpty

/-- True of the days that pass every set of the rule. -/
def choosesDay (r : Rule) (day : Int) : Bool :=
  (r.weekdays.isEmpty || r.weekdays.elements.contains (Calendar.weekday day)) &&
    (!r.hasDateFilters || r.choosesDate (Calendar.date day)) &&
    (r.weekNumbers.isEmpty || r.choosesWeek (Calendar.isoWeek day))

end Rule

/-- A rule with the instant at which it is set going. Its times of day are kept, since every day
needs them. -/
structure Pattern where
  rule : Rule
  anchor : Instant
  times : List TimeOfDay := rule.timesOfDay anchor.time
  times_eq : times = rule.timesOfDay anchor.time := by rfl

namespace Pattern

def of (rule : Rule) (anchor : Instant) : Pattern := { rule, anchor }

/-- The step from one period to the next, in units. An interval of zero counts as one. -/
def step (p : Pattern) : Int := max 1 p.rule.interval.val

def unitOf (p : Pattern) (day : Int) : Int := p.rule.frequency.unitOf p.rule.weekStart day

def unit (p : Pattern) (k : Nat) : Int := p.unitOf p.anchor.day + k * p.step

def periodStart (p : Pattern) (k : Nat) : Int :=
  p.rule.frequency.unitStart p.rule.weekStart (p.unit k)

/-- The first day of a period, if the calendar has it. -/
def periodStart? (p : Pattern) (k : Nat) : Option Int :=
  if p.periodStart k ≤ Calendar.lastDay then some (p.periodStart k) else none

/-- The last period to begin by a day, or the first period for days before the anchor's unit. -/
def periodOf (p : Pattern) (day : Int) : Nat :=
  ((p.unitOf day - p.unitOf p.anchor.day) / p.step).toNat

/-- The number of periods that begin by a day. -/
def periodsBy (p : Pattern) (day : Int) : Nat :=
  ((p.unitOf day - p.unitOf p.anchor.day) / p.step + 1).toNat

/-- Up to `count` days in a row. The calendar's last day is never among them. -/
def run (start : Int) (count : Nat) : List Int :=
  (List.range (min count (Calendar.lastDay - start).toNat)).map fun (i : Nat) => start + (i : Int)

/-- A day by itself, if the calendar has it. -/
def single (day : Int) : List Int := if day ≤ Calendar.lastDay then [day] else []

/-- The days of a period before the rule's sets are asked: all days of the unit if the rule chooses
among them, otherwise the day that corresponds to the anchor's, moved to the end of a month that is
too short for it. -/
def unitDays (p : Pattern) (k : Nat) : List Int :=
  let start := p.periodStart k
  match p.rule.frequency with
  | .daily => [start]
  | .weekly =>
    if p.rule.weekdays.isEmpty then single (start + (p.anchor.day - p.periodStart 0))
    else run start 7
  | .monthly =>
    let year := p.unit k / 12
    let month := (p.unit k % 12).toNat + 1
    if p.rule.hasDayFilters then run start (Calendar.monthLength year month)
    else [Calendar.clampedDay year month (Calendar.date p.anchor.day).dayOfMonth]
  | .yearly =>
    let year := p.unit k
    let anchor := Calendar.date p.anchor.day
    if p.rule.hasDayFilters then run start (Calendar.yearLength year)
    else if p.rule.months.isEmpty then [Calendar.clampedDay year anchor.month anchor.dayOfMonth]
    else (p.rule.months.elements.filter fun n => 1 ≤ n.val ∧ n.val ≤ 12).map fun n =>
      Calendar.clampedDay year n.val.toNat anchor.dayOfMonth

/-- The days of a period, in order. A period that begins beyond the calendar has none. -/
def days (p : Pattern) (k : Nat) : List Int :=
  if p.periodStart k ≤ Calendar.lastDay then (p.unitDays k).filter p.rule.choosesDay else []

/-- The candidates of a period, in order: its days at the times of day, from the anchor on. -/
def candidates (p : Pattern) (k : Nat) : List Instant :=
  ((p.days k).flatMap fun day => p.times.map fun time => ⟨day, time⟩).filter fun c => p.anchor ≤ c

/-- The check that the first period begins within the calendar. Only a week can begin before it. -/
def checkStart (p : Pattern) : Except CalendarError Unit :=
  if Calendar.firstDay ≤ p.periodStart 0 then .ok () else .error .outOfRange

end Pattern

end Recurrence
