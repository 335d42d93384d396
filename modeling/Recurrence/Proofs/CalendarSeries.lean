import Recurrence.CalendarUnit
import Recurrence.Proofs.InnerInstants
import Recurrence.Series

set_option autoImplicit false
set_option relaxedAutoImplicit false

/-!
The series that a rule describes, said by the calendar alone: which days and which times of day the
rule admits, which units it visits, and which of the admitted instants its bounds leave. Nothing
here speaks of periods that are enumerated, of windows or of counters.
-/

namespace Recurrence

open Calendar

namespace Calendar

/-- The number of weeks of an ISO year. The 28th of December always lies in the last one. -/
def lastIsoWeek (year : Int) : Nat := (isoWeek (day year 12 28)).week

end Calendar

namespace Rule

/-- A set names a place among `length` places by counting from the first place or from the last.
The set without members names every place. -/
def Names {low high : Int} (s : SortedSet (BoundedInt low high)) (length place : Nat) : Prop :=
  s = ∅ ∨ ∃ n ∈ s, n.val = place ∨ n.val = place - (length + 1 : Int)

structure AdmitsDay (r : Rule) (d : Int) : Prop where
  month : r.months = ∅ ∨ ∃ n ∈ r.months, n.val = (date d).month
  weekday : r.weekdays = ∅ ∨ weekday d ∈ r.weekdays
  monthDay :
    Names r.monthDays (monthLength (date d).year (date d).month) (date d).dayOfMonth
  yearDay : Names r.yearDays (yearLength (date d).year) (date d).dayOfYear
  week : Names r.weekNumbers (lastIsoWeek (isoWeek d).year) (isoWeek d).week

/-- A day has the place of the anchor's day in its month, or is the last day of a month that is too
short for it. -/
def OnAnchorsDay (a d : Int) : Prop :=
  (date d).dayOfMonth = min (date a).dayOfMonth (monthLength (date d).year (date d).month)

/-- A rule that does not choose among the days of its unit takes the one that corresponds to the
anchor's day. -/
def DefaultDay (r : Rule) (a d : Int) : Prop :=
  match r.frequency with
  | .daily => True
  | .weekly => r.weekdays = ∅ → weekday d = weekday a
  | .monthly => r.hasDayFilters = false → OnAnchorsDay a d
  | .yearly => r.hasDayFilters = false →
      OnAnchorsDay a d ∧ (r.months = ∅ → (date d).month = (date a).month)

/-- A part of a time of day is in its set, or is that of the anchor if the set has no members. -/
def AdmitsPart (s : SortedSet Octet) (ofAnchor part : Nat) : Prop :=
  if s = ∅ then part = ofAnchor else ∃ n ∈ s, n.val = part

structure AdmitsTime (r : Rule) (a t : TimeOfDay) : Prop where
  hour : AdmitsPart r.hours a.hour t.hour
  minute : AdmitsPart r.minutes a.minute t.minute
  second : AdmitsPart r.seconds a.secondOfMinute t.secondOfMinute
  nano : t.nano = a.nano

/-- A rule that is set going at an anchor recurs at an instant, whatever its bounds. -/
structure Recurs (r : Rule) (anchor c : Instant) : Prop where
  from_anchor : anchor ≤ c
  unit : ∃ k : Nat, r.frequency.unitOf r.weekStart c.day =
    r.frequency.unitOf r.weekStart anchor.day + k * max r.interval.val 1
  default : r.DefaultDay anchor.day c.day
  day : r.AdmitsDay c.day
  time : r.AdmitsTime anchor.time c.time

/-- The series of a rule: where it recurs, up to its end, and as often as its count says. -/
structure InSeries (r : Rule) (anchor c : Instant) : Prop where
  recurs : r.Recurs anchor c
  ends : ∀ t, r.ends = some t → c ≤ t
  count : ∀ n, r.count = some n → {b | r.Recurs anchor b ∧ b < c}.encard < n.val.toNat

theorem finite_recurs_lt (r : Rule) (anchor c : Instant) :
    {b | r.Recurs anchor b ∧ b < c}.Finite :=
  (Instant.finite_between anchor c).subset fun _ hb => ⟨hb.1.from_anchor, hb.2⟩

end Rule

/-- The instants of a series. Without a rule there is only the anchor. -/
def Series.Yields (s : Series) (c : Instant) : Prop :=
  match s.rule with
  | none => c = s.anchor
  | some r => r.InSeries s.anchor c

theorem Series.Yields.anchor_le {s : Series} {c : Instant} (hc : s.Yields c) : s.anchor ≤ c := by
  obtain ⟨_ | r, anchor⟩ := s
  · exact le_of_eq (Eq.symm hc)
  · exact hc.recurs.from_anchor

end Recurrence
