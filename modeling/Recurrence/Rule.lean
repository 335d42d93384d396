import Recurrence.BoundedInt
import Recurrence.Frequency
import Recurrence.Instant
import Recurrence.Weekday

set_option autoImplicit false
set_option relaxedAutoImplicit false

/-!
Recurrence rules: a frequency and an interval, bounds on the number and the time of occurrences,
and sets that choose among the days and the times of day. An empty set chooses everything.
-/

namespace Recurrence

/-- A recurrence rule. Any values of the fields make a rule; `Rule.fault?` tells the sensible
ones. -/
structure Rule where
  frequency : Frequency
  /-- The step, in units of the frequency. -/
  interval : Word32 := .one
  /-- The number of occurrences, cancelled ones included. -/
  count : Option Word32 := none
  /-- The last instant at which an occurrence may start. -/
  ends : Option Instant := none
  weekdays : SortedSet Weekday := ∅
  /-- Days of the month, negative ones counted back from its end. -/
  monthDays : SortedSet SignedOctet := ∅
  months : SortedSet Octet := ∅
  /-- Days of the year, negative ones counted back from its end. -/
  yearDays : SortedSet SignedWord16 := ∅
  /-- ISO weeks, negative ones counted back from the last week of the ISO year. -/
  weekNumbers : SortedSet SignedOctet := ∅
  hours : SortedSet Octet := ∅
  minutes : SortedSet Octet := ∅
  seconds : SortedSet Octet := ∅
  /-- The day on which weeks begin, when weeks are counted. -/
  weekStart : Weekday := .monday
  deriving DecidableEq

namespace Rule

/-- True if a set chooses days by weekday, day of the month, day of the year or ISO week. -/
def hasDayFilters (r : Rule) : Bool :=
  !r.weekdays.isEmpty || !r.monthDays.isEmpty || !r.yearDays.isEmpty || !r.weekNumbers.isEmpty

end Rule

end Recurrence
