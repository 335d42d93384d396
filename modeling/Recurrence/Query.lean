import Recurrence.Limits
import Recurrence.Store
import Recurrence.Window

set_option autoImplicit false
set_option relaxedAutoImplicit false

/-!
Questions about the occurrences of a stored series.
-/

namespace Recurrence.Store

/-- The occurrences of the series of an object that start between two instants, over its whole
chain and in order. -/
def occurrences (s : Store) (limits : Limits) (root : ObjectId) (start stop : Instant)
    (max : Option Nat) : Except CalendarError (List Occurrence) :=
  if stop < start then return []
  else (s.chain root).walk limits.safetyCap start stop (max.getD limits.maxOccurrences)

/-- The occurrences of the series of an object that start in a window. -/
def occurrencesIn (s : Store) (limits : Limits) (root : ObjectId) (window : Window)
    (max : Option Nat) : Except CalendarError (List Occurrence) :=
  s.occurrences limits root window.start window.stop max

/-- The first occurrence that starts after an instant, if there is one before the horizon. The
horizon ends with the calendar. -/
def nextOccurrence? (s : Store) (limits : Limits) (root : ObjectId) (after : Instant) :
    Except CalendarError (Option Occurrence) :=
  match after.add .nanosecond with
  | .error _ => return none
  | .ok start => do
    let stop := match after.add limits.horizon with
      | .ok stop => stop
      | .error _ => .last
    return (← (s.chain root).walk limits.safetyCap start stop 1).head?

end Recurrence.Store
