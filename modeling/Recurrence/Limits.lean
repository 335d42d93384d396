import Recurrence.Instant

set_option autoImplicit false
set_option relaxedAutoImplicit false

/-!
The limits under which queries run.
-/

namespace Recurrence

structure Limits where
  /-- The number of occurrences that a query returns at most, if it does not say. -/
  maxOccurrences : Nat := 1000
  /-- The number of candidates that one expansion yields at most. -/
  safetyCap : Nat := 1000
  /-- How many days ahead the next occurrence is looked for. -/
  horizonDays : Nat := 3660
  deriving DecidableEq, Repr

/-- The limit that is zero. -/
inductive LimitFault
  | maxOccurrences | safetyCap | horizonDays
  deriving DecidableEq, Repr

namespace LimitFault

def message : LimitFault → String
  | maxOccurrences => "Configuration error: engine.default_max_occurrences must be positive"
  | safetyCap => "Configuration error: engine.safety_cap must be positive"
  | horizonDays => "Configuration error: engine.next_occurrence_horizon_days must be positive"

end LimitFault

namespace Limits

/-- The first limit that is zero. -/
def fault? (l : Limits) : Option LimitFault :=
  if l.maxOccurrences = 0 then some .maxOccurrences
  else if l.safetyCap = 0 then some .safetyCap
  else if l.horizonDays = 0 then some .horizonDays
  else none

def horizon (l : Limits) : Duration := .ofDays l.horizonDays

end Limits

end Recurrence
