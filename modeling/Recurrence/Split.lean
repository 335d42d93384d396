import Recurrence.Rule.Text
import Recurrence.Series

set_option autoImplicit false
set_option relaxedAutoImplicit false

/-!
Splitting a rule at one of its candidates into a rule that ends before it and a rule that goes on
from it.
-/

namespace Recurrence

/-- Why a rule cannot be split. -/
inductive SplitError
  | notAnOccurrence (date : Instant) (rule : Rule)
  | calendar (error : CalendarError)

namespace SplitError

/-- The message for a split that cannot be made; arithmetic that leaves the calendar has none. -/
def message? : SplitError → Option String
  | notAnOccurrence date rule =>
    some ("Invalid split date: " ++ date.wording ++ " is not an occurrence of " ++ rule.text)
  | calendar _ => none

end SplitError

structure SplitRules where
  /-- The rule up to the last candidate before the split; none if the split is at the first. -/
  truncated : Option Rule
  /-- The rule from the split on, to be set going there; none if its count is used up. -/
  continuation : Option Rule

namespace Rule

/-- What is left of a rule once a number of its candidates has been used. -/
def afterUsing (r : Rule) (used : Nat) : Option Rule :=
  match r.count with
  | none => some r
  | some count =>
    if 0 < count.val - used then
      (BoundedInt.ofInt? (count.val - used)).map fun left => { r with count := some left }
    else none

/-- The rule that ends with the given candidate. -/
def endingAt (r : Rule) (last : Instant) : Rule := { r with ends := some last }

/-- A computation that fails only by leaving the calendar, as a step of a split. -/
def splitStep {α : Type} (result : Except CalendarError α) : Except SplitError α :=
  result.mapError SplitError.calendar

/-- The two rules that a rule, set going at an anchor, becomes when it is split at a date. -/
def splitAt (r : Rule) (anchor date : Instant) : Except SplitError SplitRules := do
  let series : Series := ⟨some r, anchor⟩
  if ← splitStep (series.isCandidate date) then
    let last ← splitStep (series.lastBefore? date)
    let used ← splitStep (series.countBefore date)
    return { truncated := last.map r.endingAt, continuation := r.afterUsing used }
  else throw (.notAnOccurrence date r)

end Rule

end Recurrence
