import Recurrence.ObjectId
import Recurrence.Rule
import Recurrence.Series

set_option autoImplicit false
set_option relaxedAutoImplicit false

/-!
The objects that recur.
-/

namespace Recurrence

/-- What an object is, and what it says beside its times. -/
inductive Details
  | event (title : String) (description : Option String)
  /-- A span in which nothing can be booked. -/
  | blocked (reason : Option String)
  /-- A span in which bookings are taken. -/
  | available
  deriving DecidableEq, Repr

/-- An object with its first occurrence, and the rule by which it recurs, if any. -/
structure Entity where
  id : ObjectId
  organization : ObjectId
  details : Details
  start : Instant
  stop : Instant
  rule : Option Rule
  deriving DecidableEq

namespace Entity

/-- How long each occurrence lasts that is not replaced. -/
def duration (e : Entity) : Duration := e.stop.since e.start

def isRecurring (e : Entity) : Bool := e.rule.isSome

def series (e : Entity) : Series := ⟨e.rule, e.start⟩

def withRule (e : Entity) (rule : Option Rule) : Entity := { e with rule }

end Entity

end Recurrence
