import Recurrence.Instant
import Recurrence.ObjectId
import Recurrence.Table

set_option autoImplicit false
set_option relaxedAutoImplicit false

/-!
Exceptions: single candidates of an object that are cancelled or replaced. A candidate is named by
its date to the second, and each second has at most one exception.
-/

namespace Recurrence

/-- The object that takes the place of one occurrence. -/
structure Replacement where
  id : ObjectId
  start : Instant
  stop : Instant
  deriving DecidableEq, Repr

/-- What happens to a candidate. -/
inductive Change
  /-- It does not take place, though it still counts. -/
  | cancelled
  | replaced (replacement : Replacement)
  deriving DecidableEq, Repr

/-- An exception to one candidate of an object. -/
structure Exception where
  parent : ObjectId
  /-- The start that the candidate had. -/
  date : Instant
  change : Change
  deriving DecidableEq, Repr

namespace Exception

def toSecond (e : Exception) : Exception := { e with date := e.date.truncate }

/-- The replacement, unless the candidate is cancelled. -/
def replacement? (e : Exception) : Option Replacement :=
  match e.change with
  | .cancelled => none
  | .replaced r => some r

end Exception

/-- The exceptions of one object, by the second of their date. -/
abbrev ExceptionTable := Table Instant Exception

namespace ExceptionTable

/-- The table with an exception recorded, in place of any other of the same second. -/
def record (t : ExceptionTable) (e : Exception) : ExceptionTable := t.insert e.date.truncate e

/-- The table of a list of exceptions; of two for the same second the later one holds. -/
def ofList (exceptions : List Exception) : ExceptionTable := exceptions.foldl record ∅

def exceptionTo? (t : ExceptionTable) (candidate : Instant) : Option Exception :=
  t.find? candidate.truncate

def inOrder (t : ExceptionTable) : List (Instant × Exception) :=
  t.entries.mergeSort fun a b => a.1 ≤ b.1

end ExceptionTable

end Recurrence
