import Recurrence.Exception

set_option autoImplicit false
set_option relaxedAutoImplicit false

/-!
Occurrences: what becomes of the candidates of a segment under its exceptions.
-/

namespace Recurrence

/-- One occurrence of a series as it takes place. -/
structure Occurrence where
  start : Instant
  stop : Instant
  /-- The object of the chain that the occurrence comes from. -/
  segment : ObjectId
  /-- The replacement that the occurrence consists of, if it is an exception. -/
  replacement : Option ObjectId
  /-- The candidate that the occurrence comes from. -/
  candidate : Instant
  deriving DecidableEq, Repr

namespace Occurrence

def isException (o : Occurrence) : Bool := o.replacement.isSome

def duration (o : Occurrence) : Duration := o.stop.since o.start

/-- The order of occurrences: by start, then by candidate. -/
def precedes (a b : Occurrence) : Bool :=
  a.start < b.start || (a.start = b.start && a.candidate ≤ b.candidate)

/-- Occurrences in order. Those that the order does not tell apart keep their places. -/
def sort (occurrences : List Occurrence) : List Occurrence := occurrences.mergeSort precedes

end Occurrence

/-- What turns the candidates of a segment into occurrences. -/
structure Overlay where
  exceptions : ExceptionTable
  duration : Duration
  segment : ObjectId

namespace Overlay

/-- A candidate that takes place as it is. -/
def regular (v : Overlay) (candidate : Instant) : Except CalendarError Occurrence := do
  let stop ← candidate.add v.duration
  return { start := candidate, stop, segment := v.segment, replacement := none, candidate }

/-- A candidate that a replacement stands in for. -/
def replaced (v : Overlay) (candidate : Instant) (r : Replacement) : Occurrence :=
  { start := r.start, stop := r.stop, segment := v.segment, replacement := some r.id, candidate }

/-- The occurrence that a candidate becomes; none if it is cancelled. -/
def apply (v : Overlay) (candidate : Instant) : Except CalendarError (Option Occurrence) :=
  match (v.exceptions.exceptionTo? candidate).map Exception.change with
  | some .cancelled => .ok none
  | some (.replaced r) => .ok (some (v.replaced candidate r))
  | none => some <$> v.regular candidate

def applyAll (v : Overlay) (candidates : List Instant) : Except CalendarError (List Occurrence) :=
  return (← candidates.mapM v.apply).filterMap id

end Overlay

end Recurrence
