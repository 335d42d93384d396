import Recurrence.Occurrence
import Recurrence.Series

set_option autoImplicit false
set_option relaxedAutoImplicit false

/-!
Segments: the parts of a series that one rule governs. A candidate belongs to a segment if it lies
within its boundaries. A replacement is found by where it takes place, its candidate by where it
would have taken place, so a segment's occurrences in a window come from two sides: the candidates
in the window, and the replacements that were moved into it.
-/

namespace Recurrence

/-- One object of a chain, with the boundaries of its part in it. -/
structure Segment where
  id : ObjectId
  series : Series
  duration : Duration
  startBoundary : Instant
  /-- The first instant that no longer belongs to the segment. -/
  endBoundary : Option Instant
  exceptions : ExceptionTable
  /-- The place of the segment that continues this one. -/
  next : Option Nat

namespace Segment

/-- True of the instants within the segment's boundaries. -/
def contains (s : Segment) (t : Instant) : Bool :=
  s.startBoundary ≤ t && s.endBoundary.all fun stop => t < stop

/-- What turns the segment's candidates into occurrences. -/
def overlay (s : Segment) : Overlay := ⟨s.exceptions, s.duration, s.id⟩

/-- The last instant at which the segment's candidates are looked for: the end of the window, or
the nanosecond before the segment's end. -/
def lastInstant (s : Segment) (stop : Instant) : Except CalendarError Instant :=
  match s.endBoundary with
  | some boundary => return stop.earliest (← boundary.add (.neg .nanosecond))
  | none => .ok stop

/-- The occurrences that the candidates between two instants become. -/
def occurrencesOf (s : Segment) (cap : Nat) (first last : Instant) :
    Except CalendarError (List Occurrence) :=
  if first ≤ last then do
    let expansion ← s.series.expand cap first last
    s.overlay.applyAll expansion.candidates
  else return []

/-- The occurrence that an exception moves into the window from a candidate of the segment that
lies outside the span `first` to `last`. -/
def movedIn? (s : Segment) (cap : Nat) (start stop first last : Instant) (e : Exception) :
    Except CalendarError (Option Occurrence) :=
  match e.change with
  | .cancelled => return none
  | .replaced r =>
    if start ≤ r.start ∧ r.start ≤ stop then do
      match ← s.series.candidateInSecond? cap e.date with
      | some candidate =>
        if (first ≤ candidate ∧ candidate ≤ last) ∨ !s.contains candidate then return none
        else return some (s.overlay.replaced candidate r)
      | none => return none
    else return none

/-- The occurrences of a segment that start within a window, in order, at most `max` of them. At
most `cap` candidates are looked at. -/
def resolve (s : Segment) (cap : Nat) (start stop : Instant) (max : Nat) :
    Except CalendarError (List Occurrence) :=
  if max = 0 ∨ stop < start then return []
  else do
    let first := start.latest s.startBoundary
    let last ← s.lastInstant stop
    let regular ← s.occurrencesOf cap first last
    let inWindow := regular.filter fun o => start ≤ o.start ∧ o.start ≤ stop
    let moved ← s.exceptions.values.mapM (s.movedIn? cap start stop first last)
    return (Occurrence.sort (inWindow ++ moved.filterMap fun o => o)).take max

end Segment

end Recurrence
