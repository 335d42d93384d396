import Recurrence.Segment
import Recurrence.Trail

set_option autoImplicit false
set_option relaxedAutoImplicit false

/-!
Chains of segments, and the occurrences of a whole chain.
-/

namespace Recurrence

/-- The segments of a series, which point to one another by their places. The first is the root. -/
structure Chain where
  segments : List Segment

namespace Chain

def empty : Chain := ⟨[]⟩

def isEmpty (c : Chain) : Bool := c.segments.isEmpty

def places (c : Chain) : List Nat := List.range c.segments.length

def root? (c : Chain) : Option Nat := if c.isEmpty then none else some 0

/-- The place that the segment at a place points to. -/
def next? (c : Chain) (place : Nat) : Option Nat := c.segments[place]?.bind Segment.next

/-- True if the way from the root comes to a segment for a second time. -/
def hasCycle (c : Chain) : Bool := leadsBack c.next? c.places c.places c.root?

/-- The segments on the way from the root, each once. -/
def inOrder (c : Chain) : List Segment :=
  (trail c.next? c.places c.root?).filterMap fun place => c.segments[place]?

/-- The occurrences of a chain that start within a window, in order, at most `max` of them. A
replacement may take place after the next segment begins, so the choice is made from the
occurrences of all segments. -/
def walk (c : Chain) (cap : Nat) (start stop : Instant) (max : Nat) :
    Except CalendarError (List Occurrence) :=
  if max = 0 then return []
  else do
    let found ← c.inOrder.mapM fun s => s.resolve cap start stop max
    return (Occurrence.sort found.flatten).take max

end Chain

end Recurrence
