import Recurrence.Pattern.Count

set_option autoImplicit false
set_option relaxedAutoImplicit false

/-!
The raw candidates of a series: those of its pattern, cut off by the rule's count and end. A series
without a rule has one candidate, its anchor. Questions about a window are answered from the
window's own periods; earlier ones are at most counted.
-/

namespace Recurrence

/-- An anchor, and the rule by which it recurs, if any. -/
structure Series where
  rule : Option Rule
  anchor : Instant

/-- What an expansion yields. -/
structure Expansion where
  /-- The candidates counted before the first period that was looked at. -/
  alreadyCounted : Nat
  candidates : List Instant

namespace Pattern

/-- The last instant at which a candidate may be found: the window's, or the rule's if earlier. -/
def bound (p : Pattern) (stop : Instant) : Instant :=
  match p.rule.ends with
  | some ends => stop.earliest ends
  | none => stop

/-- The first elements of a list, or all of it if there is no limit. -/
def upTo {α : Type} (limit : Option Nat) (xs : List α) : List α :=
  match limit with
  | some n => xs.take n
  | none => xs

/-- Of a list of candidates those that still count, of these the ones from `start` to `bound`, and
of these as many as there is room for. -/
def choose (start bound : Instant) (left : Option Nat) (room : Nat) (cs : List Instant) :
    List Instant :=
  ((upTo left cs).filter fun c => start ≤ c ∧ c ≤ bound).take room

/-- Choose among the candidates of a number of periods from the `k`-th on, and put the chosen ones
before those already found, the last first. Nothing is looked at any more once the count is used up
or there is no room left. -/
def gather (p : Pattern) (start bound : Instant) :
    Nat → Nat → Option Nat → Nat → List Instant → List Instant
  | 0, _, _, _, found => found
  | periods + 1, k, left, room, found =>
    if room = 0 ∨ left = some 0 then found
    else
      let here := p.candidates k
      let hits := choose start bound left room here
      gather p start bound periods (k + 1) (left.map (· - here.length)) (room - hits.length)
        (hits.reverse ++ found)

/-- The period in which an expansion begins: the one that holds the window's start, if that lies
after the anchor. -/
def firstPeriod (p : Pattern) (start : Instant) : Nat :=
  if p.anchor < start then p.periodOf start.day else 0

/-- The candidates in a window, at most `cap` of them. -/
def expand (p : Pattern) (cap : Nat) (start stop : Instant) : Expansion :=
  let period := p.firstPeriod start
  let count := p.rule.count.map (·.val.toNat)
  let alreadyCounted := if count.isSome then p.countInPeriods count period else 0
  let bound := p.bound stop
  let periods := p.periodsBy bound.day - period
  { alreadyCounted
    candidates :=
      (p.gather start bound periods period (count.map (· - alreadyCounted)) cap []).reverse }

/-- The last candidate before an instant, within the rule's bounds. -/
def lastBefore (p : Pattern) (t : Instant) : Option Instant :=
  match p.lastUpTo t (p.periodOf t.day) with
  | none => none
  | some (period, c) => match p.rule.count with
    | some count => if count.val ≤ p.countBefore c then p.nth? count.val.toNat period else some c
    | none => some c

end Pattern

namespace Series

/-- The candidates of a series in a window, at most `cap` of them. -/
def expand (s : Series) (cap : Nat) (start stop : Instant) : Except CalendarError Expansion :=
  match s.rule with
  | none =>
    .ok
      { alreadyCounted := 0
        candidates := [s.anchor].filter fun c => start ≤ c ∧ c ≤ stop ∧ 0 < cap }
  | some rule => do
    let p := Pattern.of rule s.anchor
    p.checkStart
    return p.expand cap start stop

/-- The first candidate of a series in a window; none if the cap is zero. -/
def first? (s : Series) (cap : Nat) (start stop : Instant) :
    Except CalendarError (Option Instant) :=
  return (← s.expand (min cap 1) start stop).candidates.head?

def isCandidate (s : Series) (t : Instant) : Except CalendarError Bool :=
  return (← s.first? 1 t t) = some t

/-- The candidate in the second that holds an instant. The second is searched from its beginning
to the last nanosecond before the next. -/
def candidateInSecond? (s : Series) (cap : Nat) (t : Instant) :
    Except CalendarError (Option Instant) := do
  let second := t.truncate
  let last ← (← second.add (.ofSeconds 1)).add (.neg .nanosecond)
  s.first? cap second last

/-- The number of candidates before an instant, whatever the rule's bounds. -/
def countBefore (s : Series) (t : Instant) : Except CalendarError Nat :=
  match s.rule with
  | none => .ok (if s.anchor < t then 1 else 0)
  | some rule =>
    if t ≤ s.anchor then .ok 0
    else do
      let p := Pattern.of rule s.anchor
      p.checkStart
      return p.countBefore t

/-- The instant before which a rule's candidates are looked for: just behind the rule's end, if
that is earlier. -/
def searchBound (rule : Rule) (t : Instant) : Except CalendarError Instant :=
  match rule.ends with
  | some ends => if ends < t then ends.add .nanosecond else .ok t
  | none => .ok t

/-- The last candidate of a series before an instant. -/
def lastBefore? (s : Series) (t : Instant) : Except CalendarError (Option Instant) :=
  match s.rule with
  | none => .ok (if s.anchor < t then some s.anchor else none)
  | some rule => do
    let bound ← searchBound rule t
    if bound ≤ s.anchor then
      return none
    else
      let p := Pattern.of rule s.anchor
      p.checkStart
      return p.lastBefore bound

end Series

end Recurrence
