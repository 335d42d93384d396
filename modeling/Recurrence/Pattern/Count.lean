import Recurrence.Pattern

set_option autoImplicit false
set_option relaxedAutoImplicit false

/-!
Counting the candidates of a pattern without its bounds, and finding the candidate with a given
number. Where all periods but the first are known to be of one size, both are arithmetic.
-/

namespace Recurrence.Pattern

/-- The number of days in every period, if the rule fixes it. -/
def daysPerPeriod? (p : Pattern) : Option Nat :=
  let r := p.rule
  match r.frequency with
  | .daily | .monthly => if !r.hasDayFilters && r.months.isEmpty then some 1 else none
  | .weekly =>
    if r.months.isEmpty && r.monthDays.isEmpty && r.yearDays.isEmpty && r.weekNumbers.isEmpty then
      some (max r.weekdays.size 1)
    else none
  | .yearly =>
    if r.hasDayFilters then none
    else if r.months.isEmpty then some 1
    else some (r.months.elements.filter fun n => 1 ≤ n.val ∧ n.val ≤ 12).length

/-- The number of candidates in every period but the first, if the rule fixes it. -/
def cardinality? (p : Pattern) : Option Nat := p.daysPerPeriod?.map (· * p.times.length)

/-- Add up the candidates of a number of periods from the `k`-th on, and stop once the total
exceeds the limit. -/
def tally (p : Pattern) (limit : Option Nat) : Nat → Nat → Nat → Nat
  | 0, _, total => total
  | periods + 1, k, total =>
    if limit.any (· < total) then total
    else tally p limit periods (k + 1) (total + (p.candidates k).length)

/-- The number of candidates in the periods before the given one. With a limit, the number may be
of fewer periods if that exceeds the limit already. -/
def countInPeriods (p : Pattern) (limit : Option Nat) : Nat → Nat
  | 0 => 0
  | later + 1 =>
    let first := (p.candidates 0).length
    match p.cardinality? with
    | some size => first + later * size
    | none => p.tally limit later 1 first

/-- The greatest number that a count holds. -/
def countLimit : Nat := 4294967295

/-- The number of candidates before an instant, whatever the rule's bounds. -/
def countBefore (p : Pattern) (t : Instant) : Nat :=
  if t ≤ p.anchor then 0
  else
    let period := p.periodOf t.day
    let current := ((p.candidates period).filter (· < t)).length
    min (p.countInPeriods none period + current) countLimit

/-- Look for the `n`-th candidate, counted from zero, in a number of periods from the `k`-th on. -/
def seek (p : Pattern) : Nat → Nat → Nat → Option Instant
  | 0, _, _ => none
  | periods + 1, k, n =>
    let here := p.candidates k
    if n < here.length then here[n]? else seek p periods (k + 1) (n - here.length)

/-- The `n`-th candidate, counted from one, looked for no further than the period `upper`. -/
def nth? (p : Pattern) (n upper : Nat) : Option Instant :=
  if n = 0 then none
  else
    let first := p.candidates 0
    if n ≤ first.length then first[n - 1]?
    else
      let rest := n - first.length - 1
      match p.cardinality? with
      | some (size + 1) => (p.candidates (1 + rest / (size + 1)))[rest % (size + 1)]?
      | _ => p.seek upper 1 rest

def lastIn (p : Pattern) (t : Instant) (k : Nat) : Option Instant :=
  ((p.candidates k).filter (· < t)).getLast?

/-- The last candidate before an instant in the periods up to the given one, with its period. -/
def lastUpTo (p : Pattern) (t : Instant) : Nat → Option (Nat × Instant)
  | 0 => (p.lastIn t 0).map fun c => (0, c)
  | k + 1 => match p.lastIn t (k + 1) with
    | some c => some (k + 1, c)
    | none => p.lastUpTo t k

end Recurrence.Pattern
