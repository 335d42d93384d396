import Recurrence.Series

set_option autoImplicit false
set_option relaxedAutoImplicit false

/-!
Patterns that cannot be told apart. What an expansion, a count or a search reads of a pattern is its
periods with their candidates, the size of periods, and the bounds; patterns that agree in these
answer alike.
-/

namespace Recurrence

namespace Pattern

/-- Two patterns have the same periods with the same candidates, and the same bounds. Nothing else
of a pattern is read by an expansion, a count or a search. -/
structure Alike (p q : Pattern) : Prop where
  anchor : p.anchor = q.anchor
  frequency : p.rule.frequency = q.rule.frequency
  weekStart : p.rule.weekStart = q.rule.weekStart
  step : p.step = q.step
  count : p.rule.count = q.rule.count
  ends : p.rule.ends = q.rule.ends
  cardinality : p.cardinality? = q.cardinality?
  candidates : ∀ k, p.candidates k = q.candidates k

namespace Alike

variable {p q : Pattern}

private theorem unitOf_eq (h : p.Alike q) (d : Int) : p.unitOf d = q.unitOf d := by
  unfold Pattern.unitOf
  rw [h.frequency, h.weekStart]

private theorem periodStart_eq (h : p.Alike q) (k : Nat) : p.periodStart k = q.periodStart k := by
  unfold Pattern.periodStart Pattern.unit
  rw [h.unitOf_eq, h.frequency, h.weekStart, h.anchor, h.step]

theorem checkStart_eq (h : p.Alike q) : p.checkStart = q.checkStart := by
  unfold Pattern.checkStart
  rw [h.periodStart_eq]

private theorem periodOf_eq (h : p.Alike q) (d : Int) : p.periodOf d = q.periodOf d := by
  unfold Pattern.periodOf
  rw [h.unitOf_eq, h.unitOf_eq, h.anchor, h.step]

private theorem periodsBy_eq (h : p.Alike q) (d : Int) : p.periodsBy d = q.periodsBy d := by
  unfold Pattern.periodsBy
  rw [h.unitOf_eq, h.unitOf_eq, h.anchor, h.step]

private theorem bound_eq (h : p.Alike q) (stop : Instant) : p.bound stop = q.bound stop := by
  unfold Pattern.bound
  rw [h.ends]

private theorem firstPeriod_eq (h : p.Alike q) (start : Instant) :
    p.firstPeriod start = q.firstPeriod start := by
  unfold Pattern.firstPeriod
  rw [h.anchor, h.periodOf_eq]

private theorem tally_eq (h : p.Alike q) (limit : Option Nat) (n k total : Nat) :
    p.tally limit n k total = q.tally limit n k total := by
  induction n generalizing k total with
  | zero => rfl
  | succ n ih =>
    unfold Pattern.tally
    rw [h.candidates, ih]

private theorem countInPeriods_eq (h : p.Alike q) (limit : Option Nat) (k : Nat) :
    p.countInPeriods limit k = q.countInPeriods limit k := by
  cases k with
  | zero => rfl
  | succ later =>
    unfold Pattern.countInPeriods
    simp only [h.candidates, h.cardinality, h.tally_eq]

theorem countBefore_eq (h : p.Alike q) (t : Instant) : p.countBefore t = q.countBefore t := by
  unfold Pattern.countBefore
  simp only [h.anchor, h.periodOf_eq, h.candidates, h.countInPeriods_eq]

private theorem gather_eq (h : p.Alike q) (start bound : Instant) (n k : Nat) (left : Option Nat)
    (room : Nat) (found : List Instant) :
    p.gather start bound n k left room found = q.gather start bound n k left room found := by
  induction n generalizing k left room found with
  | zero => rfl
  | succ n ih =>
    unfold Pattern.gather
    simp only [h.candidates, ih]

theorem expand_eq (h : p.Alike q) (cap : Nat) (start stop : Instant) :
    p.expand cap start stop = q.expand cap start stop := by
  unfold Pattern.expand
  simp only [h.firstPeriod_eq, h.count, h.countInPeriods_eq, h.bound_eq, h.periodsBy_eq, h.gather_eq]

private theorem seek_eq (h : p.Alike q) (periods k n : Nat) :
    p.seek periods k n = q.seek periods k n := by
  induction periods generalizing k n with
  | zero => rfl
  | succ periods ih =>
    unfold Pattern.seek
    simp only [h.candidates, ih]

private theorem nth?_eq (h : p.Alike q) (n upper : Nat) : p.nth? n upper = q.nth? n upper := by
  unfold Pattern.nth?
  simp only [h.candidates, h.cardinality, h.seek_eq]

private theorem lastIn_eq (h : p.Alike q) (t : Instant) (k : Nat) :
    p.lastIn t k = q.lastIn t k := by
  unfold Pattern.lastIn
  rw [h.candidates]

private theorem lastUpTo_eq (h : p.Alike q) (t : Instant) (k : Nat) :
    p.lastUpTo t k = q.lastUpTo t k := by
  induction k with
  | zero => simp only [Pattern.lastUpTo, h.lastIn_eq]
  | succ k ih => simp only [Pattern.lastUpTo, h.lastIn_eq, ih]

theorem lastBefore_eq (h : p.Alike q) (t : Instant) : p.lastBefore t = q.lastBefore t := by
  unfold Pattern.lastBefore
  simp only [h.lastUpTo_eq, h.periodOf_eq, h.count, h.countBefore_eq, h.nth?_eq]

end Alike

end Pattern

end Recurrence
