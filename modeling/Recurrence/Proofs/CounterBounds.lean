import Recurrence.Proofs.RawCandidates
import Recurrence.Proofs.OrdinaryTime

set_option autoImplicit false
set_option relaxedAutoImplicit false

/-!
How large the numbers get that are held while periods are counted and looked at: the numbers of the
periods and of their units, the sizes of periods, and the totals of candidates. Sets of octets bound
the times of a day, the calendar bounds the days of a period, and the years 1 to 9999 the number of
periods, so that all of these numbers are far from the limit of a word.
-/

namespace Recurrence

open Calendar

namespace SortedSet

universe u

variable {α : Type u} [Ranked α]

private theorem length_le_of_ranks {xs : List α}
    (hxs : xs.Pairwise fun a b => Ranked.rank a < Ranked.rank b) {low high : Int}
    (hlow : ∀ a ∈ xs, low ≤ Ranked.rank a) (hhigh : ∀ a ∈ xs, Ranked.rank a ≤ high) :
    xs.length ≤ (high + 1 - low).toNat := by
  induction xs generalizing low with
  | nil => exact Nat.zero_le _
  | cons x xs ih =>
    obtain ⟨hx, hrest⟩ := List.pairwise_cons.1 hxs
    have hlength := ih hrest (fun a ha => Int.add_one_le_of_lt (hx a ha))
      fun a ha => hhigh a (List.mem_cons_of_mem x ha)
    have hfirst := hlow x List.mem_cons_self
    have hlast := hhigh x List.mem_cons_self
    rw [List.length_cons]
    omega

private theorem length_elements_le {low high : Int} (s : SortedSet (BoundedInt low high)) :
    s.elements.length ≤ (high + 1 - low).toNat :=
  length_le_of_ranks s.ascending (fun a _ => a.low_le) fun a _ => a.le_high

private theorem size_weekdays_le (s : SortedSet Weekday) : s.size ≤ 7 := by
  have hlow : ∀ a ∈ s.elements, 0 ≤ Ranked.rank a := fun a _ => Int.natCast_nonneg a.number
  have hhigh : ∀ a ∈ s.elements, Ranked.rank a ≤ 6 := by
    intro a _
    have hnumber := a.number_lt
    change (a.number : Int) ≤ 6
    omega
  exact length_le_of_ranks s.ascending hlow hhigh

end SortedSet

private theorem length_flatMap_le {α β : Type} {xs : List α} {f : α → List β} {m n : Nat}
    (hxs : xs.length ≤ m) (hf : ∀ x ∈ xs, (f x).length ≤ n) : (xs.flatMap f).length ≤ m * n := by
  induction xs generalizing m with
  | nil => exact Nat.zero_le _
  | cons x xs ih =>
    cases m with
    | zero => simp at hxs
    | succ m =>
      have hrest := ih (Nat.le_of_succ_le_succ hxs) fun y hy => hf y (List.mem_cons_of_mem x hy)
      have hhead := hf x List.mem_cons_self
      rw [List.flatMap_cons, List.length_append, Nat.succ_mul]
      omega

namespace Frequency

theorem unitStart_add_le (frequency : Frequency) (weekStart : Weekday) (unit : Int) (n : Nat) :
    frequency.unitStart weekStart unit + n ≤ frequency.unitStart weekStart (unit + n) := by
  induction n with
  | zero => simp
  | succ n ih =>
    have hnext := unitStart_lt_succ frequency weekStart (unit + n)
    rw [Nat.cast_succ, ← Int.add_assoc, ← Int.add_assoc]
    omega

private theorem unitOf_sub_le (frequency : Frequency) (weekStart : Weekday) {a d : Int}
    (hle : a ≤ d) : frequency.unitOf weekStart d - frequency.unitOf weekStart a ≤ d - a := by
  by_cases hsame : frequency.unitOf weekStart d ≤ frequency.unitOf weekStart a
  · omega
  · have hafter := (unitOf_bounds frequency weekStart a).2
    have hbegun := (unitOf_bounds frequency weekStart d).1
    have hspan := unitStart_add_le frequency weekStart (frequency.unitOf weekStart a + 1)
      (frequency.unitOf weekStart d - (frequency.unitOf weekStart a + 1)).toNat
    rw [Int.toNat_of_nonneg (by omega), add_sub_cancel] at hspan
    omega

end Frequency

namespace Instant

variable {t : Instant}

private theorem FourDigit.day_bounds (ht : t.FourDigit) : -719162 ≤ t.day ∧ t.day ≤ 2932896 := by
  have hlow := yearStart_le_day_iff.2 ht.1
  have hhigh := lt_yearStart_iff.2 (show yearOf t.day < 10000 from Int.lt_add_one_of_le ht.2)
  have hfirst : yearStart 1 = -719162 := by decide
  have hlast : yearStart 10000 = 2932897 := by decide
  omega

private theorem FourDigit.natAbs_unitOf_le (ht : t.FourDigit) (frequency : Frequency)
    (weekStart : Weekday) : (frequency.unitOf weekStart t.day).natAbs ≤ 2932897 := by
  have hday := ht.day_bounds
  have hnumber := weekStart.number_lt
  obtain ⟨hlow, hhigh⟩ := ht
  cases frequency with
  | daily =>
    simp only [Frequency.unitOf]
    omega
  | weekly =>
    simp only [Frequency.unitOf]
    omega
  | monthly =>
    have hdate := date_bounds t.day
    simp only [Frequency.unitOf, year_date]
    omega
  | yearly =>
    simp only [Frequency.unitOf]
    omega

end Instant

namespace Rule

private theorem length_valuesOr_le (s : SortedSet Octet) (default : Nat) :
    (valuesOr s default).length ≤ 256 := by
  have hsize := s.length_elements_le
  unfold valuesOr
  split
  · rw [List.length_singleton]
    decide
  · rw [List.length_map]
    omega

def timeChoices (r : Rule) (anchor : TimeOfDay) : Nat :=
  (valuesOr r.hours anchor.hour).length * (valuesOr r.minutes anchor.minute).length *
    (valuesOr r.seconds anchor.secondOfMinute).length

private theorem timeChoices_le (r : Rule) (anchor : TimeOfDay) :
    r.timeChoices anchor ≤ 16777216 := by
  have hhours := length_valuesOr_le r.hours anchor.hour
  have hminutes := length_valuesOr_le r.minutes anchor.minute
  have hseconds := length_valuesOr_le r.seconds anchor.secondOfMinute
  exact Nat.mul_le_mul (Nat.mul_le_mul hhours hminutes) hseconds

private theorem length_timesOfDay_le (r : Rule) (anchor : TimeOfDay) :
    (r.timesOfDay anchor).length ≤ r.timeChoices anchor := by
  unfold timesOfDay timeChoices
  rw [Nat.mul_assoc]
  refine length_flatMap_le le_rfl fun hour _ => length_flatMap_le le_rfl fun minute _ => ?_
  exact List.length_filterMap_le _ _

end Rule

namespace Pattern

variable {p : Pattern} {k n : Nat}

private theorem length_times_le (p : Pattern) : p.times.length ≤ 16777216 := by
  rw [p.times_eq]
  exact (p.rule.length_timesOfDay_le p.anchor.time).trans (p.rule.timeChoices_le p.anchor.time)

private theorem length_run_le (start : Int) (count : Nat) : (run start count).length ≤ count := by
  unfold run
  rw [List.length_map, List.length_range]
  exact Nat.min_le_left _ _

private theorem length_single_le (day : Int) : (single day).length ≤ 1 := by
  unfold single
  split <;> simp

private theorem length_unitDays_le (p : Pattern) (k : Nat) : (p.unitDays k).length ≤ 366 := by
  unfold unitDays
  cases p.rule.frequency with
  | daily => simp
  | weekly =>
    simp only
    split
    · exact (length_single_le _).trans (by decide)
    · exact (length_run_le _ _).trans (by decide)
  | monthly =>
    simp only
    split
    · have hlength := monthLength_bounds (p.unit k / 12) ((p.unit k % 12).toNat + 1)
      exact (length_run_le _ _).trans (by omega)
    · simp
  | yearly =>
    have hmonths := p.rule.months.length_elements_le
    simp only
    split
    · exact (length_run_le _ _).trans (yearLength_le _)
    · split
      · simp
      · rw [List.length_map]
        exact (List.length_filter_le _ _).trans (hmonths.trans (by decide))

private theorem length_days_le (p : Pattern) (k : Nat) : (p.days k).length ≤ 366 := by
  unfold days
  split
  · exact (List.length_filter_le _ _).trans (p.length_unitDays_le k)
  · exact Nat.zero_le _

private theorem daysPerPeriod?_le (hn : p.daysPerPeriod? = some n) : n ≤ 366 := by
  have hweekdays := p.rule.weekdays.size_weekdays_le
  have hmonths := p.rule.months.length_elements_le
  unfold daysPerPeriod? at hn
  cases hf : p.rule.frequency with
  | daily | monthly =>
    simp only [hf, Option.ite_none_right_eq_some, Option.some.injEq] at hn
    omega
  | weekly =>
    simp only [hf, Option.ite_none_right_eq_some, Option.some.injEq] at hn
    omega
  | yearly =>
    simp only [hf, Option.ite_none_left_eq_some] at hn
    obtain ⟨-, hn⟩ := hn
    split at hn
    · cases hn
      decide
    · cases hn
      exact (List.length_filter_le _ _).trans (hmonths.trans (by decide))

def periodLimit : Nat := 366 * 16777216

private theorem cardinality?_le (hn : p.cardinality? = some n) : n ≤ periodLimit := by
  unfold cardinality? at hn
  obtain ⟨days, hdays, rfl⟩ := Option.map_eq_some_iff.1 hn
  exact Nat.mul_le_mul (daysPerPeriod?_le hdays) p.length_times_le

private theorem length_candidates_le (p : Pattern) (k : Nat) :
    (p.candidates k).length ≤ periodLimit := by
  unfold candidates
  refine (List.length_filter_le _ _).trans (length_flatMap_le (p.length_days_le k) fun day _ => ?_)
  rw [List.length_map]
  exact p.length_times_le

theorem length_enumerate_le (p : Pattern) (k n : Nat) :
    (p.enumerate k n).length ≤ n * periodLimit := by
  unfold enumerate
  exact length_flatMap_le (List.length_range').le fun j _ => p.length_candidates_le j

private theorem tally_le (p : Pattern) (limit : Option Nat) (n k total : Nat) :
    p.tally limit n k total ≤ total + n * periodLimit := by
  obtain ⟨m, hm, hsum, -⟩ := p.tally_eq_length limit n k total
  rw [hsum]
  exact Nat.add_le_add_left
    ((p.length_enumerate_le k m).trans (Nat.mul_le_mul_right periodLimit hm)) total

private theorem countInPeriods_le (p : Pattern) (limit : Option Nat) (k : Nat) :
    p.countInPeriods limit k ≤ k * periodLimit := by
  cases k with
  | zero => exact Nat.zero_le _
  | succ later =>
    have hfirst := p.length_candidates_le 0
    unfold countInPeriods
    rw [Nat.succ_mul]
    simp only
    split
    · rename_i size hsize
      have hlater := Nat.mul_le_mul_left later (cardinality?_le hsize)
      omega
    · have htotal := p.tally_le limit later 1 (p.candidates 0).length
      omega

def periodsLimit : Nat := 3652060

private theorem ediv_step_le {d : Int} (hanchor : p.anchor.FourDigit) (hd : d ≤ 2932896) :
    (p.unitOf d - p.unitOf p.anchor.day) / p.step ≤ 3652058 := by
  have hstep := p.step_pos
  have hday := hanchor.day_bounds
  have hspan : p.unitOf d - p.unitOf p.anchor.day ≤ 3652058 := by
    rcases Int.le_total p.anchor.day d with hle | hle
    · have hunits := Frequency.unitOf_sub_le p.rule.frequency p.rule.weekStart hle
      unfold unitOf
      omega
    · have hmono := Frequency.unitOf_mono p.rule.frequency p.rule.weekStart hle
      unfold unitOf
      omega
  exact Int.ediv_le_of_le_mul (by omega) (by omega)

theorem periodOf_lt {t : Instant} (hanchor : p.anchor.FourDigit) (ht : t.FourDigit) :
    p.periodOf t.day < periodsLimit := by
  have hquotient := ediv_step_le (p := p) hanchor ht.day_bounds.2
  unfold periodOf periodsLimit
  omega

theorem periodsBy_lt {d : Int} {t : Instant} (hanchor : p.anchor.FourDigit) (ht : t.FourDigit)
    (hd : d ≤ t.day) : p.periodsBy d < periodsLimit := by
  have hquotient := ediv_step_le (p := p) hanchor (hd.trans ht.day_bounds.2)
  unfold periodsBy periodsLimit
  omega

/-- The numbers that are held while the periods before `upper` are counted, looked at one after the
other, or searched for the candidate with a number. -/
inductive Held (p : Pattern) (upper : Nat) : Nat → Prop
  /-- The room that is made for the times of a day. -/
  | times : Held p upper (p.rule.timeChoices p.anchor.time)
  /-- The number of a period. -/
  | period {k : Nat} (hk : k ≤ upper) : Held p upper k
  /-- How many units a period lies behind the first. -/
  | offset {k : Nat} (hk : k ≤ upper) : Held p upper (k * p.step).toNat
  /-- The unit of a period, such as a month counted from the year 0, without its sign. -/
  | unit {k : Nat} (hk : k ≤ upper) : Held p upper (p.unit k).natAbs
  /-- The size of all periods but the first, if the rule fixes it. -/
  | size {n : Nat} (hn : p.cardinality? = some n) : Held p upper n
  /-- The candidates of periods of a fixed size. -/
  | product {n k : Nat} (hn : p.cardinality? = some n) (hk : k ≤ upper) : Held p upper (k * n)
  /-- These together with those of the first period. -/
  | sum {n k : Nat} (hn : p.cardinality? = some n) (hk : k < upper) :
    Held p upper ((p.candidates 0).length + k * n)
  /-- A total of the first period and some more, added up one after the other. -/
  | total {limit : Option Nat} {k : Nat} (hk : k < upper) :
    Held p upper (p.tally limit k 1 (p.candidates 0).length)
  /-- The candidates counted before a period, and one by one those that are met from it on. -/
  | met {limit : Option Nat} {k j : Nat} (hk : k ≤ upper)
    (hj : j ≤ (p.enumerate k (upper - k)).length) : Held p upper (p.countInPeriods limit k + j)
  /-- The candidates that are met from a period on where none are counted before, or that are
  yielded, one by one. -/
  | yielded {k j : Nat} (hk : k ≤ upper) (hj : j ≤ (p.enumerate k (upper - k)).length) :
    Held p upper j
  /-- What is left of a count, or the period in which the candidate with its number is found. -/
  | left {count : Word32} {n : Nat} (hcount : p.rule.count = some count)
    (hn : n ≤ count.val.toNat + 1) : Held p upper n

/-- An expansion ends with numbers that are held: those of the candidates that it counted before its
first period, and of the candidates that it yields. -/
theorem held_of_expand (p : Pattern) (cap : Nat) (start stop : Instant) :
    p.Held (p.reach start stop) (p.expand cap start stop).alreadyCounted ∧
      p.Held (p.reach start stop) (p.expand cap start stop).candidates.length := by
  have hfirst : p.firstPeriod start ≤ p.reach start stop := Nat.le_add_right _ _
  constructor
  · unfold expand
    simp only
    split
    · exact .met hfirst (Nat.zero_le _)
    · exact .yielded hfirst (Nat.zero_le _)
  · rw [expand_candidates]
    refine .yielded hfirst ?_
    unfold reach
    rw [Nat.add_sub_cancel_left]
    exact (choose_sublist _ _ _ _ _).length_le

theorem Held.lt_word {upper : Nat} (hanchor : p.anchor.FourDigit) (hupper : upper ≤ periodsLimit)
    (h : p.Held upper n) : n < 2 ^ 63 := by
  have hstep : p.step ≤ 4294967295 := by
    have hinterval := p.rule.interval.le_high
    unfold step
    omega
  have hmul : ∀ {k m : Nat}, k ≤ upper → m ≤ periodLimit → k * m ≤ periodsLimit * periodLimit :=
    fun hk hm => Nat.mul_le_mul (hk.trans hupper) hm
  have hroom : periodsLimit * periodLimit + periodLimit < 2 ^ 63 := by decide
  have hoffset : ∀ {k : Nat}, k ≤ upper → 0 ≤ k * p.step ∧ k * p.step ≤ 3652060 * 4294967295 := by
    intro k hk
    have hlimit : (k : Int) ≤ 3652060 := Int.ofNat_le.2 (hk.trans hupper)
    have hstepPos := p.step_pos
    exact ⟨Int.mul_nonneg (Int.natCast_nonneg k) (by omega),
      Int.mul_le_mul hlimit hstep (by omega) (by omega)⟩
  cases h with
  | times => exact (p.rule.timeChoices_le p.anchor.time).trans_lt (by decide)
  | period hk => exact (hk.trans hupper).trans_lt (by decide)
  | offset hk =>
    have hbounds := hoffset hk
    omega
  | @unit k hk =>
    have hbounds := hoffset hk
    have hfirst := hanchor.natAbs_unitOf_le p.rule.frequency p.rule.weekStart
    unfold Pattern.unit unitOf
    omega
  | size hn => exact (cardinality?_le hn).trans_lt (by decide)
  | product hn hk =>
    have hbound := hmul hk (cardinality?_le hn)
    omega
  | sum hn hk =>
    have hbound := hmul hk.le (cardinality?_le hn)
    have hfirst := p.length_candidates_le 0
    omega
  | @total limit k hk =>
    have htotal := p.tally_le limit k 1 (p.candidates 0).length
    have hbound := hmul hk.le (le_refl periodLimit)
    have hfirst := p.length_candidates_le 0
    omega
  | @met limit k j hk hj =>
    have hcounted := p.countInPeriods_le limit k
    have hrest := p.length_enumerate_le k (upper - k)
    have hbound := hmul (le_refl upper) (le_refl periodLimit)
    have hsplit : k * periodLimit + (upper - k) * periodLimit = upper * periodLimit := by
      rw [← Nat.add_mul, Nat.add_sub_cancel' hk]
    omega
  | @yielded k j hk hj =>
    have hmet := hj.trans (p.length_enumerate_le k (upper - k))
    have hbound := hmul (Nat.sub_le upper k) (le_refl periodLimit)
    omega
  | @left count n hcount hn =>
    have hhigh := count.le_high
    omega

end Pattern

end Recurrence
