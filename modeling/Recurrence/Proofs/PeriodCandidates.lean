import Recurrence.Proofs.AscendingLists
import Recurrence.Proofs.PeriodDays
import Recurrence.Series.Lemmas

set_option autoImplicit false
set_option relaxedAutoImplicit false

/-!
The candidates of periods. Within the calendar, save its last day, the candidates of a period are
the instants of its unit at which the rule recurs, and those of successive periods, one after the
other, are in order.
-/

namespace Recurrence

open Calendar

namespace Frequency

theorem unitOf_mono (frequency : Frequency) (weekStart : Weekday) {a b : Int} (hab : a ≤ b) :
    frequency.unitOf weekStart a ≤ frequency.unitOf weekStart b := by
  have ha := (unitOf_bounds frequency weekStart a).1
  exact unitStart_le_iff.1 (le_trans ha hab)

end Frequency

namespace Instant

private theorem lt_of_same_day {d : Int} {s t : TimeOfDay} (hst : s < t) :
    (⟨d, s⟩ : Instant) < ⟨d, t⟩ := Or.inr ⟨rfl, hst⟩

end Instant

namespace Pattern

variable {p : Pattern} {k : Nat} {c : Instant}

theorem step_pos (p : Pattern) : 1 ≤ p.step := le_max_left _ _

theorem unit_zero (p : Pattern) : p.unit 0 = p.unitOf p.anchor.day := by
  unfold unit
  omega

theorem periodStart_zero (p : Pattern) : p.periodStart 0 =
    p.rule.frequency.unitStart p.rule.weekStart (p.unitOf p.anchor.day) := by
  unfold periodStart
  rw [p.unit_zero]

theorem periodStart_zero_le (p : Pattern) : p.periodStart 0 ≤ p.anchor.day :=
  Frequency.unitStart_le_iff.2 (le_of_eq p.unit_zero)

theorem unit_succ (p : Pattern) (k : Nat) : p.unit (k + 1) = p.unit k + p.step := by
  unfold unit
  push_cast
  rw [Int.add_mul, Int.one_mul, Int.add_assoc]

theorem unit_lt_iff (p : Pattern) {j k : Nat} : p.unit j < p.unit k ↔ j < k := by
  have hmono : StrictMono p.unit := strictMono_nat_of_lt_succ fun k => by
    have hstep := p.step_pos
    rw [unit_succ]
    omega
  exact hmono.lt_iff_lt

theorem unit_le_iff (p : Pattern) {j k : Nat} : p.unit j ≤ p.unit k ↔ j ≤ k := by
  rw [← not_lt, p.unit_lt_iff, not_lt]

theorem day_lt_of_unitOf_lt {a b : Int} (hab : p.unitOf a < p.unitOf b) : a < b := by
  by_contra hle
  have hmono := Frequency.unitOf_mono p.rule.frequency p.rule.weekStart (not_lt.1 hle)
  unfold unitOf at hab
  omega

theorem mem_candidates : c ∈ p.candidates k ↔
    c.day ∈ p.days k ∧ p.rule.AdmitsTime p.anchor.time c.time ∧ p.anchor ≤ c := by
  unfold candidates
  rw [List.mem_filter, List.mem_flatMap, decide_eq_true_eq, p.times_eq, ← and_assoc]
  refine and_congr_left fun _ => ?_
  constructor
  · rintro ⟨d, hd, hc⟩
    obtain ⟨t, ht, rfl⟩ := List.mem_map.1 hc
    exact ⟨hd, Rule.mem_timesOfDay.1 ht⟩
  · rintro ⟨hd, ht⟩
    exact ⟨c.day, hd, List.mem_map.2 ⟨c.time, Rule.mem_timesOfDay.2 ht, rfl⟩⟩

theorem unitOf_of_mem_candidates (hc : c ∈ p.candidates k) : p.unitOf c.day = p.unit k :=
  unitOf_of_mem_days (mem_candidates.1 hc).1

/-- Within the calendar, save its last day, the candidates of a period are the instants of its unit
at which the rule recurs. -/
theorem mem_candidates_iff (hlow : firstDay ≤ c.day) (hhigh : c.day < lastDay) :
    c ∈ p.candidates k ↔ p.unitOf c.day = p.unit k ∧ p.rule.Recurs p.anchor c := by
  rw [mem_candidates, mem_days_iff hlow hhigh]
  constructor
  · rintro ⟨⟨hunit, hdefault, hadmits⟩, htime, hfrom⟩
    refine ⟨hunit, hfrom, ⟨k, ?_⟩, hdefault, hadmits, htime⟩
    rw [max_comm]
    exact hunit
  · rintro ⟨hunit, hrecurs⟩
    exact ⟨⟨hunit, hrecurs.default, hrecurs.day⟩, hrecurs.time, hrecurs.from_anchor⟩

theorem candidates_ascending (p : Pattern) (k : Nat) : (p.candidates k).Pairwise (· < ·) := by
  unfold candidates
  refine List.Pairwise.filter _ (List.pairwise_flatMap.2 ⟨?_, ?_⟩)
  · intro d _
    rw [List.pairwise_map, p.times_eq]
    exact (p.rule.timesOfDay_ascending p.anchor.time).imp Instant.lt_of_same_day
  · refine (days_ascending p k).imp ?_
    intro d d' hlt s hs t ht
    obtain ⟨_, -, rfl⟩ := List.mem_map.1 hs
    obtain ⟨_, -, rfl⟩ := List.mem_map.1 ht
    exact Instant.lt_of_day_lt hlt

theorem mem_enumerate {n : Nat} :
    c ∈ p.enumerate k n ↔ ∃ j, k ≤ j ∧ j < k + n ∧ c ∈ p.candidates j := by
  unfold enumerate
  simp only [List.mem_flatMap, List.mem_range'_1, and_assoc]

theorem enumerate_append (p : Pattern) (k m n : Nat) :
    p.enumerate k (m + n) = p.enumerate k m ++ p.enumerate (k + m) n := by
  unfold enumerate
  rw [← List.flatMap_append, List.range'_append_1]

theorem enumerate_succ_last (p : Pattern) (n : Nat) :
    p.enumerate 0 (n + 1) = p.enumerate 0 n ++ p.candidates n := by
  rw [enumerate_append p 0 n 1, Nat.zero_add, enumerate_succ p n, enumerate_zero, List.append_nil]

theorem enumerate_ascending (p : Pattern) (k n : Nat) :
    (p.enumerate k n).Pairwise (· < ·) := by
  refine List.pairwise_flatMap.2 ⟨fun j _ => candidates_ascending p j, ?_⟩
  refine (List.pairwise_lt_range' (s := k) (n := n)).imp ?_
  intro i j hij a ha b hb
  refine Instant.lt_of_day_lt (day_lt_of_unitOf_lt (p := p) ?_)
  rw [unitOf_of_mem_candidates ha, unitOf_of_mem_candidates hb]
  exact p.unit_lt_iff.2 hij

theorem mem_enumerate_zero_iff {n : Nat} (hc : c.Inner) :
    c ∈ p.enumerate 0 n ↔ p.rule.Recurs p.anchor c ∧ p.unitOf c.day < p.unit n := by
  have hlow := hc.firstDay_add_le
  have hhigh := hc.day_add_lt
  rw [mem_enumerate]
  constructor
  · rintro ⟨j, -, hj, hmem⟩
    obtain ⟨hunit, hrecurs⟩ := (mem_candidates_iff (by omega) (by omega)).1 hmem
    refine ⟨hrecurs, ?_⟩
    rw [hunit]
    exact p.unit_lt_iff.2 (by omega)
  · rintro ⟨hrecurs, hbefore⟩
    obtain ⟨j, hj⟩ := hrecurs.unit
    have hunit : p.unitOf c.day = p.unit j := by
      rw [max_comm] at hj
      exact hj
    rw [hunit, p.unit_lt_iff] at hbefore
    exact ⟨j, Nat.zero_le j, by omega,
      (mem_candidates_iff (by omega) (by omega)).2 ⟨hunit, hrecurs⟩⟩

theorem lt_periodsBy_iff {d : Int} : k < p.periodsBy d ↔ p.unit k ≤ p.unitOf d := by
  have hstep := p.step_pos
  have hdiv := Int.le_ediv_iff_mul_le (a := (k : Int))
    (b := p.unitOf d - p.unitOf p.anchor.day) (show 0 < p.step by omega)
  unfold periodsBy unit
  omega

theorem unit_periodOf_le {d : Int} (hd : p.anchor.day ≤ d) :
    p.unit (p.periodOf d) ≤ p.unitOf d := by
  have hstep := p.step_pos
  have hmono := Frequency.unitOf_mono p.rule.frequency p.rule.weekStart hd
  have hpositive : 0 ≤ (p.unitOf d - p.unitOf p.anchor.day) / p.step :=
    Int.ediv_nonneg (by unfold unitOf; omega) (by omega)
  have hmul := Int.ediv_mul_le (p.unitOf d - p.unitOf p.anchor.day) (show p.step ≠ 0 by omega)
  unfold unit periodOf
  rw [Int.toNat_of_nonneg hpositive]
  omega

theorem unitOf_lt_unit_periodOf_succ (p : Pattern) (d : Int) :
    p.unitOf d < p.unit (p.periodOf d + 1) := by
  have hstep := p.step_pos
  have hlt := Int.lt_ediv_add_one_mul_self (p.unitOf d - p.unitOf p.anchor.day)
    (show 0 < p.step by omega)
  have hle := Int.mul_le_mul_of_nonneg_right
    (Int.self_le_toNat ((p.unitOf d - p.unitOf p.anchor.day) / p.step))
    (show 0 ≤ p.step by omega)
  rw [Int.add_mul] at hlt
  rw [unit_succ]
  unfold unit periodOf
  omega

end Pattern

end Recurrence
