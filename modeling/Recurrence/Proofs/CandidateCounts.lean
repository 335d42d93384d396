import Recurrence.Proofs.Predecessors

set_option autoImplicit false
set_option relaxedAutoImplicit false

/-!
Counting the candidates before an instant. Multiplying the size of a period, where the rule fixes
one, and adding up period after period give the same number as listing all periods from the anchor
on, and that is the number of instants before the given one at which the rule recurs.
-/

namespace Recurrence

open Calendar

namespace Pattern

variable {p : Pattern} {t : Instant} {n later size : Nat}

private theorem encard_recurs_lt_eq_length (hp : p.anchor.Inner) (ht : t.Inner)
    (hn : p.periodsBy t.day ≤ n) :
    {c | p.rule.Recurs p.anchor c ∧ c < t}.encard = ((p.enumerate 0 n).filter (· < t)).length := by
  have hlater : p.unitOf t.day < p.unit n := by
    rw [← not_le, ← lt_periodsBy_iff]
    exact not_lt.2 hn
  have hset : {c | p.rule.Recurs p.anchor c ∧ c < t} =
      {c | c ∈ (p.enumerate 0 n).filter (· < t)} := by
    ext c
    rw [Set.mem_ofPred_eq, Set.mem_ofPred_eq, List.mem_filter, decide_eq_true_eq,
      mem_enumerate_and_lt_iff hp ht hlater]
  rw [hset, Ascending.encard_eq_length ((p.enumerate_ascending 0 n).filter _)]

private theorem periodStart_succ_le_lastDay (ht : t.Inner) (hlater : later < p.periodOf t.day) :
    p.periodStart (later + 1) ≤ lastDay := by
  have hstep := p.step_pos
  have hunit : p.unitOf p.anchor.day < p.unitOf t.day := by
    have hdiv := Int.le_ediv_iff_mul_le (a := 1) (b := p.unitOf t.day - p.unitOf p.anchor.day)
      (show 0 < p.step by omega)
    unfold periodOf at hlater
    omega
  have hbegun : p.periodStart (p.periodOf t.day) ≤ t.day :=
    Frequency.unitStart_le_iff.2 (unit_periodOf_le (day_lt_of_unitOf_lt hunit).le)
  have hearlier := p.periodStart_mono (show later + 1 ≤ p.periodOf t.day from hlater)
  have hroom := ht.day_add_lt
  omega

private theorem length_enumerate_eq_add_mul (hsize : p.cardinality? = some size)
    (hbegun : p.periodStart (later + 1) ≤ lastDay) :
    (p.enumerate 0 (later + 1)).length = (p.candidates 0).length + later * size :=
  length_enumerate_add_mul hsize (periodEnd_le_of_periodStart_le hbegun)

end Pattern

namespace Series

/-- The count before an instant is the number of instants before it at which the rule recurs, as far
as a count can hold it. Listing the periods from the anchor on gives that number, and so do both
ways of counting the periods before that of the instant. -/
theorem countBefore_exact (r : Rule) (anchor t : Instant) (hanchor : anchor.Inner) (ht : t.Inner) :
    ∃ n : Nat, (⟨some r, anchor⟩ : Series).countBefore t = .ok (min n 4294967295) ∧
      {c | r.Recurs anchor c ∧ c < t}.encard = n ∧
      (∀ periods, (Pattern.of r anchor).periodsBy t.day ≤ periods →
        (((Pattern.of r anchor).enumerate 0 periods).filter (· < t)).length = n) ∧
      ∀ later < (Pattern.of r anchor).periodOf t.day,
        (∀ size, (Pattern.of r anchor).cardinality? = some size →
          ((Pattern.of r anchor).candidates 0).length + later * size =
            ((Pattern.of r anchor).enumerate 0 (later + 1)).length) ∧
        (Pattern.of r anchor).tally none later 1 ((Pattern.of r anchor).candidates 0).length =
          ((Pattern.of r anchor).enumerate 0 (later + 1)).length := by
  obtain ⟨n, hn, hcount⟩ := countBefore_spec (r := r) hanchor ht
  refine ⟨n, hcount, hn, fun periods hperiods => ?_, fun later hlater => ⟨fun size hsize => ?_, ?_⟩⟩
  · have hlisted :=
      Pattern.encard_recurs_lt_eq_length (p := Pattern.of r anchor) hanchor ht hperiods
    exact Nat.cast_inj.1 (hlisted.symm.trans hn)
  · exact (Pattern.length_enumerate_eq_add_mul hsize
      (Pattern.periodStart_succ_le_lastDay ht hlater)).symm
  · rw [Pattern.tally_none, Pattern.enumerate_succ, List.length_append]

/-- On the 31st of the months 2, 4 and 13, moved to the end of a month that is too short, a yearly
rule from January 2024 on recurs five times before 30 April 2026. Its own count of one and the month
that no year has do not matter. -/
theorem five_month_ends_before_april :
    (Instant.nine 2024 1 31).Inner ∧ (Instant.nine 2026 4 30).Inner ∧
      let r : Rule := { frequency := .yearly
                        months := .ofList [⟨2, by decide, by decide⟩, ⟨4, by decide, by decide⟩,
                          ⟨13, by decide, by decide⟩]
                        count := some ⟨1, by decide, by decide⟩ }
      (⟨some r, Instant.nine 2024 1 31⟩ : Series).countBefore (.nine 2026 4 30) = .ok 5 ∧
      {c | r.Recurs (.nine 2024 1 31) c ∧ c < .nine 2026 4 30}.encard = 5 := by
  have hanchor : (Instant.nine 2024 1 31).Inner := by decide
  have ht : (Instant.nine 2026 4 30).Inner := by decide
  refine ⟨hanchor, ht, ?_⟩
  intro r
  obtain ⟨n, hcount, hn, -⟩ := countBefore_exact r _ _ hanchor ht
  have hfive : (⟨some r, Instant.nine 2024 1 31⟩ : Series).countBefore (.nine 2026 4 30) =
      .ok 5 := by decide +kernel
  have hmin : min n 4294967295 = 5 := Except.ok.inj (hcount.symm.trans hfive)
  obtain rfl : n = 5 := by omega
  exact ⟨hfive, hn⟩

end Series

end Recurrence
