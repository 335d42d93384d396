import Recurrence.Proofs.NumberedCandidates
import Recurrence.Proofs.PeriodStarts

set_option autoImplicit false
set_option relaxedAutoImplicit false

/-!
Counting and numbering the candidates of whole periods. The rule may fix the size of every period
but the first; then counting is a multiplication and finding a candidate by its number a division.
Otherwise period after period is gone through. Both ways give the same, as long as the periods lie
before the calendar's last day: the sum of the sizes, and the place in the list of all candidates.
-/

namespace Recurrence

open Calendar

namespace Pattern

variable {p : Pattern} {c : Instant} {k n : Nat}

def checkedCandidates? (p : Pattern) (k : Nat) : Option (List Instant) :=
  (p.checkedStart? k).map fun _ => p.candidates k

def total (p : Pattern) (n : Nat) : Nat :=
  ((List.range n).map fun k => (p.candidates k).length).sum

private theorem length_enumerate_eq_total (p : Pattern) (n : Nat) :
    (p.enumerate 0 n).length = p.total n := by
  unfold enumerate total
  rw [List.length_flatMap, List.range_eq_range']

private theorem checkedCandidates?_eq_some (hp : p.checkStart = .ok ())
    (hend : p.periodEnd k ≤ lastDay) : p.checkedCandidates? k = some (p.candidates k) := by
  have hbegun := (p.periodStart_lt_periodEnd k).le.trans hend
  unfold checkedCandidates?
  rw [(checkedStart?_eq_some_iff (firstDay_le_periodStart hp)).2 ⟨rfl, hbegun⟩, Option.map_some]

private theorem anchor_lt_of_mem_candidates (hk : 1 ≤ k) (hc : c ∈ p.candidates k) : p.anchor < c :=
  Instant.lt_of_day_lt (anchor_day_lt_of_mem_days hk (mem_candidates.1 hc).1)

private theorem anchor_day_add_lt_periodEnd (p : Pattern) (k : Nat) :
    p.anchor.day + k < p.periodEnd k := by
  induction k with
  | zero =>
    have hanchor := (Frequency.unitOf_bounds p.rule.frequency p.rule.weekStart p.anchor.day).2
    unfold periodEnd
    rw [p.unit_zero, Nat.cast_zero, Int.add_zero]
    exact hanchor
  | succ k ih =>
    have hended := p.periodEnd_le_periodStart_succ k
    have hbegun := p.periodStart_lt_periodEnd (k + 1)
    push_cast
    omega

private theorem total_lt_word (hanchor : firstDay ≤ p.anchor.day)
    (hend : ∀ k < n, p.periodEnd k ≤ lastDay) : p.total n < 2 ^ 64 := by
  have hperiods : n ≤ (lastDay - firstDay).toNat := by
    cases n with
    | zero => exact Nat.zero_le _
    | succ n =>
      have hspan := p.anchor_day_add_lt_periodEnd n
      have hlast := hend n (Nat.lt_succ_self n)
      omega
  have hroom : (lastDay - firstDay).toNat * periodLimit < 2 ^ 64 := by decide
  rw [← length_enumerate_eq_total]
  exact ((p.length_enumerate_le 0 n).trans (Nat.mul_le_mul_right _ hperiods)).trans_lt hroom

/-- Where the rule fixes the size of a period, every period but the first has that size, as far as it
lies before the calendar's last day. The candidates counted before a period are, without a limit,
those of all earlier periods, whether they are multiplied or added up; with one, these, or those of
the first so many, which exceed the limit. The calendar has the periods, unless it has not even the
first day of the anchor's week, and the totals fit into words. -/
theorem countInPeriods_adds_up (p : Pattern) (hanchor : firstDay ≤ p.anchor.day) :
    (∀ size, p.cardinality? = some size → ∀ k, 1 ≤ k → p.periodEnd k ≤ lastDay →
      (p.candidates k).length = size ∧ ∀ c ∈ p.candidates k, p.anchor < c) ∧
    (∀ n, (∀ k < n, p.periodEnd k ≤ lastDay) →
      p.countInPeriods none n = p.total n ∧
      (∀ later, n = later + 1 →
        p.tally none later 1 (p.candidates 0).length = p.total n ∧
        ∀ size, p.cardinality? = some size → (p.candidates 0).length + later * size = p.total n) ∧
      (∀ limit, ∃ m ≤ n, p.countInPeriods (some limit) n = p.total m ∧
        (m = n ∨ limit < p.total m)) ∧
      p.total n < 2 ^ 64) ∧
    (p.checkStart = .ok () →
      ∀ k, p.periodEnd k ≤ lastDay → p.checkedCandidates? k = some (p.candidates k)) := by
  refine ⟨fun size hsize k hk hend => ?_, fun n hend => ⟨?_, ?_, fun limit => ?_, ?_⟩,
    fun hp k hend => checkedCandidates?_eq_some hp hend⟩
  · exact ⟨length_candidates_of_cardinality? hsize hk hend,
      fun c hc => anchor_lt_of_mem_candidates hk hc⟩
  · rw [countInPeriods_none hend, length_enumerate_eq_total]
  · rintro later rfl
    rw [← length_enumerate_eq_total]
    refine ⟨?_, fun size hsize => (length_enumerate_add_mul hsize hend).symm⟩
    rw [tally_none, enumerate_succ, List.length_append]
  · obtain ⟨m, hm, hsum, hover⟩ := countInPeriods_eq_length (some limit) hend
    rw [length_enumerate_eq_total] at hsum
    refine ⟨m, hm, hsum, hover.imp_right ?_⟩
    rintro ⟨l, hl, hlt⟩
    rwa [hsum, ← Option.some.inj hl] at hlt
  · exact total_lt_word hanchor hend

/-- Every other week a rule recurs on Monday, Wednesday and Friday, from a Wednesday on: twice in the
first week and three times in each of three later ones. Another recurs on the 31st of every month
that has one: three times in half a year, which a count with the limit one gives up after the
second. -/
theorem countInPeriods_of_weekdays_and_month_ends :
    let p : Pattern := .of { frequency := .weekly
                             interval := ⟨2, by decide, by decide⟩
                             weekdays := .ofList [.monday, .wednesday, .friday] }
      (.nine 2026 1 7)
    let q : Pattern := .of { frequency := .monthly
                             monthDays := .ofList [⟨31, by decide, by decide⟩] }
      (.nine 2026 1 31)
    (firstDay ≤ p.anchor.day ∧ p.cardinality? = some 3 ∧ (∀ k < 4, p.periodEnd k ≤ lastDay) ∧
      p.checkedCandidates? 3 = some (p.candidates 3) ∧ (p.candidates 3).length = 3 ∧
      (∀ c ∈ p.candidates 3, p.anchor < c) ∧ p.countInPeriods none 4 = 11 ∧ p.total 4 = 11 ∧
      p.tally none 3 1 (p.candidates 0).length = 11 ∧ (p.candidates 0).length + 3 * 3 = 11) ∧
    firstDay ≤ q.anchor.day ∧ q.cardinality? = none ∧ (∀ k < 6, q.periodEnd k ≤ lastDay) ∧
      q.total 6 = 3 ∧ q.countInPeriods (some 1) 6 = 2 ∧ ∃ m < 6, q.total m = 2 := by
  intro p q
  have hp : firstDay ≤ p.anchor.day := by decide +kernel
  have hq : firstDay ≤ q.anchor.day := by decide +kernel
  have hstart : p.checkStart = .ok () := by decide +kernel
  have hsize : p.cardinality? = some 3 := by decide +kernel
  have hpend : ∀ k < 4, p.periodEnd k ≤ lastDay := by decide +kernel
  have hqend : ∀ k < 6, q.periodEnd k ≤ lastDay := by decide +kernel
  have heleven : p.countInPeriods none 4 = 11 := by decide +kernel
  have htwo : q.countInPeriods (some 1) 6 = 2 := by decide +kernel
  have hthree : q.total 6 = 3 := by decide +kernel
  obtain ⟨hperiod, hcount, hlisted⟩ := countInPeriods_adds_up p hp
  obtain ⟨hlength, hafter⟩ := hperiod 3 hsize 3 (by decide) (hpend 3 (by decide))
  obtain ⟨htotal, hways, -, -⟩ := hcount 4 hpend
  obtain ⟨-, -, hlimited, -⟩ := (countInPeriods_adds_up q hq).2.1 6 hqend
  obtain ⟨m, hm, hsum, hover⟩ := hlimited 1
  rw [htwo] at hsum
  have hsame : p.total 4 = 11 := htotal.symm.trans heleven
  obtain ⟨hadded, hmultiplied⟩ := hways 3 rfl
  refine ⟨⟨hp, hsize, hpend, hlisted hstart 3 (hpend 3 (by decide)), hlength, hafter, heleven, hsame,
    hadded.trans hsame, (hmultiplied 3 hsize).trans hsame⟩, hq, by decide +kernel, hqend, hthree,
    htwo, m, lt_of_le_of_ne hm ?_, hsum.symm⟩
  rintro rfl
  omega

/-- A candidate is found by its number, counted from one: it stands at that place in the list of all
candidates of the periods. It is found in the first period if that is long enough. Behind it, going
through the periods finds it, and so does dividing by their size where the rule fixes that; the
quotient leads no further than the last of the periods. -/
theorem nth?_finds_place (p : Pattern) (n upper : Nat) (hfirst : 1 ≤ n)
    (hend : ∀ k ≤ upper, p.periodEnd k ≤ lastDay)
    (hlength : n ≤ (p.enumerate 0 (upper + 1)).length) :
    ∃ c, (p.enumerate 0 (upper + 1))[n - 1]? = some c ∧ p.nth? n upper = some c ∧
      (n ≤ (p.candidates 0).length → (p.candidates 0)[n - 1]? = some c) ∧
      (∀ rest, n = (p.candidates 0).length + rest + 1 →
        p.seek upper 1 rest = some c ∧
        ∀ size, p.cardinality? = some size → 0 < size ∧ 1 + rest / size ≤ upper ∧
          (p.candidates (1 + rest / size))[rest % size]? = some c) ∧
      (p.checkStart = .ok () → ∀ k ≤ upper, p.checkedCandidates? k = some (p.candidates k)) := by
  have hroom := hend upper le_rfl
  obtain ⟨c, hc⟩ : ∃ c, (p.enumerate 0 (upper + 1))[n - 1]? = some c :=
    ⟨_, List.getElem?_eq_getElem (by omega)⟩
  refine ⟨c, hc, (nth?_eq_getElem? hfirst hlength hroom).trans hc, fun hle => ?_, ?_,
    fun hp k hk => checkedCandidates?_eq_some hp (hend k hk)⟩
  · rwa [enumerate_succ, List.getElem?_append_left (by omega)] at hc
  · rintro rest rfl
    rw [enumerate_succ, Nat.zero_add, List.length_append] at hlength
    rw [enumerate_succ, Nat.zero_add, List.getElem?_append_right (by omega),
      show (p.candidates 0).length + rest + 1 - 1 - (p.candidates 0).length = rest by omega] at hc
    refine ⟨(p.seek_eq_getElem? upper 1 rest).trans hc, fun size hsize => ?_⟩
    obtain ⟨hpos, hquotient, hfound⟩ :=
      getElem?_enumerate_of_cardinality? (n := rest) hsize hroom (by omega)
    exact ⟨hpos, by omega, hfound.symm.trans hc⟩

/-- On the 31st of February and April, moved to their ends, and of a month that no year has, a rule
recurs twice a year. Its seventh candidate is the first of the fourth year, found by a division; on
the 31st of every month that has one, the fourth candidate is found in July, after going through the
months. -/
theorem nth?_seventh_and_fourth :
    let p : Pattern := .of { frequency := .yearly
                             months := .ofList [⟨2, by decide, by decide⟩, ⟨4, by decide, by decide⟩,
                               ⟨13, by decide, by decide⟩] }
      (.nine 2024 1 31)
    let q : Pattern := .of { frequency := .monthly
                             monthDays := .ofList [⟨31, by decide, by decide⟩] }
      (.nine 2026 1 31)
    ((∀ k ≤ 4, p.periodEnd k ≤ lastDay) ∧ 7 ≤ (p.enumerate 0 5).length ∧
      p.cardinality? = some 2 ∧ p.nth? 7 4 = some (.nine 2027 2 28) ∧
      (p.enumerate 0 5)[6]? = some (.nine 2027 2 28) ∧
      p.seek 4 1 4 = some (.nine 2027 2 28)) ∧
    (∀ k ≤ 6, q.periodEnd k ≤ lastDay) ∧ 4 ≤ (q.enumerate 0 7).length ∧
      q.cardinality? = none ∧ q.nth? 4 6 = some (.nine 2026 7 31) ∧
      (q.enumerate 0 7)[3]? = some (.nine 2026 7 31) := by
  intro p q
  have hpend : ∀ k ≤ 4, p.periodEnd k ≤ lastDay := by decide +kernel
  have hqend : ∀ k ≤ 6, q.periodEnd k ≤ lastDay := by decide +kernel
  have hplength : 7 ≤ (p.enumerate 0 5).length := by decide +kernel
  have hqlength : 4 ≤ (q.enumerate 0 7).length := by decide +kernel
  have hseventh : p.nth? 7 4 = some (.nine 2027 2 28) := by decide +kernel
  have hfourth : q.nth? 4 6 = some (.nine 2026 7 31) := by decide +kernel
  have hfirst : 7 = (p.candidates 0).length + 4 + 1 := by decide +kernel
  obtain ⟨b, hplace, hb, -, hbehind, -⟩ := nth?_finds_place p 7 4 (by decide) hpend hplength
  obtain ⟨c, hqplace, hc, -⟩ := nth?_finds_place q 4 6 (by decide) hqend hqlength
  obtain rfl := Option.some.inj (hb.symm.trans hseventh)
  obtain rfl := Option.some.inj (hc.symm.trans hfourth)
  exact ⟨⟨hpend, hplength, by decide +kernel, hseventh, hplace, (hbehind 4 hfirst).1⟩,
    hqend, hqlength, by decide +kernel, hfourth, hqplace⟩

end Pattern

end Recurrence
