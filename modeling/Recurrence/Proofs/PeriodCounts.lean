import Recurrence.Proofs.PeriodCandidates

set_option autoImplicit false
set_option relaxedAutoImplicit false

/-!
The number of candidates in a period. Where a rule fixes it, every period after the first that ends
within the calendar has that many, so counting by multiplication and counting by enumeration agree.
-/

namespace Recurrence

open Calendar

namespace Weekday

private theorem number_injective : Function.Injective number := by
  intro a b hab
  have hsome := congrArg ofNumber? hab
  rw [ofNumber?_number, ofNumber?_number] at hsome
  exact Option.some.inj hsome

end Weekday

namespace Rule

private theorem choosesDay_of_no_filters {r : Rule} (hr : r.hasDayFilters = false)
    (hm : r.months = ∅) (d : Int) : r.choosesDay d = true := by
  obtain ⟨hweekdays, hmonthDays, hyearDays, hweeks⟩ := hasDayFilters_eq_false_iff.1 hr
  have hdates : r.hasDateFilters = false := by
    unfold hasDateFilters
    simp [SortedSet.isEmpty_iff.2 hm, SortedSet.isEmpty_iff.2 hmonthDays,
      SortedSet.isEmpty_iff.2 hyearDays]
  unfold choosesDay
  simp [SortedSet.isEmpty_iff.2 hweekdays, SortedSet.isEmpty_iff.2 hweeks, hdates]

end Rule

namespace Pattern

variable {p : Pattern} {k : Nat}

theorem periodStart_lt (p : Pattern) {i j : Nat} (hij : i < j) :
    p.periodStart i < p.periodStart j :=
  Frequency.unitStart_lt _ _ (p.unit_lt_iff.2 hij)

theorem periodStart_mono (p : Pattern) {i j : Nat} (hij : i ≤ j) :
    p.periodStart i ≤ p.periodStart j := by
  have hmono : StrictMono p.periodStart := fun _ _ => p.periodStart_lt
  exact hmono.monotone hij

def periodEnd (p : Pattern) (k : Nat) : Int :=
  p.rule.frequency.unitStart p.rule.weekStart (p.unit k + 1)

theorem periodStart_lt_periodEnd (p : Pattern) (k : Nat) : p.periodStart k < p.periodEnd k :=
  Frequency.unitStart_lt_succ _ _ _

theorem periodEnd_le_periodStart_succ (p : Pattern) (k : Nat) :
    p.periodEnd k ≤ p.periodStart (k + 1) := by
  have hstep := p.step_pos
  have hnext := p.unit_succ k
  exact Frequency.unitStart_le_iff.2
    (le_trans (by omega) (Frequency.unitStart_le_iff.1 (le_refl (p.periodStart (k + 1)))))

theorem periodEnd_mono (p : Pattern) {i j : Nat} (hij : i ≤ j) :
    p.periodEnd i ≤ p.periodEnd j := by
  rcases Nat.eq_or_lt_of_le hij with rfl | hlt
  · exact le_rfl
  · have hnext := p.unit_lt_iff.2 hlt
    exact (Frequency.unitStart_lt _ _ (show p.unit i + 1 < p.unit j + 1 by omega)).le

private theorem days_of_ended (hk : p.periodEnd k ≤ lastDay) :
    p.days k = (p.unitDays k).filter p.rule.choosesDay := by
  have hlt := p.periodStart_lt_periodEnd k
  unfold days
  rw [if_pos (by omega)]

private theorem length_unitDays_daily (hf : p.rule.frequency = .daily) :
    (p.unitDays k).length = 1 := by
  simp [unitDays, hf]

private theorem length_unitDays_monthly (hf : p.rule.frequency = .monthly)
    (hr : p.rule.hasDayFilters = false) : (p.unitDays k).length = 1 := by
  simp [unitDays, hf, hr]

private theorem length_filter_week (start : Int) (weekdays : SortedSet Weekday)
    (hstart : start + 7 ≤ lastDay) :
    ((run start 7).filter fun d => weekdays.elements.contains (weekday d)).length =
      weekdays.size := by
  have hweek : ∀ d, d ∈ run start 7 ↔ start ≤ d ∧ d < start + 7 := by
    intro d
    rw [mem_run]
    omega
  have hnodup : (((run start 7).filter fun d =>
      weekdays.elements.contains (weekday d)).map weekday).Nodup := by
    refine List.Nodup.map_on ?_ ((Ascending.nodup (run_ascending start 7)).filter _)
    intro a ha b hb hab
    have ha' := (hweek a).1 (List.mem_of_mem_filter ha)
    have hb' := (hweek b).1 (List.mem_of_mem_filter hb)
    have hmod := weekday_eq_iff.1 hab
    omega
  have hmembers : weekdays.elements.Nodup := by
    refine weekdays.ascending.imp ?_
    rintro a b hab rfl
    exact lt_irrefl _ hab
  have hperm := (List.perm_ext_iff_of_nodup hnodup hmembers).2 (by
    intro w
    simp only [List.mem_map, List.mem_filter, hweek, List.contains_iff_mem]
    constructor
    · rintro ⟨d, ⟨-, hd⟩, rfl⟩
      exact hd
    · intro hw
      have hnumber := w.number_lt
      have hsame : weekday (start + (w.number - start - 4) % 7) = w := by
        refine Weekday.number_injective ?_
        rw [number_weekday]
        unfold weekdayNumber
        omega
      refine ⟨start + (w.number - start - 4) % 7, ⟨⟨by omega, by omega⟩, ?_⟩, hsame⟩
      rw [hsame]
      exact hw)
  have hlength := hperm.length_eq
  rw [List.length_map] at hlength
  exact hlength

private theorem length_days_weekly (hf : p.rule.frequency = .weekly)
    (hk : p.periodEnd k ≤ lastDay) (hdates : p.rule.hasDateFilters = false)
    (hweeks : p.rule.weekNumbers = ∅) : (p.days k).length = max p.rule.weekdays.size 1 := by
  have hroom : p.periodStart k + 7 ≤ lastDay := by
    have hspan : p.periodEnd k = p.periodStart k + 7 := by
      simp only [periodEnd, periodStart, hf, Frequency.unitStart]
      omega
    omega
  have hchosen : ∀ d, p.rule.choosesDay d =
      (p.rule.weekdays.isEmpty || p.rule.weekdays.elements.contains (weekday d)) := by
    intro d
    simp [Rule.choosesDay, hdates, SortedSet.isEmpty_iff.2 hweeks]
  have hfirst := p.unit_zero
  rw [days_of_ended hk]
  unfold unitDays
  simp only [hf]
  by_cases hw : p.rule.weekdays = ∅
  · have hempty := SortedSet.isEmpty_iff.2 hw
    have hsize : p.rule.weekdays.size = 0 := by rw [hw]; rfl
    have hday : p.periodStart k + (p.anchor.day - p.periodStart 0) ≤ lastDay := by
      have hanchor := (Frequency.unitOf_bounds .weekly p.rule.weekStart p.anchor.day).2
      unfold unitOf at hfirst
      rw [hf] at hfirst
      simp only [periodStart, hf, hfirst, Frequency.unitStart] at hanchor hroom ⊢
      omega
    rw [if_pos hempty, hsize]
    unfold single
    rw [if_pos hday]
    simp [hchosen, hempty]
  · have hnonempty := SortedSet.isEmpty_eq_false_iff.2 hw
    have hsize : 1 ≤ p.rule.weekdays.size := by
      unfold SortedSet.size
      unfold SortedSet.isEmpty at hnonempty
      exact List.length_pos_iff.2 (List.isEmpty_eq_false_iff.1 hnonempty)
    rw [hnonempty, if_neg (by simp), max_eq_left hsize,
      ← length_filter_week (p.periodStart k) p.rule.weekdays hroom]
    congr 1
    refine List.filter_congr fun d _ => ?_
    rw [hchosen, hnonempty, Bool.false_or]

private theorem length_days_yearly (hf : p.rule.frequency = .yearly)
    (hk : p.periodEnd k ≤ lastDay) (hr : p.rule.hasDayFilters = false)
    (hm : p.rule.months ≠ ∅) :
    (p.days k).length = (p.rule.months.elements.filter fun n => 1 ≤ n.val ∧ n.val ≤ 12).length := by
  obtain ⟨hweekdays, hmonthDays, hyearDays, hweeks⟩ := Rule.hasDayFilters_eq_false_iff.1 hr
  have hanchor := date_bounds p.anchor.day
  rw [days_of_ended hk, List.filter_eq_self.2]
  · simp [unitDays, hf, hr, SortedSet.isEmpty_eq_false_iff.2 hm]
  · intro d hd
    obtain ⟨-, hday⟩ := (mem_unitDays_yearly hf).1 hd
    rw [if_neg (by simp [hr]), if_neg hm] at hday
    have hdates : p.rule.choosesDate (date d) = true := by
      rw [Rule.choosesDate_iff]
      exact ⟨Or.inr hday.2, Or.inl hmonthDays, Or.inl hyearDays⟩
    simp [Rule.choosesDay, SortedSet.isEmpty_iff.2 hweekdays, SortedSet.isEmpty_iff.2 hweeks,
      hdates]

private theorem length_days_of_daysPerPeriod? {n : Nat} (hn : p.daysPerPeriod? = some n)
    (hk : p.periodEnd k ≤ lastDay) : (p.days k).length = n := by
  have hall : p.rule.hasDayFilters = false → p.rule.months = ∅ →
      (p.days k).length = (p.unitDays k).length := by
    intro hr hm
    rw [days_of_ended hk, List.filter_eq_self.2 fun d _ => Rule.choosesDay_of_no_filters hr hm d]
  unfold daysPerPeriod? at hn
  cases hf : p.rule.frequency with
  | daily =>
    simp only [hf, Option.ite_none_right_eq_some, Option.some.injEq, Bool.and_eq_true,
      Bool.not_eq_true', SortedSet.isEmpty_iff] at hn
    rw [hall hn.1.1 hn.1.2, length_unitDays_daily hf]
    exact hn.2
  | weekly =>
    simp only [hf, Option.ite_none_right_eq_some, Option.some.injEq, Bool.and_eq_true] at hn
    obtain ⟨⟨⟨⟨hmonths, hmonthDays⟩, hyearDays⟩, hweeks⟩, rfl⟩ := hn
    refine length_days_weekly hf hk ?_ (SortedSet.isEmpty_iff.1 hweeks)
    simp [Rule.hasDateFilters, hmonths, hmonthDays, hyearDays]
  | monthly =>
    simp only [hf, Option.ite_none_right_eq_some, Option.some.injEq, Bool.and_eq_true,
      Bool.not_eq_true', SortedSet.isEmpty_iff] at hn
    rw [hall hn.1.1 hn.1.2, length_unitDays_monthly hf hn.1.1]
    exact hn.2
  | yearly =>
    simp only [hf, Option.ite_none_left_eq_some, Bool.not_eq_true] at hn
    obtain ⟨hr, hn⟩ := hn
    by_cases hm : p.rule.months = ∅
    · rw [if_pos (SortedSet.isEmpty_iff.2 hm), Option.some.injEq] at hn
      rw [hall hr hm]
      simp [unitDays, hf, hr, SortedSet.isEmpty_iff.2 hm, hn]
    · rw [if_neg (mt SortedSet.isEmpty_iff.1 hm), Option.some.injEq] at hn
      rw [length_days_yearly hf hk hr hm, hn]

theorem anchor_day_lt_of_mem_days {d : Int} (hk : 1 ≤ k) (hd : d ∈ p.days k) :
    p.anchor.day < d := by
  have hunit := unitOf_of_mem_days hd
  refine day_lt_of_unitOf_lt (p := p) ?_
  rw [hunit, ← p.unit_zero]
  exact p.unit_lt_iff.2 hk

private theorem length_candidates_of_pos (hk : 1 ≤ k) :
    (p.candidates k).length = (p.days k).length * p.times.length := by
  have hafter : ∀ c ∈ (p.days k).flatMap fun d => p.times.map fun t => (⟨d, t⟩ : Instant),
      decide (p.anchor ≤ c) = true := by
    intro c hc
    obtain ⟨d, hd, hc⟩ := List.mem_flatMap.1 hc
    obtain ⟨t, -, rfl⟩ := List.mem_map.1 hc
    exact decide_eq_true (le_of_lt (Instant.lt_of_day_lt (anchor_day_lt_of_mem_days hk hd)))
  unfold candidates
  rw [List.filter_eq_self.2 hafter, List.length_flatMap]
  simp

theorem length_candidates_of_cardinality? {size : Nat} (hsize : p.cardinality? = some size)
    (hk : 1 ≤ k) (hend : p.periodEnd k ≤ lastDay) : (p.candidates k).length = size := by
  unfold cardinality? at hsize
  obtain ⟨n, hn, rfl⟩ := Option.map_eq_some_iff.1 hsize
  rw [length_candidates_of_pos hk, length_days_of_daysPerPeriod? hn hend]

theorem length_enumerate_of_length {size n : Nat}
    (hall : ∀ j, k ≤ j → j < k + n → (p.candidates j).length = size) :
    (p.enumerate k n).length = n * size := by
  induction n generalizing k with
  | zero => simp [enumerate_zero]
  | succ n ih =>
    rw [enumerate_succ, List.length_append, hall k le_rfl (by omega),
      ih fun j hj hlast => hall j (by omega) (by omega), Nat.succ_mul, Nat.add_comm]

theorem periodEnd_le_of_periodStart_le {n : Nat} (hn : p.periodStart n ≤ lastDay) :
    ∀ j < n, p.periodEnd j ≤ lastDay := by
  intro j hj
  exact ((p.periodEnd_le_periodStart_succ j).trans (p.periodStart_mono hj)).trans hn

private theorem length_enumerate_of_cardinality? {size n : Nat} (hsize : p.cardinality? = some size)
    (hk : 1 ≤ k) (hend : ∀ j < k + n, p.periodEnd j ≤ lastDay) :
    (p.enumerate k n).length = n * size :=
  length_enumerate_of_length fun j hj hlast =>
    length_candidates_of_cardinality? hsize (hk.trans hj) (hend j hlast)

theorem length_enumerate_add_mul {size later : Nat} (hsize : p.cardinality? = some size)
    (hend : ∀ j < later + 1, p.periodEnd j ≤ lastDay) :
    (p.enumerate 0 (later + 1)).length = (p.candidates 0).length + later * size := by
  have hrest := length_enumerate_of_cardinality? (n := later) hsize le_rfl
    fun j hj => hend j (by omega)
  rw [enumerate_succ, List.length_append, hrest]

private theorem length_enumerate_mono (p : Pattern) (k : Nat) {m n : Nat} (hmn : m ≤ n) :
    (p.enumerate k m).length ≤ (p.enumerate k n).length := by
  obtain ⟨more, rfl⟩ := Nat.exists_eq_add_of_le hmn
  rw [enumerate_append, List.length_append]
  exact Nat.le_add_right _ _

theorem tally_eq_length (p : Pattern) (limit : Option Nat) (n k total : Nat) :
    ∃ m ≤ n, p.tally limit n k total = total + (p.enumerate k m).length ∧
      (m = n ∨ ∃ l, limit = some l ∧ l < p.tally limit n k total) := by
  induction n generalizing k total with
  | zero => exact ⟨0, le_rfl, rfl, Or.inl rfl⟩
  | succ n ih =>
    unfold tally
    split
    · rename_i hstop
      obtain ⟨l, hl, hlt⟩ := (Option.any_eq_true _ _).1 hstop
      exact ⟨0, Nat.zero_le _, rfl, Or.inr ⟨l, hl, of_decide_eq_true hlt⟩⟩
    · obtain ⟨m, hm, hsum, hover⟩ := ih (k + 1) (total + (p.candidates k).length)
      refine ⟨m + 1, Nat.succ_le_succ hm, ?_, hover.imp_left (congrArg Nat.succ)⟩
      rw [hsum, enumerate_succ, List.length_append, Nat.add_assoc]

theorem tally_none (p : Pattern) (n k total : Nat) :
    p.tally none n k total = total + (p.enumerate k n).length := by
  obtain ⟨m, -, hsum, rfl | ⟨l, hl, -⟩⟩ := p.tally_eq_length none n k total
  · exact hsum
  · cases hl

/-- The candidates counted before a period are those of all earlier periods, or, once they exceed the
limit, of the first so many of them. Multiplying never stops early. -/
theorem countInPeriods_eq_length (limit : Option Nat) {n : Nat}
    (hend : ∀ j < n, p.periodEnd j ≤ lastDay) :
    ∃ m ≤ n, p.countInPeriods limit n = (p.enumerate 0 m).length ∧
      (m = n ∨ ∃ l, limit = some l ∧ l < p.countInPeriods limit n) := by
  cases n with
  | zero => exact ⟨0, le_rfl, rfl, Or.inl rfl⟩
  | succ later =>
    unfold countInPeriods
    cases hsize : p.cardinality? with
    | none =>
      obtain ⟨m, hm, hsum, hover⟩ := p.tally_eq_length limit later 1 (p.candidates 0).length
      refine ⟨m + 1, Nat.succ_le_succ hm, ?_, hover.imp_left (congrArg Nat.succ)⟩
      rw [enumerate_succ, List.length_append]
      exact hsum
    | some size =>
      exact ⟨later + 1, le_rfl, (length_enumerate_add_mul hsize hend).symm, Or.inl rfl⟩

theorem countInPeriods_none {n : Nat} (hend : ∀ j < n, p.periodEnd j ≤ lastDay) :
    p.countInPeriods none n = (p.enumerate 0 n).length := by
  obtain ⟨m, -, hsum, rfl | ⟨l, hl, -⟩⟩ := countInPeriods_eq_length none hend
  · exact hsum
  · cases hl

theorem sub_countInPeriods {n : Nat} (count : Nat) (hn : p.periodStart n ≤ lastDay) :
    count - p.countInPeriods (some count) n = count - (p.enumerate 0 n).length := by
  obtain ⟨m, hm, hsum, rfl | ⟨l, hl, hlt⟩⟩ :=
    countInPeriods_eq_length (some count) (periodEnd_le_of_periodStart_le hn)
  · rw [hsum]
  · have hcount : count = l := Option.some.inj hl
    have hmore := p.length_enumerate_mono 0 hm
    omega

end Pattern

end Recurrence
