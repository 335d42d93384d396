import Recurrence.CalendarUnit.Lemmas
import Recurrence.Proofs.ClockTimes

set_option autoImplicit false
set_option relaxedAutoImplicit false

/-!
The days of a period: within the calendar, save its last day, they are the days of its unit that the
rule admits, and they stand in order.
-/

namespace Recurrence

open Calendar

namespace Calendar

theorem number_weekday (d : Int) : (weekday d).number = weekdayNumber d := by
  have hnumber : ∀ n < 7, ((Weekday.ofNumber? n).getD .sunday).number = n := by decide
  exact hnumber _ (by unfold weekdayNumber; omega)

theorem weekday_eq_iff {a b : Int} : weekday a = weekday b ↔ (a + 4) % 7 = (b + 4) % 7 := by
  constructor
  · intro hab
    have hnumber := congrArg Weekday.number hab
    rw [number_weekday, number_weekday] at hnumber
    unfold weekdayNumber at hnumber
    omega
  · intro hab
    unfold weekday weekdayNumber
    rw [hab]

private theorem place?_eq_some_iff {n : Int} {length place : Nat} (hfirst : 1 ≤ place)
    (hlast : place ≤ length) :
    place? n length = some place ↔ n = place ∨ n = place - (length + 1 : Int) := by
  unfold place?
  simp only
  split <;> split <;> simp only [Option.some.injEq, reduceCtorEq, false_iff] <;> omega

private theorem dayOfYear_bounds (d : Int) :
    1 ≤ (date d).dayOfYear ∧ (date d).dayOfYear ≤ yearLength (date d).year := by
  have hplace := dayOfYear_date d
  have hyear := yearOf_bounds d
  have hnext := yearStart_succ (yearOf d)
  rw [year_date]
  omega

private theorem thursday_bounds (d : Int) :
    yearStart (isoWeek d).year ≤ d - (d + 3) % 7 + 3 ∧
      d - (d + 3) % 7 + 3 < yearStart (isoWeek d).year + yearLength (isoWeek d).year ∧
      ((isoWeek d).week : Int) =
        (d - (d + 3) % 7 + 3 - yearStart (isoWeek d).year) / 7 + 1 := by
  have hyear := yearOf_bounds (d - (d + 3) % 7 + 3)
  rw [yearStart_succ] at hyear
  unfold isoWeek
  simp only
  omega

private theorem lastIsoWeek_bounds (year : Int) :
    (lastIsoWeek year = 52 ∨ lastIsoWeek year = 53) ∧
      ∃ thursday, thursday % 7 = 0 ∧ yearStart year + yearLength year ≤ thursday + 7 ∧
        (lastIsoWeek year : Int) = (thursday - yearStart year) / 7 + 1 := by
  have hbefore : (daysBeforeMonth year 12 : Int) + 31 = yearLength year := by
    have hlast := daysBeforeMonth_add_monthLength year (show 1 ≤ 12 by omega) (show 12 ≤ 12 by omega)
    have hlength : monthLength year 12 = 31 := rfl
    rw [if_pos rfl] at hlast
    omega
  have hleap := leapDays_le_one year
  have hlength : yearLength year = 365 + leapDays year := rfl
  have hday : day year 12 28 = yearStart year + yearLength year - 4 := by
    unfold day
    omega
  have hnext := yearStart_succ year
  have hyear : yearOf (day year 12 28 - (day year 12 28 + 3) % 7 + 3) = year := by
    rw [yearOf_eq_iff]
    omega
  have hiso : (isoWeek (day year 12 28)).year = year := hyear
  have hthursday := thursday_bounds (day year 12 28)
  rw [hiso] at hthursday
  unfold lastIsoWeek
  refine ⟨by omega, day year 12 28 - (day year 12 28 + 3) % 7 + 3, by omega, by omega, ?_⟩
  exact hthursday.2.2

private theorem isoWeek_bounds (d : Int) :
    1 ≤ (isoWeek d).week ∧ (isoWeek d).week ≤ lastIsoWeek (isoWeek d).year := by
  have hthursday := thursday_bounds d
  obtain ⟨-, thursday, hmod, hend, hlast⟩ := lastIsoWeek_bounds (isoWeek d).year
  omega

private theorem isoWeeks_eq {year : Int} (hlow : firstYear - 1 ≤ year)
    (hhigh : year ≤ lastYear + 1) : isoWeeks year = lastIsoWeek year := by
  have hlast := (lastIsoWeek_bounds year).1
  have hbefore : lastIsoWeek (firstYear - 1) = 52 := by decide
  have hafter : lastIsoWeek (lastYear + 1) = 52 := by decide
  unfold isoWeeks
  change (if firstYear ≤ year ∧ year ≤ lastYear ∧ lastIsoWeek year = 53 then 53 else 52) = _
  split
  · rename_i h53
    exact h53.2.2.symm
  · rename_i h52
    rcases hlast with h | h
    · exact h.symm
    · by_cases hfirst : year = firstYear - 1
      · rw [hfirst, hbefore]
      · by_cases hnext : year = lastYear + 1
        · rw [hnext, hafter]
        · exact absurd ⟨by omega, by omega, h⟩ h52

private theorem isoWeek_year_bounds {d : Int} (hlow : firstDay ≤ d) (hhigh : d ≤ lastDay) :
    firstYear - 1 ≤ (isoWeek d).year ∧ (isoWeek d).year ≤ lastYear + 1 := by
  have hfirst : yearStart (firstYear - 1) + 7 ≤ firstDay := by decide
  have hlast : lastDay + 7 < yearStart (lastYear + 1 + 1) := by decide
  constructor
  · exact yearStart_le_day_iff.1 (by omega)
  · exact Int.lt_add_one_iff.1 (lt_yearStart_iff.1 (by omega))

theorem eq_clampedDay_iff {year d : Int} {month dayOfMonth : Nat} (hlow : 1 ≤ month)
    (hhigh : month ≤ 12) (hday : 1 ≤ dayOfMonth) :
    d = clampedDay year month dayOfMonth ↔
      (date d).year = year ∧ (date d).month = month ∧
        (date d).dayOfMonth = min dayOfMonth (monthLength year month) := by
  have hlength := monthLength_bounds year month
  constructor
  · rintro rfl
    unfold clampedDay
    rw [date_day hlow hhigh (by omega) (by omega)]
    exact ⟨rfl, rfl, rfl⟩
  · rintro ⟨hyear, hmonth, hplace⟩
    have hnamed := day_date d
    rw [hyear, hmonth, hplace] at hnamed
    exact hnamed.symm

end Calendar

namespace Rule

private theorem choosesPlace_iff {low high : Int} {s : SortedSet (BoundedInt low high)}
    {length place : Nat} (hfirst : 1 ≤ place) (hlast : place ≤ length) :
    choosesPlace s length place = true ↔ Names s length place := by
  unfold choosesPlace Names
  rw [Bool.or_eq_true, SortedSet.isEmpty_iff, List.any_eq_true]
  simp only [beq_iff_eq, place?_eq_some_iff hfirst hlast, SortedSet.mem_elements]

theorem choosesDate_iff (r : Rule) (d : Int) :
    r.choosesDate (date d) = true ↔
      (r.months = ∅ ∨ ∃ n ∈ r.months, n.val = (date d).month) ∧
      Names r.monthDays (monthLength (date d).year (date d).month) (date d).dayOfMonth ∧
      Names r.yearDays (yearLength (date d).year) (date d).dayOfYear := by
  have hdate := date_bounds d
  have hyear := dayOfYear_bounds d
  unfold choosesDate
  rw [Bool.and_eq_true, Bool.and_eq_true, choosesPlace_iff hdate.2.2.1 hdate.2.2.2,
    choosesPlace_iff hyear.1 hyear.2, Bool.or_eq_true, SortedSet.isEmpty_iff, List.any_eq_true]
  simp only [beq_iff_eq, SortedSet.mem_elements, and_assoc]

private theorem choosesDate_of_not_hasDateFilters {r : Rule} (hr : r.hasDateFilters = false)
    (date : Date) : r.choosesDate date = true := by
  unfold hasDateFilters at hr
  simp only [Bool.or_eq_false_iff, Bool.not_eq_false'] at hr
  obtain ⟨⟨hmonths, hmonthDays⟩, hyearDays⟩ := hr
  simp [choosesDate, choosesPlace, hmonths, hmonthDays, hyearDays]

theorem choosesDay_iff (r : Rule) {d : Int} (hlow : firstDay ≤ d) (hhigh : d ≤ lastDay) :
    r.choosesDay d = true ↔ r.AdmitsDay d := by
  have hyear := isoWeek_year_bounds hlow hhigh
  have hweek := isoWeek_bounds d
  have hdates : (!r.hasDateFilters || r.choosesDate (date d)) = true ↔
      r.choosesDate (date d) = true := by
    cases hr : r.hasDateFilters
    · simp [choosesDate_of_not_hasDateFilters hr]
    · simp
  have hweeks : (r.weekNumbers.isEmpty || r.choosesWeek (isoWeek d)) = true ↔
      Names r.weekNumbers (lastIsoWeek (isoWeek d).year) (isoWeek d).week := by
    unfold choosesWeek
    rw [isoWeeks_eq hyear.1 hyear.2, Bool.or_eq_true, choosesPlace_iff hweek.1 hweek.2,
      SortedSet.isEmpty_iff]
    exact ⟨fun h => h.elim Or.inl id, Or.inr⟩
  unfold choosesDay
  rw [Bool.and_eq_true, Bool.and_eq_true, hdates, hweeks, choosesDate_iff, Bool.or_eq_true,
    SortedSet.isEmpty_iff, List.contains_iff_mem, SortedSet.mem_elements]
  constructor
  · rintro ⟨⟨hweekday, hmonth, hmonthDay, hyearDay⟩, hweek⟩
    exact ⟨hmonth, hweekday, hmonthDay, hyearDay, hweek⟩
  · rintro ⟨hmonth, hweekday, hmonthDay, hyearDay, hweek⟩
    exact ⟨⟨hweekday, hmonth, hmonthDay, hyearDay⟩, hweek⟩

theorem hasDayFilters_eq_false_iff {r : Rule} :
    r.hasDayFilters = false ↔
      r.weekdays = ∅ ∧ r.monthDays = ∅ ∧ r.yearDays = ∅ ∧ r.weekNumbers = ∅ := by
  unfold hasDayFilters
  simp only [Bool.or_eq_false_iff, Bool.not_eq_false', SortedSet.isEmpty_iff, and_assoc]

end Rule

namespace Frequency

private theorem unitOf_eq_iff {frequency : Frequency} {weekStart : Weekday} {unit d : Int} :
    frequency.unitOf weekStart d = unit ↔
      frequency.unitStart weekStart unit ≤ d ∧ d < frequency.unitStart weekStart (unit + 1) := by
  have hbegun := @unitStart_le_iff frequency weekStart unit d
  have hnext := @unitStart_le_iff frequency weekStart (unit + 1) d
  omega

end Frequency

namespace Pattern

variable {p : Pattern} {k : Nat} {d : Int}

theorem mem_run {start : Int} {count : Nat} :
    d ∈ run start count ↔ start ≤ d ∧ d < start + count ∧ d < lastDay := by
  unfold run
  rw [List.mem_map]
  constructor
  · rintro ⟨i, hi, rfl⟩
    have hlt := List.mem_range.1 hi
    omega
  · intro hd
    exact ⟨(d - start).toNat, List.mem_range.2 (by omega), by omega⟩

theorem run_ascending (start : Int) (count : Nat) : (run start count).Pairwise (· < ·) := by
  unfold run
  rw [List.pairwise_map]
  refine List.pairwise_lt_range.imp ?_
  intro i j hij
  omega

private theorem mem_single {day : Int} : d ∈ single day ↔ d = day ∧ day ≤ lastDay := by
  unfold single
  split <;> simp_all

private theorem mem_unitDays_daily (hf : p.rule.frequency = .daily) :
    d ∈ p.unitDays k ↔ p.unitOf d = p.unit k := by
  unfold unitDays periodStart unitOf
  simp [hf, Frequency.unitStart, Frequency.unitOf]

theorem mem_unitDays_weekly (hf : p.rule.frequency = .weekly) :
    d ∈ p.unitDays k ↔ p.unitOf d = p.unit k ∧
      if p.rule.weekdays = ∅ then weekday d = weekday p.anchor.day ∧ d ≤ lastDay
      else d < lastDay := by
  have hfirst : p.unit 0 = (p.anchor.day + 4 - p.rule.weekStart.number) / 7 := by
    simp [unit, unitOf, hf, Frequency.unitOf]
  unfold unitDays periodStart unitOf
  simp only [hf, Frequency.unitStart, Frequency.unitOf]
  by_cases hw : p.rule.weekdays = ∅
  · rw [if_pos (SortedSet.isEmpty_iff.2 hw), if_pos hw, mem_single, weekday_eq_iff]
    omega
  · rw [if_neg (mt SortedSet.isEmpty_iff.1 hw), if_neg hw, mem_run]
    omega

theorem mem_unitDays_monthly (hf : p.rule.frequency = .monthly) :
    d ∈ p.unitDays k ↔ p.unitOf d = p.unit k ∧
      if p.rule.hasDayFilters then d < lastDay else Rule.OnAnchorsDay p.anchor.day d := by
  have hunit : p.unitOf d = p.unit k ↔ (date d).year = p.unit k / 12 ∧
      (date d).month = (p.unit k % 12).toNat + 1 := by
    have hdate := date_bounds d
    unfold unitOf
    simp only [hf, Frequency.unitOf]
    omega
  unfold unitDays
  simp only [hf]
  by_cases hr : p.rule.hasDayFilters = true
  · have hstep := Frequency.monthStart_succ (p.unit k)
    rw [if_pos hr, if_pos hr, mem_run]
    unfold periodStart unitOf
    rw [hf, Frequency.unitOf_eq_iff]
    change Frequency.unitStart .monthly .monday (p.unit k) ≤ d ∧ _ ↔
      (Frequency.unitStart .monthly .monday (p.unit k) ≤ d ∧
        d < Frequency.unitStart .monthly .monday (p.unit k + 1)) ∧ _
    change _ ∧ d < Frequency.unitStart .monthly .monday (p.unit k) + _ ∧ _ ↔ _
    omega
  · have hanchor := date_bounds p.anchor.day
    rw [if_neg hr, if_neg hr, List.mem_singleton,
      eq_clampedDay_iff (by omega) (by omega) hanchor.2.2.1, hunit, and_assoc]
    refine and_congr_right fun hyear => and_congr_right fun hmonth => ?_
    unfold Rule.OnAnchorsDay
    rw [hyear, hmonth]

theorem mem_unitDays_yearly (hf : p.rule.frequency = .yearly) :
    d ∈ p.unitDays k ↔ p.unitOf d = p.unit k ∧
      if p.rule.hasDayFilters then d < lastDay
      else Rule.OnAnchorsDay p.anchor.day d ∧
        if p.rule.months = ∅ then (date d).month = (date p.anchor.day).month
        else ∃ n ∈ p.rule.months, n.val = (date d).month := by
  have hunit : p.unitOf d = p.unit k ↔ (date d).year = p.unit k := by
    simp [unitOf, hf, Frequency.unitOf, year_date]
  have hanchor := date_bounds p.anchor.day
  unfold unitDays
  simp only [hf]
  by_cases hr : p.rule.hasDayFilters = true
  · have hstep := yearStart_succ (p.unit k)
    rw [if_pos hr, if_pos hr, mem_run]
    unfold periodStart unitOf
    rw [hf, Frequency.unitOf_eq_iff]
    simp only [Frequency.unitStart]
    omega
  · rw [if_neg hr, if_neg hr, hunit]
    by_cases hm : p.rule.months = ∅
    · rw [if_pos (SortedSet.isEmpty_iff.2 hm), if_pos hm, List.mem_singleton,
        eq_clampedDay_iff hanchor.1 hanchor.2.1 hanchor.2.2.1]
      refine and_congr_right fun hyear => ?_
      unfold Rule.OnAnchorsDay
      rw [hyear, and_comm]
      refine and_congr_left fun hmonth => ?_
      rw [hmonth]
    · rw [if_neg (mt SortedSet.isEmpty_iff.1 hm), if_neg hm, List.mem_map]
      have hdate := date_bounds d
      constructor
      · rintro ⟨n, hn, rfl⟩
        rw [List.mem_filter, decide_eq_true_eq] at hn
        obtain ⟨hyear, hmonth, hplace⟩ :=
          (eq_clampedDay_iff (by omega) (by omega) hanchor.2.2.1).1 (Eq.refl
            (clampedDay (p.unit k) n.val.toNat (date p.anchor.day).dayOfMonth))
        refine ⟨hyear, ?_, n, hn.1, by omega⟩
        unfold Rule.OnAnchorsDay
        rw [hplace, hyear, hmonth]
      · rintro ⟨hyear, hplace, n, hn, hmonth⟩
        refine ⟨n, List.mem_filter.2 ⟨hn, by rw [decide_eq_true_eq]; omega⟩, ?_⟩
        symm
        rw [eq_clampedDay_iff (by omega) (by omega) hanchor.2.2.1]
        unfold Rule.OnAnchorsDay at hplace
        have hval : n.val.toNat = (date d).month := by omega
        rw [hval, ← hyear]
        exact ⟨rfl, rfl, hplace⟩

theorem unitOf_of_mem_days (hd : d ∈ p.days k) : p.unitOf d = p.unit k := by
  unfold days at hd
  split at hd
  · have hmem := List.mem_of_mem_filter hd
    cases hf : p.rule.frequency with
    | daily => exact (mem_unitDays_daily hf).1 hmem
    | weekly => exact ((mem_unitDays_weekly hf).1 hmem).1
    | monthly => exact ((mem_unitDays_monthly hf).1 hmem).1
    | yearly => exact ((mem_unitDays_yearly hf).1 hmem).1
  · simp at hd

private theorem mem_unitDays_and_admitsDay_iff (hd : d < lastDay) :
    d ∈ p.unitDays k ∧ p.rule.AdmitsDay d ↔
      p.unitOf d = p.unit k ∧ p.rule.DefaultDay p.anchor.day d ∧ p.rule.AdmitsDay d := by
  rw [← and_assoc]
  refine and_congr_left fun hadmits => ?_
  unfold Rule.DefaultDay
  cases hf : p.rule.frequency with
  | daily => simp [mem_unitDays_daily hf]
  | weekly =>
    rw [mem_unitDays_weekly hf]
    refine and_congr_right fun _ => ?_
    by_cases hw : p.rule.weekdays = ∅ <;> simp [hw, hd, le_of_lt hd]
  | monthly =>
    rw [mem_unitDays_monthly hf]
    refine and_congr_right fun _ => ?_
    cases hr : p.rule.hasDayFilters <;> simp [hd]
  | yearly =>
    rw [mem_unitDays_yearly hf]
    refine and_congr_right fun _ => ?_
    have hmonth := hadmits.month
    cases hr : p.rule.hasDayFilters
    · by_cases hm : p.rule.months = ∅
      · simp [hm]
      · simpa [hm] using fun _ => hmonth.resolve_left hm
    · simp [hd]

/-- Within the calendar, save its last day, the days of a period are the days of its unit that the
rule admits. -/
theorem mem_days_iff (hlow : firstDay ≤ d) (hhigh : d < lastDay) :
    d ∈ p.days k ↔
      p.unitOf d = p.unit k ∧ p.rule.DefaultDay p.anchor.day d ∧ p.rule.AdmitsDay d := by
  constructor
  · intro hd
    unfold days at hd
    split at hd
    · obtain ⟨hmem, hchosen⟩ := List.mem_filter.1 hd
      exact (mem_unitDays_and_admitsDay_iff hhigh).1
        ⟨hmem, (Rule.choosesDay_iff _ hlow hhigh.le).1 hchosen⟩
    · simp at hd
  · intro hd
    obtain ⟨hmem, hadmits⟩ := (mem_unitDays_and_admitsDay_iff hhigh).2 hd
    have hbegun : p.periodStart k ≤ d := Frequency.unitStart_le_iff.2 hd.1.ge
    unfold days
    rw [if_pos (by omega), List.mem_filter]
    exact ⟨hmem, (Rule.choosesDay_iff _ hlow hhigh.le).2 hadmits⟩

private theorem clampedDay_lt {year : Int} {a b dayOfMonth : Nat} (hlow : 1 ≤ a) (hab : a < b)
    (hhigh : b ≤ 12) (hday : 1 ≤ dayOfMonth) :
    clampedDay year a dayOfMonth < clampedDay year b dayOfMonth := by
  have hmono := daysBeforeMonth_mono year hlow hab hhigh
  have hlength := monthLength_bounds year b
  unfold clampedDay day
  omega

private theorem unitDays_ascending (p : Pattern) (k : Nat) : (p.unitDays k).Pairwise (· < ·) := by
  have hanchor := date_bounds p.anchor.day
  unfold unitDays
  cases p.rule.frequency with
  | daily => exact List.pairwise_singleton _ _
  | weekly =>
    simp only
    split
    · unfold single
      split
      · exact List.pairwise_singleton _ _
      · exact List.Pairwise.nil
    · exact run_ascending _ _
  | monthly =>
    simp only
    split
    · exact run_ascending _ _
    · exact List.pairwise_singleton _ _
  | yearly =>
    simp only
    split
    · exact run_ascending _ _
    · split
      · exact List.pairwise_singleton _ _
      · rw [List.pairwise_map]
        refine (p.rule.months.ascending.filter _).imp_of_mem ?_
        intro m n hm hn hlt
        have hmvalid := (List.mem_filter.1 hm).2
        have hnvalid := (List.mem_filter.1 hn).2
        rw [decide_eq_true_eq] at hmvalid hnvalid
        change m.val < n.val at hlt
        exact clampedDay_lt (by omega) (by omega) (by omega) hanchor.2.2.1

theorem days_ascending (p : Pattern) (k : Nat) : (p.days k).Pairwise (· < ·) := by
  unfold days
  split
  · exact (unitDays_ascending p k).filter _
  · exact List.Pairwise.nil

end Pattern

end Recurrence
