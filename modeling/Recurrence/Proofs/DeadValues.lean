import Recurrence.Proofs.AlikePatterns
import Recurrence.Proofs.Expansion
import Recurrence.Rule.Fault

set_option autoImplicit false
set_option relaxedAutoImplicit false

/-!
Values that are out of range. What the check of a rule reports never matches a day or a time of day,
wherever it enters: the tests of days, the months of a year, the times of a day, the size of
periods. A rule and what is left of it without these values have the same periods with the same
candidates, so that expanding, counting and searching cannot tell them apart; and if nothing is left
of a set, there are no candidates.
-/

namespace Recurrence

open Calendar

namespace SortedSet

universe u

variable {α : Type u} [Ranked α]

def filter (keep : α → Bool) (s : SortedSet α) : SortedSet α :=
  ⟨s.elements.filter keep, s.ascending.filter keep⟩

theorem mem_filter {keep : α → Bool} {s : SortedSet α} {a : α} :
    a ∈ s.filter keep ↔ a ∈ s ∧ keep a = true := List.mem_filter

end SortedSet

instance : IsStrictOrder TimeOfDay (· < ·) where
  irrefl a haa := by
    rw [TimeOfDay.lt_iff] at haa
    omega
  trans a b c hab hbc := by
    rw [TimeOfDay.lt_iff] at *
    omega

namespace Calendar

private theorem isoWeeks_le (year : Int) : isoWeeks year ≤ 53 := by
  unfold isoWeeks
  split_ifs <;> omega

end Calendar

namespace NumberField

variable {low high : Int} {field : NumberField} {s : SortedSet (BoundedInt low high)} {n : Int}
  {test : BoundedInt low high → Bool}

def meaningful (field : NumberField) (s : SortedSet (BoundedInt low high)) :
    SortedSet (BoundedInt low high) := s.filter fun n => field.admits n.val

private theorem admits_iff (hfield : field.countsFromEnd = false) :
    field.admits n = true ↔ field.least ≤ n ∧ n ≤ field.greatest := by
  simp [admits, hfield]

private theorem admits_of_place? {length place : Nat} (hfield : field.countsFromEnd = true)
    (hlength : length ≤ field.greatest) (h : place? n length = some place) :
    field.admits n = true := by
  have hleast : field.least = 1 := by cases field <;> first | rfl | cases hfield
  have hbounds : (n < 0 ∧ 1 ≤ length + n + 1) ∨ (1 ≤ n ∧ n ≤ length) := by
    unfold place? at h
    split_ifs at h <;> simp at h <;> omega
  unfold admits
  simp only [hfield, hleast, Bool.true_and, Bool.and_eq_true, decide_eq_true_eq]
  rcases hbounds with ⟨hneg, hlow⟩ | ⟨hpos, hhigh⟩
  · rw [if_pos hneg]
    omega
  · rw [if_neg (by omega)]
    omega

/-- A test that only meaningful numbers pass chooses among the meaningful members of a set as among
all of them. -/
private theorem any_meaningful (htest : ∀ n, test n = true → field.admits n.val = true) :
    (field.meaningful s).elements.any test = s.elements.any test := by
  change (s.elements.filter fun n => field.admits n.val).any test = _
  rw [List.any_filter]
  congr 1
  funext n
  cases hn : test n with
  | false => rw [Bool.and_false]
  | true => rw [htest n hn, Bool.and_true]

private theorem admits_month (d : Int) : month.admits (date d).month = true := by
  have hdate := date_bounds d
  rw [admits_iff rfl]
  change (1 : Int) ≤ _ ∧ _ ≤ (12 : Int)
  omega

private theorem monthLength_le_greatest (year : Int) (month : Nat) :
    monthLength year month ≤ monthDay.greatest := Int.ofNat_le.2 (monthLength_bounds year month).2

private theorem yearLength_le_greatest (year : Int) : yearLength year ≤ yearDay.greatest :=
  Int.ofNat_le.2 (yearLength_le year)

private theorem isoWeeks_le_greatest (year : Int) : isoWeeks year ≤ weekNumber.greatest :=
  Int.ofNat_le.2 (isoWeeks_le year)

private theorem admits_hour (t : TimeOfDay) : hour.admits t.hour = true := by
  have hlt := t.second_lt
  rw [admits_iff rfl]
  change (0 : Int) ≤ _ ∧ _ ≤ (23 : Int)
  unfold TimeOfDay.hour
  omega

private theorem admits_minute (t : TimeOfDay) : minute.admits t.minute = true := by
  have hlt := t.minute_lt
  rw [admits_iff rfl]
  change (0 : Int) ≤ _ ∧ _ ≤ (59 : Int)
  omega

private theorem admits_second (t : TimeOfDay) : second.admits t.secondOfMinute = true := by
  have hlt := t.secondOfMinute_lt
  rw [admits_iff rfl]
  change (0 : Int) ≤ _ ∧ _ ≤ (59 : Int)
  omega

private theorem vals_meaningful : (field.meaningful s).elements.map (·.val) =
    (s.elements.map (·.val)).filter field.admits := by
  rw [List.filter_map]
  rfl

private theorem mem_meaningful {a : BoundedInt low high} :
    a ∈ field.meaningful s ↔ a ∈ s ∧ field.admits a.val = true := SortedSet.mem_filter

end NumberField

open Recurrence.NumberField

namespace Rule

variable {r : Rule} {field : NumberField} {low high : Int} {s : SortedSet (BoundedInt low high)}
  {length place : Nat}

/-- A rule without the values that are out of range, and with an interval of one in the place of
zero. -/
def mended (r : Rule) : Rule :=
  { r with
    interval := if r.interval.val = 0 then .one else r.interval
    monthDays := monthDay.meaningful r.monthDays
    yearDays := yearDay.meaningful r.yearDays
    weekNumbers := weekNumber.meaningful r.weekNumbers
    months := month.meaningful r.months
    hours := hour.meaningful r.hours
    minutes := minute.meaningful r.minutes
    seconds := second.meaningful r.seconds }

def reported (r : Rule) (field : NumberField) : List Int :=
  match r.fieldFault? field with
  | some (.outOfRange _ values) => values
  | _ => []

private theorem reported_eq (r : Rule) (field : NumberField) :
    r.reported field = (r.numbers field).filter fun value => !field.admits value := by
  unfold reported fieldFault?
  simp only
  cases hvalues : (r.numbers field).filter fun value => !field.admits value <;> simp

private theorem numbers_mended (r : Rule) (field : NumberField) :
    r.mended.numbers field = (r.numbers field).filter field.admits := by
  cases field <;> exact vals_meaningful

private theorem numbers_mended_eq_unreported (r : Rule) (field : NumberField) :
    r.mended.numbers field = (r.numbers field).filter fun value => value ∉ r.reported field := by
  rw [numbers_mended, reported_eq]
  refine List.filter_congr fun value hvalue => ?_
  cases hadmits : field.admits value <;> simp [hadmits, hvalue]

private theorem eq_reported_of_fault? (r : Rule) {values : List Int}
    (h : r.fault? = some (.outOfRange field values)) :
    values = r.reported field := by
  unfold fault? at h
  by_cases hinterval : r.interval.val < 1
  · rw [if_pos hinterval] at h
    cases h
  · rw [if_neg hinterval, Option.or_eq_some_iff] at h
    rcases h with hfound | ⟨-, hcount⟩
    · obtain ⟨other, -, hother⟩ := List.exists_of_findSome?_eq_some hfound
      have hfield : other = field := by
        unfold fieldFault? at hother
        simp only [Option.ite_none_left_eq_some, Option.some.injEq,
          RuleFault.outOfRange.injEq] at hother
        exact hother.2.1
      subst hfield
      unfold reported
      rw [hother]
    · split_ifs at hcount
      cases hcount

private theorem fault?_mended (r : Rule) :
    r.mended.fault? = if r.count.any fun n => n.val = 0 then some .zeroCount else none := by
  have hinterval : ¬ r.mended.interval.val < 1 := by
    have hlow := r.interval.low_le
    unfold mended
    simp only
    split_ifs with hzero
    · decide
    · omega
  have hfields : checkedFields.findSome? r.mended.fieldFault? = none := by
    rw [List.findSome?_eq_none_iff]
    intro field _
    unfold fieldFault?
    simp [numbers_mended, List.filter_filter]
  unfold fault?
  rw [if_neg hinterval, hfields, Option.none_or]
  rfl

/-- Mending leaves something of every set with members. -/
def Keeps (r : Rule) : Prop := ∀ field, r.numbers field ≠ [] → r.mended.numbers field ≠ []

/-- A set has members, all of them reported. -/
def Dead (r : Rule) (field : NumberField) : Prop :=
  r.numbers field ≠ [] ∧ ∀ value ∈ r.numbers field, value ∈ r.reported field

private theorem Keeps.isEmpty_meaningful (h : r.Keeps) (field : NumberField)
    (hs : r.numbers field = s.elements.map (·.val)) :
    (field.meaningful s).isEmpty = s.isEmpty := by
  have hvalues := h field
  rw [numbers_mended, hs, ← vals_meaningful] at hvalues
  unfold SortedSet.isEmpty
  cases helements : s.elements with
  | nil => simp [meaningful, SortedSet.filter, helements]
  | cons a rest =>
    have hleft := hvalues (by simp [helements])
    rw [List.isEmpty_cons, List.isEmpty_eq_false_iff]
    exact fun hnil => hleft (by rw [hnil, List.map_nil])

private theorem Keeps.chooses_eq {test : BoundedInt low high → Bool} (h : r.Keeps)
    (field : NumberField) (hs : r.numbers field = s.elements.map (·.val))
    (htest : ∀ n, test n = true → field.admits n.val = true) :
    ((field.meaningful s).isEmpty || (field.meaningful s).elements.any test) =
      (s.isEmpty || s.elements.any test) := by
  rw [h.isEmpty_meaningful field hs, any_meaningful htest]

private theorem Keeps.choosesPlace_eq (h : r.Keeps) (field : NumberField)
    (hs : r.numbers field = s.elements.map (·.val)) (hfield : field.countsFromEnd = true)
    (hlength : length ≤ field.greatest) :
    choosesPlace (field.meaningful s) length place = choosesPlace s length place := by
  refine h.chooses_eq field hs fun n hn => ?_
  exact admits_of_place? hfield hlength (beq_iff_eq.1 hn)

private theorem Keeps.hasDayFilters_eq (h : r.Keeps) :
    r.mended.hasDayFilters = r.hasDayFilters := by
  unfold Rule.hasDayFilters
  simp only [mended, h.isEmpty_meaningful .monthDay rfl, h.isEmpty_meaningful .yearDay rfl,
    h.isEmpty_meaningful .weekNumber rfl]

private theorem Keeps.hasDateFilters_eq (h : r.Keeps) :
    r.mended.hasDateFilters = r.hasDateFilters := by
  unfold Rule.hasDateFilters
  simp only [mended, h.isEmpty_meaningful .month rfl, h.isEmpty_meaningful .monthDay rfl,
    h.isEmpty_meaningful .yearDay rfl]

private theorem Keeps.choosesDate_eq (h : r.Keeps) (d : Int) :
    r.mended.choosesDate (date d) = r.choosesDate (date d) := by
  refine congrArg₂ and (congrArg₂ and ?_ ?_) ?_
  · exact h.chooses_eq .month rfl fun n hn => beq_iff_eq.1 hn ▸ admits_month d
  · exact h.choosesPlace_eq .monthDay rfl rfl (monthLength_le_greatest _ _)
  · exact h.choosesPlace_eq .yearDay rfl rfl (yearLength_le_greatest _)

private theorem Keeps.choosesDay_eq (h : r.Keeps) (d : Int) :
    r.mended.choosesDay d = r.choosesDay d := by
  have hweeks : r.mended.choosesWeek (isoWeek d) = r.choosesWeek (isoWeek d) :=
    h.choosesPlace_eq .weekNumber rfl rfl (isoWeeks_le_greatest _)
  unfold Rule.choosesDay
  rw [h.hasDateFilters_eq, h.choosesDate_eq, hweeks]
  simp only [mended, h.isEmpty_meaningful .weekNumber rfl]

private theorem Keeps.admitsPart_iff {s : SortedSet Octet} {ofAnchor part : Nat} (h : r.Keeps)
    (field : NumberField) (hs : r.numbers field = s.elements.map (·.val))
    (hpart : field.admits part = true) :
    AdmitsPart (field.meaningful s) ofAnchor part ↔ AdmitsPart s ofAnchor part := by
  have hempty : field.meaningful s = ∅ ↔ s = ∅ := by
    rw [← SortedSet.isEmpty_iff, h.isEmpty_meaningful field hs, SortedSet.isEmpty_iff]
  unfold AdmitsPart
  by_cases hnone : s = ∅
  · rw [if_pos hnone, if_pos (hempty.2 hnone)]
  · rw [if_neg hnone, if_neg (mt hempty.1 hnone)]
    constructor
    · rintro ⟨n, hn, hval⟩
      exact ⟨n, (mem_meaningful.1 hn).1, hval⟩
    · rintro ⟨n, hn, hval⟩
      exact ⟨n, mem_meaningful.2 ⟨hn, hval ▸ hpart⟩, hval⟩

private theorem Keeps.admitsTime_iff {a t : TimeOfDay} (h : r.Keeps) :
    r.mended.AdmitsTime a t ↔ r.AdmitsTime a t := by
  constructor
  · rintro ⟨hhour, hminute, hsecond, hnano⟩
    exact ⟨(h.admitsPart_iff .hour rfl (admits_hour t)).1 hhour,
      (h.admitsPart_iff .minute rfl (admits_minute t)).1 hminute,
      (h.admitsPart_iff .second rfl (admits_second t)).1 hsecond, hnano⟩
  · rintro ⟨hhour, hminute, hsecond, hnano⟩
    exact ⟨(h.admitsPart_iff .hour rfl (admits_hour t)).2 hhour,
      (h.admitsPart_iff .minute rfl (admits_minute t)).2 hminute,
      (h.admitsPart_iff .second rfl (admits_second t)).2 hsecond, hnano⟩

private theorem Keeps.timesOfDay_eq (h : r.Keeps) (a : TimeOfDay) :
    r.mended.timesOfDay a = r.timesOfDay a := by
  refine Ascending.eq_of_mem_iff (timesOfDay_ascending _ _) (timesOfDay_ascending _ _) fun t => ?_
  rw [mem_timesOfDay, mem_timesOfDay, h.admitsTime_iff]

private theorem Dead.not_admits {n : Int} (h : r.Dead field) (hn : n ∈ r.numbers field) :
    field.admits n = false := by
  have hreported := h.2 n hn
  rw [reported_eq, List.mem_filter] at hreported
  simpa using hreported.2

private theorem Dead.not_mem_of_admits {a : BoundedInt low high} (h : r.Dead field)
    (hs : r.numbers field = s.elements.map (·.val)) (ha : field.admits a.val = true) : a ∉ s := by
  intro hmem
  have hnot := h.not_admits (hs ▸ List.mem_map_of_mem hmem)
  rw [ha] at hnot
  cases hnot

private theorem Dead.isEmpty_eq_false (h : r.Dead field)
    (hs : r.numbers field = s.elements.map (·.val)) : s.isEmpty = false := by
  have hvalues := h.1
  rw [hs] at hvalues
  exact List.isEmpty_eq_false_iff.2 fun hnil => hvalues (by rw [hnil, List.map_nil])

private theorem Dead.chooses_eq_false {test : BoundedInt low high → Bool} (h : r.Dead field)
    (hs : r.numbers field = s.elements.map (·.val))
    (htest : ∀ n, test n = true → field.admits n.val = true) :
    (s.isEmpty || s.elements.any test) = false := by
  rw [h.isEmpty_eq_false hs, Bool.false_or, List.any_eq_false]
  exact fun n hn hpass => h.not_mem_of_admits hs (htest n hpass) hn

private theorem Dead.choosesPlace_eq_false (h : r.Dead field)
    (hs : r.numbers field = s.elements.map (·.val))
    (hfield : field.countsFromEnd = true) (hlength : length ≤ field.greatest) :
    choosesPlace s length place = false := by
  refine h.chooses_eq_false hs fun n hn => ?_
  exact admits_of_place? hfield hlength (beq_iff_eq.1 hn)

private theorem Dead.not_admitsPart {s : SortedSet Octet} {ofAnchor part : Nat} (h : r.Dead field)
    (hs : r.numbers field = s.elements.map (·.val)) (hpart : field.admits part = true) :
    ¬ AdmitsPart s ofAnchor part := by
  have hmembers := SortedSet.isEmpty_eq_false_iff.1 (h.isEmpty_eq_false hs)
  unfold AdmitsPart
  rw [if_neg hmembers]
  rintro ⟨n, hn, hval⟩
  exact h.not_mem_of_admits hs (hval ▸ hpart) hn

private theorem Dead.choosesDay_eq_false (h : r.Dead field)
    (hfield : field = .month ∨ field.countsFromEnd = true) (d : Int) : r.choosesDay d = false := by
  have hdates : r.hasDateFilters = true → r.choosesDate (date d) = false →
      r.choosesDay d = false := by
    intro hfilters hdate
    simp [Rule.choosesDay, hfilters, hdate]
  cases field with
  | monthDay =>
    have hempty := h.isEmpty_eq_false (s := r.monthDays) rfl
    have hplace : Rule.choosesPlace r.monthDays (monthLength (date d).year (date d).month)
        (date d).dayOfMonth = false := h.choosesPlace_eq_false rfl rfl (monthLength_le_greatest _ _)
    exact hdates (by simp [hasDateFilters, hempty]) (by simp [choosesDate, hplace])
  | yearDay =>
    have hempty := h.isEmpty_eq_false (s := r.yearDays) rfl
    have hplace : Rule.choosesPlace r.yearDays (yearLength (date d).year)
        (date d).dayOfYear = false := h.choosesPlace_eq_false rfl rfl (yearLength_le_greatest _)
    exact hdates (by simp [hasDateFilters, hempty]) (by simp [choosesDate, hplace])
  | weekNumber =>
    have hempty := h.isEmpty_eq_false (s := r.weekNumbers) rfl
    have hplace : r.choosesWeek (isoWeek d) = false :=
      h.choosesPlace_eq_false rfl rfl (isoWeeks_le_greatest _)
    simp [Rule.choosesDay, hempty, hplace]
  | month =>
    have hempty := h.isEmpty_eq_false (s := r.months) rfl
    have hmonth : (r.months.isEmpty || r.months.elements.any fun n => n.val == (date d).month) =
        false := h.chooses_eq_false rfl fun n hn => beq_iff_eq.1 hn ▸ admits_month d
    exact hdates (by simp [hasDateFilters, hempty]) (by rw [choosesDate, hmonth]; rfl)
  | hour | minute | second => simp [countsFromEnd] at hfield

private theorem Dead.timesOfDay_eq_nil (h : r.Dead field)
    (hfield : field = .hour ∨ field = .minute ∨ field = .second) (a : TimeOfDay) :
    r.timesOfDay a = [] := by
  refine List.eq_nil_iff_forall_not_mem.2 fun t ht => ?_
  obtain ⟨hhour, hminute, hsecond, -⟩ := mem_timesOfDay.1 ht
  rcases hfield with rfl | rfl | rfl
  · exact h.not_admitsPart rfl (admits_hour t) hhour
  · exact h.not_admitsPart rfl (admits_minute t) hminute
  · exact h.not_admitsPart rfl (admits_second t) hsecond

private theorem step_mended (r : Rule) (anchor : Instant) :
    (Pattern.of r.mended anchor).step = (Pattern.of r anchor).step := by
  change max 1 r.mended.interval.val = max 1 r.interval.val
  unfold mended
  simp only
  split_ifs with hzero
  · rw [hzero]
    rfl
  · rfl

private theorem filter_months_mended (r : Rule) :
    (r.mended.months.elements.filter fun n => 1 ≤ n.val ∧ n.val ≤ 12) =
      r.months.elements.filter fun n => 1 ≤ n.val ∧ n.val ≤ 12 := by
  change (r.months.elements.filter fun n => NumberField.month.admits n.val).filter _ = _
  rw [List.filter_filter]
  refine List.filter_congr fun n _ => ?_
  have hadmits : NumberField.month.admits n.val = decide (1 ≤ n.val ∧ n.val ≤ 12) := by
    rw [Bool.eq_iff_iff, decide_eq_true_eq]
    exact admits_iff rfl
  rw [hadmits, Bool.and_self]

private theorem unit_mended (r : Rule) (anchor : Instant) (k : Nat) :
    (Pattern.of r.mended anchor).unit k = (Pattern.of r anchor).unit k := by
  unfold Pattern.unit
  rw [step_mended]
  rfl

private theorem periodStart_mended (r : Rule) (anchor : Instant) (k : Nat) :
    (Pattern.of r.mended anchor).periodStart k = (Pattern.of r anchor).periodStart k := by
  unfold Pattern.periodStart
  rw [unit_mended]
  rfl

private theorem Keeps.unitDays_eq (h : r.Keeps) (anchor : Instant) (k : Nat) :
    (Pattern.of r.mended anchor).unitDays k = (Pattern.of r anchor).unitDays k := by
  have hmonths : r.mended.months.isEmpty = r.months.isEmpty := h.isEmpty_meaningful .month rfl
  have hrule : (Pattern.of r.mended anchor).rule = r.mended := rfl
  unfold Pattern.unitDays
  simp only [unit_mended, periodStart_mended, hrule, hmonths, h.hasDayFilters_eq, filter_months_mended]
  rfl

private theorem Keeps.candidates_eq (h : r.Keeps) (anchor : Instant) (k : Nat) :
    (Pattern.of r.mended anchor).candidates k = (Pattern.of r anchor).candidates k := by
  have hdays : (Pattern.of r.mended anchor).days k = (Pattern.of r anchor).days k := by
    have hchooses : r.mended.choosesDay = r.choosesDay := funext h.choosesDay_eq
    have hrule : (Pattern.of r.mended anchor).rule = r.mended := rfl
    unfold Pattern.days
    rw [h.unitDays_eq, periodStart_mended, hrule, hchooses]
    rfl
  have htimes : (Pattern.of r.mended anchor).times = (Pattern.of r anchor).times :=
    h.timesOfDay_eq anchor.time
  unfold Pattern.candidates
  rw [hdays, htimes]
  rfl

private theorem Keeps.cardinality?_eq (h : r.Keeps) (anchor : Instant) :
    (Pattern.of r.mended anchor).cardinality? = (Pattern.of r anchor).cardinality? := by
  have hdays : (Pattern.of r.mended anchor).daysPerPeriod? = (Pattern.of r anchor).daysPerPeriod? := by
    have hrule : (Pattern.of r.mended anchor).rule = r.mended := rfl
    have hmonths : r.mended.months.isEmpty = r.months.isEmpty := h.isEmpty_meaningful .month rfl
    have hmonthDays : r.mended.monthDays.isEmpty = r.monthDays.isEmpty :=
      h.isEmpty_meaningful .monthDay rfl
    have hyearDays : r.mended.yearDays.isEmpty = r.yearDays.isEmpty :=
      h.isEmpty_meaningful .yearDay rfl
    have hweeks : r.mended.weekNumbers.isEmpty = r.weekNumbers.isEmpty :=
      h.isEmpty_meaningful .weekNumber rfl
    unfold Pattern.daysPerPeriod?
    simp only [hrule, hmonths, hmonthDays, hyearDays, hweeks, h.hasDayFilters_eq, filter_months_mended]
    rfl
  have htimes : (Pattern.of r.mended anchor).times = (Pattern.of r anchor).times :=
    h.timesOfDay_eq anchor.time
  unfold Pattern.cardinality?
  rw [hdays, htimes]

private theorem Keeps.alike (h : r.Keeps) (anchor : Instant) :
    (Pattern.of r.mended anchor).Alike (Pattern.of r anchor) where
  anchor := rfl
  frequency := rfl
  weekStart := rfl
  step := step_mended r anchor
  count := rfl
  ends := rfl
  cardinality := h.cardinality?_eq anchor
  candidates := h.candidates_eq anchor

private theorem Dead.candidates_eq_nil (h : r.Dead field) (anchor : Instant) (k : Nat) :
    (Pattern.of r anchor).candidates k = [] := by
  have hnone : (Pattern.of r anchor).days k = [] ∨ (Pattern.of r anchor).times = [] := by
    by_cases hday : field = .month ∨ field.countsFromEnd = true
    · left
      unfold Pattern.days
      split_ifs
      · rw [List.filter_eq_nil_iff]
        intro d _
        change ¬ r.choosesDay d = true
        rw [h.choosesDay_eq_false hday, Bool.not_eq_true]
      · rfl
    · refine Or.inr (h.timesOfDay_eq_nil ?_ anchor.time)
      cases field <;> simp [countsFromEnd] at hday ⊢
  -- A period has its days at its times, so it suffices that either are none.
  unfold Pattern.candidates
  rcases hnone with hdays | htimes
  · rw [hdays]
    rfl
  · simp [htimes]

end Rule

namespace Series

/-- The check of a rule names the reported values of a field, and finds none in what is left without
them. A rule and what is left of it have the same series, wherever something is left of every set
with members; and where nothing is left of a set, the series has no candidates. -/
theorem reported_values_never_match (r : Rule) (anchor : Instant) :
    (∀ field, r.mended.numbers field =
        (r.numbers field).filter fun value => value ∉ r.reported field) ∧
      (∀ field values, r.fault? = some (.outOfRange field values) → values = r.reported field) ∧
      r.mended.fault? = (if r.count.any fun n => n.val = 0 then some .zeroCount else none) ∧
      (r.Keeps → ∀ (cap : Nat) (start stop t : Instant),
        (⟨some r.mended, anchor⟩ : Series).expand cap start stop =
            (⟨some r, anchor⟩ : Series).expand cap start stop ∧
          (⟨some r.mended, anchor⟩ : Series).countBefore t =
            (⟨some r, anchor⟩ : Series).countBefore t ∧
          (⟨some r.mended, anchor⟩ : Series).lastBefore? t =
            (⟨some r, anchor⟩ : Series).lastBefore? t) ∧
      ∀ field, r.Dead field → anchor.Inner → ∀ (cap : Nat) (start stop : Instant),
        ((⟨some r, anchor⟩ : Series).expand cap start stop).map Expansion.candidates = .ok [] := by
  refine ⟨r.numbers_mended_eq_unreported, fun field values => r.eq_reported_of_fault?,
    r.fault?_mended, fun hkeeps cap start stop t => ?_,
    fun field hdead hanchor cap start stop => ?_⟩
  · have hsame := hkeeps.alike anchor
    refine ⟨?_, ?_, ?_⟩
    · unfold expand
      simp only [hsame.checkStart_eq, hsame.expand_eq]
    · unfold countBefore
      simp only [hsame.checkStart_eq, hsame.countBefore_eq]
    · unfold lastBefore?
      simp only [hsame.checkStart_eq, hsame.lastBefore_eq]
      rfl
  · have hcandidates : ((Pattern.of r anchor).expand cap start stop).candidates = [] := by
      rw [Pattern.expand_candidates]
      refine Pattern.choose_eq_nil_of_outside fun c hc => ?_
      obtain ⟨k, -, -, hk⟩ := Pattern.mem_enumerate.1 hc
      rw [hdead.candidates_eq_nil anchor k] at hk
      cases hk
    rw [expand_of_checkStart (Pattern.checkStart_of_inner (p := Pattern.of r anchor) hanchor)]
    exact congrArg Except.ok hcandidates

/-- Three occurrences in February and June, and none on the 32nd: the hour 24, the months 0 and 13
and the days 0 and 32 are reported and match nothing, and an interval of zero counts as one. -/
theorem reported_values_in_february_and_june :
    let r : Rule := { frequency := .yearly
                      interval := ⟨0, by decide, by decide⟩
                      count := some ⟨3, by decide, by decide⟩
                      months := .ofList [⟨0, by decide, by decide⟩, ⟨2, by decide, by decide⟩,
                        ⟨6, by decide, by decide⟩, ⟨13, by decide, by decide⟩]
                      hours := .ofList [⟨9, by decide, by decide⟩, ⟨24, by decide, by decide⟩] }
    let never : Rule := { frequency := .monthly
                          monthDays := .ofList [⟨0, by decide, by decide⟩,
                            ⟨32, by decide, by decide⟩] }
    r.Keeps ∧ r.reported .month = [0, 13] ∧ r.reported .hour = [24] ∧
      r.mended.numbers .month = [2, 6] ∧
      ((⟨some r.mended, Instant.nine 2024 1 1⟩ : Series).expand 9 (Instant.nine 2024 3 1)
        (Instant.nine 2026 1 1)).map Expansion.candidates =
          .ok [Instant.nine 2024 6 1, Instant.nine 2025 2 1] ∧
      (⟨some r.mended, Instant.nine 2024 1 1⟩ : Series).lastBefore? (Instant.nine 2026 1 1) =
        .ok (some (Instant.nine 2025 2 1)) ∧
      never.fault? = some (.outOfRange .monthDay [0, 32]) ∧ never.reported .monthDay = [0, 32] ∧
      never.mended.fault? = none ∧
      never.Dead .monthDay ∧ (Instant.nine 2024 1 1).Inner ∧
      ((⟨some never, Instant.nine 2024 1 1⟩ : Series).expand 9 (Instant.nine 2024 3 1)
        (Instant.nine 2026 1 1)).map Expansion.candidates = .ok [] := by
  intro r never
  have hanchor : (Instant.nine 2024 1 1).Inner := by decide
  have hkeeps : r.Keeps := by
    intro field
    cases field <;> decide
  have hdead : never.Dead .monthDay := ⟨by decide, by decide⟩
  have hfault : never.fault? = some (.outOfRange .monthDay [0, 32]) := by decide
  obtain ⟨hnumbers, -, -, hsame, -⟩ := reported_values_never_match r (Instant.nine 2024 1 1)
  obtain ⟨-, hreported, hmended, -, hnothing⟩ :=
    reported_values_never_match never (Instant.nine 2024 1 1)
  obtain ⟨hexpand, -, hlast⟩ := hsame hkeeps 9 (Instant.nine 2024 3 1) (Instant.nine 2026 1 1)
    (Instant.nine 2026 1 1)
  have hcandidates : ((⟨some r, Instant.nine 2024 1 1⟩ : Series).expand 9 (Instant.nine 2024 3 1)
      (Instant.nine 2026 1 1)).map Expansion.candidates =
        .ok [Instant.nine 2024 6 1, Instant.nine 2025 2 1] := by
    decide +kernel
  have hbefore : (⟨some r, Instant.nine 2024 1 1⟩ : Series).lastBefore? (Instant.nine 2026 1 1) =
      .ok (some (Instant.nine 2025 2 1)) := by
    decide +kernel
  refine ⟨hkeeps, by decide, by decide, (hnumbers .month).trans (by decide), ?_, ?_, hfault,
    (hreported _ _ hfault).symm, hmended, hdead, hanchor, hnothing .monthDay hdead hanchor 9 _ _⟩
  · rw [hexpand, hcandidates]
  · rw [hlast, hbefore]

end Series

end Recurrence
