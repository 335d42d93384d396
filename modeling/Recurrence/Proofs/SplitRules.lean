import Recurrence.Proofs.CheckedSteps
import Recurrence.Proofs.Predecessors
import Recurrence.Proofs.Resumption
import Recurrence.Split

set_option autoImplicit false
set_option relaxedAutoImplicit false

/-!
A split of a rule divides its series: the rule that ends before the split keeps what comes before,
and the rule that is set going at the split yields the rest. The second half needs a day that every
month has, or a rule that does not ask for the anchor's day of the month.
-/

namespace Recurrence

open Calendar

namespace Rule

variable {r : Rule} {anchor date b c : Instant}

/-- The rule takes nothing from the anchor's day that a later occurrence could have lost. -/
def KeepsDay (r : Rule) (anchor : Instant) : Prop :=
  r.frequency = .daily ∨ r.frequency = .weekly ∨ r.hasDayFilters = true ∨
    (Calendar.date anchor.day).dayOfMonth ≤ 28

theorem Recurs.with_bounds (count : Option Word32) (ends : Option Instant)
    (hc : r.Recurs anchor c) : { r with count, ends }.Recurs anchor c where
  from_anchor := hc.from_anchor
  unit := hc.unit
  default := hc.default
  day := ⟨hc.day.month, hc.day.weekday, hc.day.monthDay, hc.day.yearDay, hc.day.week⟩
  time := ⟨hc.time.hour, hc.time.minute, hc.time.second, hc.time.nano⟩

private theorem recurs_with_bounds_iff (count : Option Word32) (ends : Option Instant) :
    { r with count, ends }.Recurs anchor c ↔ r.Recurs anchor c :=
  ⟨fun hc => hc.with_bounds r.count r.ends, fun hc => hc.with_bounds count ends⟩

theorem InSeries.of_recurs_le (hdate : r.InSeries anchor date) (hc : r.Recurs anchor c)
    (hle : c ≤ date) : r.InSeries anchor c where
  recurs := hc
  ends t ht := hle.trans (hdate.ends t ht)
  count n hn := by
    have hsub : {b | r.Recurs anchor b ∧ b < c} ⊆ {b | r.Recurs anchor b ∧ b < date} :=
      fun b hb => ⟨hb.1, lt_of_lt_of_le hb.2 hle⟩
    exact lt_of_le_of_lt (Set.encard_le_encard hsub) (hdate.count n hn)

private theorem onAnchorsDay_iff {a d : Int} (ha : (Calendar.date a).dayOfMonth ≤ 28) :
    OnAnchorsDay a d ↔ (Calendar.date d).dayOfMonth = (Calendar.date a).dayOfMonth := by
  have hlength := monthLength_bounds (Calendar.date d).year (Calendar.date d).month
  unfold OnAnchorsDay
  rw [min_eq_left (ha.trans hlength.1)]

/-- The series that goes on with a rule keeps the day of the month that the rule takes from its
anchor: it visits no month in which that day comes after the day on which it was set going again. -/
def KeepsDayFrom (r : Rule) (anchor : Instant) (rest : Series) : Prop :=
  r.TakesDay → ∀ c, rest.Yields c → min (Calendar.date anchor.day).dayOfMonth
    (monthLength (Calendar.date c.day).year (Calendar.date c.day).month) ≤
      (Calendar.date rest.anchor.day).dayOfMonth

theorem KeepsDay.from (hkeeps : r.KeepsDay anchor) (hdate : r.Recurs anchor date) (rest : Rule) :
    r.KeepsDayFrom anchor ⟨some rest, date⟩ := by
  intro hr c _
  rcases hkeeps with hdaily | hweekly | hfilters | hlow
  · exact absurd hdaily hr.not_daily
  · exact absurd hweekly hr.not_weekly
  · exact absurd hfilters (Bool.eq_false_iff.1 hr.free)
  · have hsame := (onAnchorsDay_iff hlow).1 (hr.onAnchorsDay hdate)
    exact (min_le_left _ _).trans hsame.ge

private theorem encard_recurs_lt_eq_add (hle : date ≤ c) :
    {b | r.Recurs anchor b ∧ b < c}.encard = {b | r.Recurs anchor b ∧ b < date}.encard +
      {b | (r.Recurs anchor b ∧ date ≤ b) ∧ b < c}.encard := by
  rw [← Set.encard_union_eq]
  · congr 1
    ext b
    constructor
    · rintro ⟨hb, hbc⟩
      rcases lt_or_ge b date with hlt | hge
      · exact Or.inl ⟨hb, hlt⟩
      · exact Or.inr ⟨⟨hb, hge⟩, hbc⟩
    · rintro (⟨hb, hlt⟩ | ⟨⟨hb, -⟩, hbc⟩)
      · exact ⟨hb, lt_of_lt_of_le hlt hle⟩
      · exact ⟨hb, hbc⟩
  · rw [Set.disjoint_left]
    rintro b ⟨-, hlt⟩ ⟨⟨-, hge⟩, -⟩
    exact absurd hlt (not_lt.2 hge)

theorem inSeries_endingAt_iff {last : Instant} (hdate : r.InSeries anchor date)
    (hlast : last < date) (hmax : ∀ b, r.Recurs anchor b → b < date → b ≤ last) :
    (r.endingAt last).InSeries anchor c ↔ r.InSeries anchor c ∧ c < date := by
  constructor
  · intro hc
    have hrecurs : r.Recurs anchor c := (recurs_with_bounds_iff r.count (some last)).1 hc.recurs
    have hlt : c < date := lt_of_le_of_lt (hc.ends last rfl) hlast
    exact ⟨hdate.of_recurs_le hrecurs (le_of_lt hlt), hlt⟩
  · rintro ⟨hc, hlt⟩
    refine ⟨hc.recurs.with_bounds r.count (some last), ?_, ?_⟩
    · rintro _ ⟨⟩
      exact hmax c hc.recurs hlt
    · intro n hn
      refine lt_of_le_of_lt (Set.encard_le_encard fun b hb => ?_) (hc.count n hn)
      exact ⟨(recurs_with_bounds_iff r.count (some last)).1 hb.1, hb.2⟩

theorem afterUsing_eq_some {rest : Rule} {used : Nat} (hrest : r.afterUsing used = some rest) :
    (r.count = none ∧ rest = r) ∨ ∃ count left, r.count = some count ∧
      left.val = count.val - used ∧ rest = { r with count := some left } := by
  unfold afterUsing at hrest
  split at hrest
  · rename_i hcount
    exact Or.inl ⟨hcount, (Option.some.inj hrest).symm⟩
  · rename_i count hcount
    split at hrest
    · obtain ⟨left, hleft, rfl⟩ := Option.map_eq_some_iff.1 hrest
      exact Or.inr ⟨count, left, hcount, BoundedInt.ofInt?_eq_some_iff.1 hleft, rfl⟩
    · cases hrest

private theorem recurs_of_afterUsing {rest : Rule} {used : Nat}
    (hrest : r.afterUsing used = some rest) (hc : rest.Recurs anchor c) : r.Recurs anchor c := by
  rcases afterUsing_eq_some hrest with ⟨-, rfl⟩ | ⟨count, left, -, -, rfl⟩
  · exact hc
  · exact (recurs_with_bounds_iff (some left) r.ends).1 hc

private theorem Resumes.inSeries_afterUsing_iff {f : Instant → Instant} {rest : Rule} {used : Nat}
    (hf : r.Resumes anchor date f) (hused : {x | r.Recurs anchor x ∧ x < date}.encard = used)
    (hrest : r.afterUsing used = some rest) (hb : r.Recurs date b) :
    rest.InSeries date b ↔ (∀ t, r.ends = some t → b ≤ t) ∧
      ∀ n, r.count = some n → {x | r.Recurs anchor x ∧ x < f b}.encard < n.val.toNat := by
  rcases afterUsing_eq_some hrest with ⟨hcount, rfl⟩ | ⟨count, left, hcount, hleft, rfl⟩
  · rw [hcount]
    constructor
    · exact fun h => ⟨h.ends, nofun⟩
    · exact fun h => ⟨hb, h.1, by rw [hcount]; exact nofun⟩
  · have hbounded : {x | r.Recurs anchor x ∧ x < f b}.encard < count.val.toNat ↔
        {x | { r with count := some left }.Recurs date x ∧ x < b}.encard < left.val.toNat := by
      obtain ⟨m, hm⟩ := (finite_recurs_lt r date b).exists_encard_eq_coe
      simp only [recurs_with_bounds_iff]
      rw [encard_recurs_lt_eq_add (hf.from_date b hb), hused, hf.encard_lt_eq hb, hm,
        ← Nat.cast_add, Nat.cast_lt, Nat.cast_lt]
      omega
    constructor
    · intro h
      refine ⟨h.ends, fun n hn => ?_⟩
      obtain rfl := Option.some.inj (hcount.symm.trans hn)
      exact hbounded.2 (h.count left rfl)
    · rintro ⟨hends, hlast⟩
      refine ⟨hb.with_bounds (some left) r.ends, hends, ?_⟩
      rintro _ ⟨⟩
      exact hbounded.1 (hlast count hcount)

/-- The rule with the count that is left has, from a date on, the part of the series from that date
on exactly if it keeps the day. -/
private theorem keepsDayFrom_iff {rest : Rule} {used : Nat} (hdate : r.InSeries anchor date)
    (hused : {b | r.Recurs anchor b ∧ b < date}.encard = used)
    (hrest : r.afterUsing used = some rest) :
    r.KeepsDayFrom anchor ⟨some rest, date⟩ ↔
      ∀ c, rest.InSeries date c ↔ r.InSeries anchor c ∧ date ≤ c := by
  obtain ⟨f, hf⟩ := exists_resumes hdate.recurs
  have hiff := fun c (hc : r.Recurs date c) => hf.inSeries_afterUsing_iff hused hrest hc
  constructor
  · intro hkeeps c
    have hsame : ∀ b, rest.InSeries date b → f b = b := fun b hb =>
      (hf.eq_self_iff b (recurs_of_afterUsing hrest hb.recurs)).2 fun hr => hkeeps hr b hb
    constructor
    · intro hc
      have hrecurs := recurs_of_afterUsing hrest hc.recurs
      obtain ⟨hends, hcount⟩ := (hiff c hrecurs).1 hc
      have hanchor := hf.recurs c hrecurs
      rw [hsame c hc] at hcount hanchor
      exact ⟨⟨hanchor, hends, hcount⟩, hrecurs.from_anchor⟩
    · rintro ⟨hc, hle⟩
      obtain ⟨b, hb, rfl⟩ := hf.surjective c hc.recurs hle
      have hbSeries : rest.InSeries date b :=
        (hiff b hb).2 ⟨fun t ht => (hf.le b hb).trans (hc.ends t ht), hc.count⟩
      rwa [hsame b hbSeries]
  · intro hall hr c (hc : rest.InSeries date c)
    have hday := hr.onAnchorsDay (recurs_of_afterUsing hrest hc.recurs)
    have hanchorsDay := hr.onAnchorsDay ((hall c).1 hc).1.recurs
    unfold OnAnchorsDay at hday hanchorsDay
    change min _ _ ≤ (Calendar.date date.day).dayOfMonth
    omega

theorem exists_afterUsing {used : Nat}
    (hused : ∀ count, r.count = some count → used < count.val.toNat) :
    ∃ rest, r.afterUsing used = some rest := by
  unfold afterUsing
  split
  · exact ⟨r, rfl⟩
  · rename_i count hcount
    have hlt := hused count hcount
    have hhigh := count.le_high
    have hleft : (BoundedInt.ofInt? (count.val - used) : Option Word32) =
        some ⟨count.val - used, by omega, by omega⟩ := BoundedInt.ofInt?_eq_some_iff.2 rfl
    rw [if_pos (by omega), hleft]
    exact ⟨_, rfl⟩

private theorem InSeries.used_lt {used : Nat} (hdate : r.InSeries anchor date)
    (hused : {b | r.Recurs anchor b ∧ b < date}.encard = used) {count : Word32}
    (hcount : r.count = some count) : used < count.val.toNat := by
  have hlt := hdate.count count hcount
  rwa [hused, Nat.cast_lt] at hlt

theorem afterUsing_min {used : Nat}
    (hused : ∀ count, r.count = some count → used < count.val.toNat) :
    r.afterUsing (min used Pattern.countLimit) = r.afterUsing used := by
  unfold afterUsing
  split
  · rfl
  · rename_i count hcount
    -- A count has four bytes, so that a number of instants below it is not cut off.
    have hlt := hused count hcount
    have hhigh := count.le_high
    rw [min_eq_left (by unfold Pattern.countLimit; omega)]

end Rule

/-- What the two rules of a split are to be: the first has the series before the split, or is absent
if there is nothing, and the second has the series from the split on when it is set going there. -/
structure SplitRules.Divide (rules : SplitRules) (r : Rule) (anchor date : Instant) : Prop where
  none_before : rules.truncated = none ↔ ∀ c, r.InSeries anchor c → ¬ c < date
  before : ∀ truncated, rules.truncated = some truncated →
    ∀ c, truncated.InSeries anchor c ↔ r.InSeries anchor c ∧ c < date
  after : ∃ continuation, rules.continuation = some continuation ∧
    (r.KeepsDay anchor → ∀ c, continuation.InSeries date c ↔ r.InSeries anchor c ∧ date ≤ c)

namespace Rule

variable {r : Rule} {anchor date : Instant}

theorem splitAt_of_inSeries (hanchor : anchor.Inner) (hdate : date.Inner)
    (hseries : r.InSeries anchor date) :
    ∃ rules, r.splitAt anchor date = .ok rules ∧ rules.Divide r anchor date ∧
      ∃ rest, rules.continuation = some rest ∧ (r.KeepsDayFrom anchor ⟨some rest, date⟩ ↔
        ∀ c, rest.InSeries date c ↔ r.InSeries anchor c ∧ date ≤ c) := by
  obtain ⟨found, hfound, hiff⟩ :=
    Series.isCandidate_spec (s := ⟨some r, anchor⟩) hanchor hdate
  obtain rfl : found = true := hiff.2 hseries
  obtain ⟨last, hlast, hnone, hsome⟩ := Series.lastBefore?_of_inSeries hanchor hdate hseries
  obtain ⟨n, hn, hbefore⟩ := Series.countBefore_spec (r := r) hanchor hdate
  have hsplit : r.splitAt anchor date =
      .ok ⟨last.map r.endingAt, r.afterUsing (min n Pattern.countLimit)⟩ := by
    unfold splitAt splitStep
    simp only [hfound, hlast, hbefore]
    rfl
  have hlimit : r.afterUsing (min n Pattern.countLimit) = r.afterUsing n :=
    afterUsing_min fun _ => hseries.used_lt hn
  obtain ⟨rest, hrest⟩ := exists_afterUsing fun _ => hseries.used_lt hn
  have hafter := keepsDayFrom_iff hseries hn hrest
  refine ⟨_, hsplit, ⟨?_, ?_, rest, hlimit.trans hrest, fun hkeeps =>
    hafter.1 (hkeeps.from hseries.recurs rest)⟩, rest, hlimit.trans hrest, hafter⟩
  · rw [Option.map_eq_none_iff]
    constructor
    · intro heq c hc
      exact hnone heq c hc.recurs
    · intro hall
      cases last with
      | none => rfl
      | some l =>
        obtain ⟨hl, hlt, -⟩ := hsome l rfl
        exact absurd hlt (hall l (hseries.of_recurs_le hl (le_of_lt hlt)))
  · intro truncated htruncated c
    obtain ⟨l, rfl, rfl⟩ := Option.map_eq_some_iff.1 htruncated
    obtain ⟨-, hlt, hmax⟩ := hsome l rfl
    exact inSeries_endingAt_iff hseries hlt hmax

theorem splitAt_eq_ok {rules : SplitRules} (hok : r.splitAt anchor date = .ok rules) :
    (⟨some r, anchor⟩ : Series).isCandidate date = .ok true ∧
      ∃ last, (⟨some r, anchor⟩ : Series).lastBefore? date = .ok last ∧
        rules.truncated = last.map r.endingAt := by
  obtain ⟨found, hfound, h⟩ := bind_eq_ok_iff.1 hok
  cases found with
  | false => cases h
  | true =>
    obtain ⟨last, hlast, h⟩ := bind_eq_ok_iff.1 h
    obtain ⟨used, -, h⟩ := bind_eq_ok_iff.1 h
    cases h
    exact ⟨mapError_eq_ok_iff.1 hfound, last, mapError_eq_ok_iff.1 hlast, rfl⟩

private theorem splitAt_of_not_inSeries (hanchor : anchor.Inner) (hdate : date.Inner)
    (hseries : ¬ r.InSeries anchor date) :
    r.splitAt anchor date = .error (.notAnOccurrence date r) := by
  obtain ⟨found, hfound, hiff⟩ :=
    Series.isCandidate_spec (s := ⟨some r, anchor⟩) hanchor hdate
  obtain rfl : found = false := by simpa using mt hiff.1 hseries
  unfold splitAt splitStep
  simp only [hfound]
  rfl

theorem divide_of_splitAt_eq_ok {rules : SplitRules} (hanchor : anchor.Inner) (hdate : date.Inner)
    (hok : r.splitAt anchor date = .ok rules) : rules.Divide r anchor date := by
  by_cases hseries : r.InSeries anchor date
  · obtain ⟨made, hmade, hdivide, -⟩ := splitAt_of_inSeries hanchor hdate hseries
    rw [hmade] at hok
    exact Except.ok.inj hok ▸ hdivide
  · rw [splitAt_of_not_inSeries hanchor hdate hseries] at hok
    cases hok

/-- A split that is made divides the series without gap or overlap, and it is refused exactly for a
date that is not in the series. -/
theorem splitAt_conserves_series (hanchor : anchor.Inner) (hdate : date.Inner) :
    (∀ rules, r.splitAt anchor date = .ok rules → rules.Divide r anchor date) ∧
      (r.InSeries anchor date → ∃ rules, r.splitAt anchor date = .ok rules) ∧
      (r.splitAt anchor date = .error (.notAnOccurrence date r) ↔ ¬ r.InSeries anchor date) := by
  refine ⟨fun rules => divide_of_splitAt_eq_ok hanchor hdate, ?_, ?_⟩
  · intro hseries
    obtain ⟨rules, hok, -⟩ := splitAt_of_inSeries hanchor hdate hseries
    exact ⟨rules, hok⟩
  · constructor
    · intro herror hseries
      obtain ⟨rules, hok, -⟩ := splitAt_of_inSeries hanchor hdate hseries
      rw [herror] at hok
      cases hok
    · exact splitAt_of_not_inSeries hanchor hdate

/-- Ten occurrences on every other day, split at the third: the first rule ends with the second, and
the other one has eight left. -/
theorem splitAt_third_of_ten :
    (Instant.nine 2026 1 1).Inner ∧ (Instant.nine 2026 1 5).Inner ∧
      ∃ (r : Rule) (rules : SplitRules), r.frequency = .daily ∧ r.interval.val = 2 ∧
        r.count.map BoundedInt.val = some 10 ∧
        r.splitAt (Instant.nine 2026 1 1) (Instant.nine 2026 1 5) = .ok rules ∧
        rules.truncated.map Rule.ends = some (some (Instant.nine 2026 1 3)) ∧
        rules.continuation.map (·.count.map BoundedInt.val) = some (some 8) ∧
        rules.Divide r (Instant.nine 2026 1 1) (Instant.nine 2026 1 5) := by
  have hanchor : (Instant.nine 2026 1 1).Inner := by decide
  have hdate : (Instant.nine 2026 1 5).Inner := by decide
  have hrun : Rule.splitAt
      { frequency := .daily, interval := ⟨2, by decide, by decide⟩,
        count := some ⟨10, by decide, by decide⟩ }
      (Instant.nine 2026 1 1) (Instant.nine 2026 1 5) = .ok
        { truncated := some
            { frequency := .daily, interval := ⟨2, by decide, by decide⟩,
              count := some ⟨10, by decide, by decide⟩, ends := some (Instant.nine 2026 1 3) }
          continuation := some
            { frequency := .daily, interval := ⟨2, by decide, by decide⟩,
              count := some ⟨8, by decide, by decide⟩ } } := by rfl
  exact ⟨hanchor, hdate, _, _, rfl, rfl, rfl, hrun, rfl, rfl,
    (splitAt_conserves_series hanchor hdate).1 _ hrun⟩

end Rule

end Recurrence
