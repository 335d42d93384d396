import Recurrence.Proofs.PeriodCounts

set_option autoImplicit false
set_option relaxedAutoImplicit false

/-!
A rule that is set going again at an instant at which it recurs. It recurs as before, save that a
rule which takes its anchor's day of the month now takes the new one's, and that may be an earlier
day if the new anchor lies in a short month. Even so the two series go month by month together.
-/

namespace Recurrence

open Calendar Rule

namespace Instant

variable {a b c x : Instant}

/-- An instant moved, within its month, to the day of the month that another one has. -/
def onDayOf (a c : Instant) : Instant :=
  ⟨clampedDay (date c.day).year (date c.day).month (date a.day).dayOfMonth, c.time⟩

private theorem date_onDayOf (a c : Instant) :
    (date (a.onDayOf c).day).year = (date c.day).year ∧
      (date (a.onDayOf c).day).month = (date c.day).month ∧
      (date (a.onDayOf c).day).dayOfMonth =
        min (date a.day).dayOfMonth (monthLength (date c.day).year (date c.day).month) := by
  have hc := date_bounds c.day
  exact (eq_clampedDay_iff hc.1 hc.2.1 (date_bounds a.day).2.2.1).1 rfl

private theorem onAnchorsDay_onDayOf (a c : Instant) : OnAnchorsDay a.day (a.onDayOf c).day := by
  obtain ⟨hyear, hmonth, hday⟩ := date_onDayOf a c
  unfold OnAnchorsDay
  rw [hyear, hmonth, hday]

private theorem onDayOf_eq_self_iff : a.onDayOf c = c ↔ OnAnchorsDay a.day c.day := by
  have hc := date_bounds c.day
  constructor
  · intro heq
    exact heq ▸ onAnchorsDay_onDayOf a c
  · intro hday
    have hsame := (eq_clampedDay_iff hc.1 hc.2.1 (date_bounds a.day).2.2.1).2 ⟨rfl, rfl, hday⟩
    exact congrArg (fun d => (⟨d, c.time⟩ : Instant)) hsame.symm

private theorem onDayOf_onDayOf (a b c : Instant) : a.onDayOf (b.onDayOf c) = a.onDayOf c := by
  obtain ⟨hyear, hmonth, -⟩ := date_onDayOf b c
  unfold onDayOf at hyear hmonth ⊢
  rw [hyear, hmonth]

private theorem onDayOf_le_onDayOf (hab : (date a.day).dayOfMonth ≤ (date b.day).dayOfMonth) :
    a.onDayOf c ≤ b.onDayOf c := by
  have hday : (a.onDayOf c).day ≤ (b.onDayOf c).day := by
    change clampedDay _ _ _ ≤ clampedDay _ _ _
    unfold clampedDay Calendar.day
    omega
  have htime : (a.onDayOf c).time = (b.onDayOf c).time := rfl
  rw [le_iff]
  unfold position
  rw [htime]
  omega

private theorem onDayOf_lt_onDayOf (hb : OnAnchorsDay x.day b.day) (hc : OnAnchorsDay x.day c.day)
    (hbc : b < c) : a.onDayOf b < a.onDayOf c := by
  obtain ⟨hyear, hmonth, -⟩ := date_onDayOf a b
  obtain ⟨hyear', hmonth', -⟩ := date_onDayOf a c
  by_cases hsame : (date b.day).year = (date c.day).year ∧ (date b.day).month = (date c.day).month
  · have hday : b.day = c.day := by
      rw [← onDayOf_eq_self_iff] at hb hc
      rw [← hb, ← hc]
      unfold onDayOf
      rw [hsame.1, hsame.2]
    have htime : b.time < c.time := by
      rcases hbc with hlt | ⟨-, hlt⟩
      · exact absurd hday (ne_of_lt hlt)
      · exact hlt
    refine Or.inr ⟨?_, htime⟩
    unfold onDayOf
    rw [hsame.1, hsame.2]
  · have hmono := Frequency.unitOf_mono .monthly .monday (day_le_of_le hbc.le)
    refine lt_of_day_lt (lt_of_not_ge fun hle => hsame ?_)
    have hmono' := Frequency.unitOf_mono .monthly .monday hle
    have hbounds := date_bounds b.day
    have hbounds' := date_bounds c.day
    simp only [Frequency.unitOf] at hmono hmono'
    rw [hyear, hmonth, hyear', hmonth'] at hmono'
    omega

end Instant

namespace Rule

variable {r : Rule} {anchor date b c : Instant}

private theorem admitsPart_iff_of_admitsPart {s : SortedSet Octet} {a d : Nat} (part : Nat)
    (hd : AdmitsPart s a d) : AdmitsPart s d part ↔ AdmitsPart s a part := by
  unfold AdmitsPart at hd ⊢
  split
  · rename_i hempty
    rw [if_pos hempty] at hd
    rw [hd]
  · exact Iff.rfl

private theorem admitsTime_iff_of_admitsTime {a d t : TimeOfDay} (hd : r.AdmitsTime a d) :
    r.AdmitsTime d t ↔ r.AdmitsTime a t := by
  have hhour := admitsPart_iff_of_admitsPart t.hour hd.hour
  have hminute := admitsPart_iff_of_admitsPart t.minute hd.minute
  have hsecond := admitsPart_iff_of_admitsPart t.secondOfMinute hd.second
  constructor
  · rintro ⟨h, m, s, n⟩
    exact ⟨hhour.1 h, hminute.1 m, hsecond.1 s, n.trans hd.nano⟩
  · rintro ⟨h, m, s, n⟩
    exact ⟨hhour.2 h, hminute.2 m, hsecond.2 s, n.trans hd.nano.symm⟩

private theorem exists_unit_from_iff (hdate : r.Recurs anchor date) (hle : date ≤ c) :
    (∃ k : Nat, r.frequency.unitOf r.weekStart c.day =
        r.frequency.unitOf r.weekStart date.day + k * max r.interval.val 1) ↔
      ∃ k : Nat, r.frequency.unitOf r.weekStart c.day =
        r.frequency.unitOf r.weekStart anchor.day + k * max r.interval.val 1 := by
  obtain ⟨k, hk⟩ := hdate.unit
  constructor
  · rintro ⟨m, hm⟩
    refine ⟨k + m, ?_⟩
    rw [hm, hk, Nat.cast_add, Int.add_mul, Int.add_assoc]
  · rintro ⟨m, hm⟩
    have hstep : 0 < max r.interval.val 1 := lt_of_lt_of_le Int.one_pos (le_max_right _ _)
    have hmono : r.frequency.unitOf r.weekStart date.day ≤ r.frequency.unitOf r.weekStart c.day :=
      Frequency.unitOf_mono _ _ (Instant.day_le_of_le hle)
    have hkm : k ≤ m := by
      rw [hk, hm] at hmono
      have hmul : (k : Int) * max r.interval.val 1 ≤ m * max r.interval.val 1 := by omega
      exact Int.ofNat_le.1 (Int.le_of_mul_le_mul_right hmul hstep)
    refine ⟨m - k, ?_⟩
    rw [hm, hk, Nat.cast_sub hkm, Int.sub_mul]
    omega

structure TakesDay (r : Rule) : Prop where
  not_daily : r.frequency ≠ .daily
  not_weekly : r.frequency ≠ .weekly
  free : r.hasDayFilters = false

private theorem TakesDay.defaultDay_iff {a d : Int} (hr : r.TakesDay) :
    r.DefaultDay a d ↔ OnAnchorsDay a d ∧
      (r.frequency = .yearly → r.months = ∅ →
        (Calendar.date d).month = (Calendar.date a).month) := by
  unfold DefaultDay
  cases hf : r.frequency with
  | daily => exact absurd hf hr.not_daily
  | weekly => exact absurd hf hr.not_weekly
  | monthly => simp [hr.free]
  | yearly => simp [hr.free]

theorem TakesDay.onAnchorsDay (hr : r.TakesDay) (hc : r.Recurs anchor c) :
    OnAnchorsDay anchor.day c.day := (hr.defaultDay_iff.1 hc.default).1

private theorem recurs_from_iff (hr : ¬ r.TakesDay) (hdate : r.Recurs anchor date) :
    r.Recurs date c ↔ r.Recurs anchor c ∧ date ≤ c := by
  have htime := admitsTime_iff_of_admitsTime (t := c.time) hdate.time
  have hdefault : r.DefaultDay date.day c.day ↔ r.DefaultDay anchor.day c.day := by
    have hanchored := hdate.default
    unfold DefaultDay at hanchored ⊢
    cases hf : r.frequency with
    | daily => exact Iff.rfl
    | weekly =>
      rw [hf] at hanchored
      refine forall_congr' fun hempty => ?_
      rw [show weekday date.day = weekday anchor.day from hanchored hempty]
    | _ =>
      have hfilters : r.hasDayFilters = true := by
        by_contra hfree
        exact hr ⟨by simp [hf], by simp [hf], Bool.eq_false_iff.2 hfree⟩
      simp [hfilters]
  constructor
  · intro hc
    exact ⟨⟨hdate.from_anchor.trans hc.from_anchor,
      (exists_unit_from_iff hdate hc.from_anchor).1 hc.unit, hdefault.1 hc.default, hc.day,
      htime.1 hc.time⟩, hc.from_anchor⟩
  · rintro ⟨hc, hle⟩
    exact ⟨hle, (exists_unit_from_iff hdate hle).2 hc.unit, hdefault.2 hc.default, hc.day,
      htime.2 hc.time⟩

private theorem TakesDay.unitOf_onDayOf (hr : r.TakesDay) (a c : Instant) :
    r.frequency.unitOf r.weekStart (a.onDayOf c).day = r.frequency.unitOf r.weekStart c.day := by
  obtain ⟨hyear, hmonth, -⟩ := Instant.date_onDayOf a c
  unfold Frequency.unitOf
  cases hf : r.frequency with
  | daily => exact absurd hf hr.not_daily
  | weekly => exact absurd hf hr.not_weekly
  | monthly => simp only [hyear, hmonth]
  | yearly => exact hyear

private theorem TakesDay.admitsDay_onDayOf (hr : r.TakesDay) (a : Instant)
    (hc : r.AdmitsDay c.day) : r.AdmitsDay (a.onDayOf c).day := by
  obtain ⟨hweekdays, hmonthDays, hyearDays, hweeks⟩ := hasDayFilters_eq_false_iff.1 hr.free
  refine ⟨?_, Or.inl hweekdays, Or.inl hmonthDays, Or.inl hyearDays, Or.inl hweeks⟩
  rw [(Instant.date_onDayOf a c).2.1]
  exact hc.month

private theorem TakesDay.defaultDay_onDayOf {a x : Instant} (hr : r.TakesDay)
    (hmonth : r.frequency = .yearly → r.months = ∅ →
      (Calendar.date x.day).month = (Calendar.date a.day).month)
    (hc : r.DefaultDay x.day c.day) : r.DefaultDay a.day (a.onDayOf c).day := by
  refine hr.defaultDay_iff.2 ⟨Instant.onAnchorsDay_onDayOf a c, fun hyearly hempty => ?_⟩
  rw [(Instant.date_onDayOf a c).2.1, (hr.defaultDay_iff.1 hc).2 hyearly hempty]
  exact hmonth hyearly hempty

private theorem TakesDay.dayOfMonth_le (hr : r.TakesDay) (hdate : r.Recurs anchor date) :
    (Calendar.date date.day).dayOfMonth ≤ (Calendar.date anchor.day).dayOfMonth := by
  have hday := hr.onAnchorsDay hdate
  unfold OnAnchorsDay at hday
  omega

private theorem TakesDay.le_onDayOf_anchor (hr : r.TakesDay) (hdate : r.Recurs anchor date)
    (hc : r.Recurs date c) : c ≤ anchor.onDayOf c := by
  have hsame := Instant.onDayOf_eq_self_iff.2 (hr.onAnchorsDay hc)
  calc c = date.onDayOf c := hsame.symm
    _ ≤ anchor.onDayOf c := Instant.onDayOf_le_onDayOf (hr.dayOfMonth_le hdate)

private theorem TakesDay.recurs_onDayOf_anchor (hr : r.TakesDay) (hdate : r.Recurs anchor date)
    (hc : r.Recurs date c) : r.Recurs anchor (anchor.onDayOf c) := by
  have hle := hr.le_onDayOf_anchor hdate hc
  refine ⟨hdate.from_anchor.trans (hc.from_anchor.trans hle), ?_, ?_,
    hr.admitsDay_onDayOf anchor hc.day, (admitsTime_iff_of_admitsTime hdate.time).1 hc.time⟩
  · rw [hr.unitOf_onDayOf]
    exact (exists_unit_from_iff hdate hc.from_anchor).1 hc.unit
  · exact hr.defaultDay_onDayOf (hr.defaultDay_iff.1 hdate.default).2 hc.default

private theorem TakesDay.le_onDayOf_date (hr : r.TakesDay) (hdate : r.Recurs anchor date)
    (hc : r.Recurs anchor c) (hle : date ≤ c) : date ≤ date.onDayOf c := by
  have hsame : date.onDayOf date = date :=
    Instant.onDayOf_eq_self_iff.2 (min_eq_left (date_bounds date.day).2.2.2).symm
  rcases hle.eq_or_lt with rfl | hlt
  · exact hsame.ge
  · have hmoved := Instant.onDayOf_lt_onDayOf (a := date) (hr.onAnchorsDay hdate)
      (hr.onAnchorsDay hc) hlt
    calc date = date.onDayOf date := hsame.symm
      _ ≤ date.onDayOf c := hmoved.le

private theorem TakesDay.recurs_onDayOf_date (hr : r.TakesDay) (hdate : r.Recurs anchor date)
    (hc : r.Recurs anchor c) (hle : date ≤ c) : r.Recurs date (date.onDayOf c) := by
  refine ⟨hr.le_onDayOf_date hdate hc hle, ?_, ?_, hr.admitsDay_onDayOf date hc.day,
    (admitsTime_iff_of_admitsTime hdate.time).2 hc.time⟩
  · rw [hr.unitOf_onDayOf]
    exact (exists_unit_from_iff hdate hle).2 hc.unit
  · refine hr.defaultDay_onDayOf (fun hyearly hempty => ?_) hc.default
    exact ((hr.defaultDay_iff.1 hdate.default).2 hyearly hempty).symm

/-- The instants at which the rule recurs from there correspond, in order, to those at which it
recurs from its anchor on. None comes later than the one it corresponds to, and where the anchor's
day does not lie behind the new one's they are the same. -/
structure Resumes (r : Rule) (anchor date : Instant) (f : Instant → Instant) : Prop where
  recurs : ∀ b, r.Recurs date b → r.Recurs anchor (f b)
  from_date : ∀ b, r.Recurs date b → date ≤ f b
  le : ∀ b, r.Recurs date b → b ≤ f b
  strictMono : StrictMonoOn f {b | r.Recurs date b}
  surjective : ∀ c, r.Recurs anchor c → date ≤ c → ∃ b, r.Recurs date b ∧ f b = c
  eq_self_iff : ∀ b, r.Recurs date b → (f b = b ↔ (r.TakesDay →
    min (Calendar.date anchor.day).dayOfMonth
      (monthLength (Calendar.date b.day).year (Calendar.date b.day).month) ≤
        (Calendar.date date.day).dayOfMonth))

private theorem TakesDay.resumes (hr : r.TakesDay) (hdate : r.Recurs anchor date) :
    r.Resumes anchor date anchor.onDayOf where
  recurs _ := hr.recurs_onDayOf_anchor hdate
  from_date b hb := hb.from_anchor.trans (hr.le_onDayOf_anchor hdate hb)
  le b := hr.le_onDayOf_anchor hdate
  strictMono _ hb _ hc :=
    Instant.onDayOf_lt_onDayOf (hr.onAnchorsDay hb) (hr.onAnchorsDay hc)
  surjective c hc hle := by
    refine ⟨date.onDayOf c, hr.recurs_onDayOf_date hdate hc hle, ?_⟩
    rw [Instant.onDayOf_onDayOf, Instant.onDayOf_eq_self_iff]
    exact hr.onAnchorsDay hc
  eq_self_iff b hb := by
    have hday := hr.onAnchorsDay hb
    have hdateDay := hr.onAnchorsDay hdate
    rw [Instant.onDayOf_eq_self_iff]
    unfold OnAnchorsDay at hday hdateDay ⊢
    rw [hdateDay] at hday
    constructor
    · intro hsame _
      omega
    · intro hle
      have hle := hle hr
      omega

theorem exists_resumes (hdate : r.Recurs anchor date) : ∃ f, r.Resumes anchor date f := by
  by_cases hr : r.TakesDay
  · exact ⟨anchor.onDayOf, hr.resumes hdate⟩
  · have hiff := fun c => recurs_from_iff (c := c) hr hdate
    exact ⟨id, fun b hb => ((hiff b).1 hb).1, fun b hb => ((hiff b).1 hb).2, fun b _ => le_rfl,
      strictMonoOn_id, fun c hc hle => ⟨c, (hiff c).2 ⟨hc, hle⟩, rfl⟩,
      fun b _ => iff_of_true rfl fun htakes => absurd htakes hr⟩

theorem Resumes.encard_lt_eq {f : Instant → Instant} (hf : r.Resumes anchor date f)
    (hb : r.Recurs date b) :
    {x | (r.Recurs anchor x ∧ date ≤ x) ∧ x < f b}.encard =
      {x | r.Recurs date x ∧ x < b}.encard := by
  have himage : {x | (r.Recurs anchor x ∧ date ≤ x) ∧ x < f b} =
      f '' {x | r.Recurs date x ∧ x < b} := by
    ext c
    constructor
    · rintro ⟨⟨hc, hle⟩, hcb⟩
      obtain ⟨x, hx, rfl⟩ := hf.surjective c hc hle
      exact ⟨x, ⟨hx, (hf.strictMono.lt_iff_lt hx hb).1 hcb⟩, rfl⟩
    · rintro ⟨x, ⟨hx, hxb⟩, rfl⟩
      exact ⟨⟨hf.recurs x hx, hf.from_date x hx⟩, hf.strictMono hx hb hxb⟩
  rw [himage]
  exact (hf.strictMono.injOn.mono fun x hx => hx.1).encard_image

end Rule

end Recurrence
