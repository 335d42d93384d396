import Recurrence.Proofs.Expansion

set_option autoImplicit false
set_option relaxedAutoImplicit false

/-!
Rules that visit every unit and choose among its days. Such a rule recurs wherever its sets admit
the day and the time of day, whether its units are days, months or years, and also weeks if it
chooses weekdays. How its periods are enumerated, skipped and counted does not show.
-/

namespace Recurrence

namespace Rule

variable {r : Rule} {f g : Frequency} {anchor c : Instant}

def countedIn (r : Rule) (f : Frequency) : Rule := { r with frequency := f }

private theorem exists_unit_of_interval_le_one (hstep : r.interval.val ≤ 1) (f : Frequency)
    (hfrom : anchor ≤ c) : ∃ k : Nat, f.unitOf r.weekStart c.day =
      f.unitOf r.weekStart anchor.day + k * max r.interval.val 1 := by
  have hmono := f.unitOf_mono r.weekStart (Instant.day_le_of_le hfrom)
  refine ⟨(f.unitOf r.weekStart c.day - f.unitOf r.weekStart anchor.day).toNat, ?_⟩
  rw [max_eq_right hstep]
  omega

private theorem defaultDay_countedIn (hfilters : r.hasDayFilters = true)
    (hweekly : f = .weekly → r.weekdays ≠ ∅) (a d : Int) : (r.countedIn f).DefaultDay a d := by
  have hchooses : (r.countedIn f).hasDayFilters ≠ false := by
    change r.hasDayFilters ≠ false
    simp [hfilters]
  cases f with
  | daily => trivial
  | weekly => exact fun hnone => absurd hnone (hweekly rfl)
  | monthly => exact fun hnone => absurd hnone hchooses
  | yearly => exact fun hnone => absurd hnone hchooses

private theorem admitsDay_countedIn_iff {d : Int} :
    (r.countedIn f).AdmitsDay d ↔ r.AdmitsDay d := by
  constructor
  · rintro ⟨hmonth, hweekday, hmonthDay, hyearDay, hweek⟩
    exact ⟨hmonth, hweekday, hmonthDay, hyearDay, hweek⟩
  · rintro ⟨hmonth, hweekday, hmonthDay, hyearDay, hweek⟩
    exact ⟨hmonth, hweekday, hmonthDay, hyearDay, hweek⟩

private theorem admitsTime_countedIn_iff {a t : TimeOfDay} :
    (r.countedIn f).AdmitsTime a t ↔ r.AdmitsTime a t := by
  constructor
  · rintro ⟨hhour, hminute, hsecond, hnano⟩
    exact ⟨hhour, hminute, hsecond, hnano⟩
  · rintro ⟨hhour, hminute, hsecond, hnano⟩
    exact ⟨hhour, hminute, hsecond, hnano⟩

/-- A rule that visits every unit and chooses among its days recurs from the anchor on wherever its
sets admit the day and the time of day. -/
private theorem recurs_countedIn_iff (hstep : r.interval.val ≤ 1)
    (hfilters : r.hasDayFilters = true)
    (hweekly : f = .weekly → r.weekdays ≠ ∅) : (r.countedIn f).Recurs anchor c ↔
      anchor ≤ c ∧ r.AdmitsDay c.day ∧ r.AdmitsTime anchor.time c.time := by
  constructor
  · rintro ⟨hfrom, -, -, hday, htime⟩
    exact ⟨hfrom, admitsDay_countedIn_iff.1 hday, admitsTime_countedIn_iff.1 htime⟩
  · rintro ⟨hfrom, hday, htime⟩
    exact ⟨hfrom, exists_unit_of_interval_le_one hstep f hfrom,
      defaultDay_countedIn hfilters hweekly _ _, admitsDay_countedIn_iff.2 hday,
      admitsTime_countedIn_iff.2 htime⟩

private theorem inSeries_countedIn_iff (hstep : r.interval.val ≤ 1)
    (hfilters : r.hasDayFilters = true)
    (hf : f = .weekly → r.weekdays ≠ ∅) (hg : g = .weekly → r.weekdays ≠ ∅) :
    (r.countedIn f).InSeries anchor c ↔ (r.countedIn g).InSeries anchor c := by
  have hrecurs : ∀ b, (r.countedIn f).Recurs anchor b ↔ (r.countedIn g).Recurs anchor b :=
    fun b => (recurs_countedIn_iff hstep hfilters hf).trans
      (recurs_countedIn_iff hstep hfilters hg).symm
  have hbefore : {b | (r.countedIn f).Recurs anchor b ∧ b < c} =
      {b | (r.countedIn g).Recurs anchor b ∧ b < c} :=
    Set.ext fun b => and_congr_left fun _ => hrecurs b
  constructor
  · rintro ⟨hc, hends, hcount⟩
    exact ⟨(hrecurs c).1 hc, hends, fun n hn => hbefore ▸ hcount n hn⟩
  · rintro ⟨hc, hends, hcount⟩
    exact ⟨(hrecurs c).2 hc, hends, fun n hn => hbefore ▸ hcount n hn⟩

end Rule

namespace Series

/-- A rule that visits every unit and chooses among its days yields the same candidates in a window,
under every cap, whichever its unit is, save that weeks want weekdays. -/
theorem expand_same_in_every_unit (r : Rule) (hstep : r.interval.val ≤ 1)
    (hfilters : r.hasDayFilters = true) (anchor start stop : Instant) (cap : Nat)
    (hanchor : anchor.Inner) (hstart : start.Inner) (hstop : stop.Inner) :
    ∃ cs : List Instant, ∀ f : Frequency, (f = .weekly → r.weekdays ≠ ∅) →
      ((⟨some (r.countedIn f), anchor⟩ : Series).expand cap start stop).map Expansion.candidates =
        .ok cs := by
  obtain ⟨-, daily, -, hdaily, -⟩ :=
    exists_listing (s := ⟨some (r.countedIn .daily), anchor⟩) hanchor hstart hstop cap
  refine ⟨daily.take cap, fun f hf => ?_⟩
  obtain ⟨e, cs, hexpand, hlisting, htake⟩ :=
    exists_listing (s := ⟨some (r.countedIn f), anchor⟩) hanchor hstart hstop cap
  have hsame : cs = daily := by
    refine Ascending.eq_of_mem_iff hlisting.ascending hdaily.ascending fun c => ?_
    rw [hlisting.mem_iff, hdaily.mem_iff]
    exact and_congr_left fun _ => Rule.inSeries_countedIn_iff hstep hfilters hf nofun
  rw [hexpand]
  exact congrArg Except.ok (htake.trans (congrArg _ hsame))

/-- The first three Fridays the 13th from the first of January 2024 on, in days, weeks, months and
years. An interval of zero counts as one. -/
theorem expand_fridays_the_thirteenth :
    let r : Rule := { frequency := .monthly
                      interval := ⟨0, by decide, by decide⟩
                      count := some ⟨3, by decide, by decide⟩
                      weekdays := .ofList [.friday]
                      monthDays := .ofList [⟨13, by decide, by decide⟩] }
    r.interval.val ≤ 1 ∧ r.hasDayFilters = true ∧ r.weekdays ≠ ∅ ∧
      (Instant.nine 2024 1 1).Inner ∧ (Instant.nine 2024 2 1).Inner ∧
      (Instant.nine 2026 1 1).Inner ∧
      ∀ f, ((⟨some (r.countedIn f), Instant.nine 2024 1 1⟩ : Series).expand 9
        (Instant.nine 2024 2 1) (Instant.nine 2026 1 1)).map Expansion.candidates =
          .ok [Instant.nine 2024 9 13, Instant.nine 2024 12 13, Instant.nine 2025 6 13] := by
  intro r
  have hanchor : (Instant.nine 2024 1 1).Inner := by decide
  have hstart : (Instant.nine 2024 2 1).Inner := by decide
  have hstop : (Instant.nine 2026 1 1).Inner := by decide
  have hweekdays : r.weekdays ≠ ∅ := by decide
  obtain ⟨cs, hcs⟩ := expand_same_in_every_unit r (by decide) (by decide) _ _ _ 9
    hanchor hstart hstop
  have hmonthly : ((⟨some (r.countedIn .monthly), Instant.nine 2024 1 1⟩ : Series).expand 9
      (Instant.nine 2024 2 1) (Instant.nine 2026 1 1)).map Expansion.candidates =
        .ok [Instant.nine 2024 9 13, Instant.nine 2024 12 13, Instant.nine 2025 6 13] := by
    decide +kernel
  refine ⟨by decide, by decide, hweekdays, hanchor, hstart, hstop, fun f => ?_⟩
  rw [hcs f fun _ => hweekdays, ← hcs .monthly nofun, hmonthly]

end Series

end Recurrence
