import Recurrence.Proofs.RawCandidates

set_option autoImplicit false
set_option relaxedAutoImplicit false

/-!
Candidates at the ends of the calendar. An enumeration may miss the calendar's last day, but what it
finds belongs to the series everywhere: the rule recurs there, and no earlier instant at which it
recurs is left out of the count.
-/

namespace Recurrence

open Calendar

private theorem Frequency.unitStart_after_lastDay {frequency : Frequency} (weekStart : Weekday)
    (hf : frequency ≠ .weekly) :
    frequency.unitStart weekStart (frequency.unitOf weekStart lastDay + 1) = lastDay + 1 := by
  cases frequency with
  | daily => rfl
  | weekly => exact absurd rfl hf
  | monthly =>
    change unitStart .monthly .monday (unitOf .monthly .monday lastDay + 1) = lastDay + 1
    decide
  | yearly =>
    change unitStart .yearly .monday (unitOf .yearly .monday lastDay + 1) = lastDay + 1
    decide

namespace Pattern

variable {p : Pattern} {b c : Instant} {d : Int} {k : Nat}

private theorem le_lastDay_of_mem_days (hd : d ∈ p.days k) : d ≤ lastDay := by
  have hunit := unitOf_of_mem_days hd
  unfold days at hd
  split at hd
  · rename_i hbegun
    by_cases hf : p.rule.frequency = .weekly
    · have hday := ((mem_unitDays_weekly hf).1 (List.mem_of_mem_filter hd)).2
      split at hday
      · exact hday.2
      · exact hday.le
    · have hlast := Frequency.unitStart_le_iff.1 hbegun
      have hend := Frequency.unitStart_after_lastDay p.rule.weekStart hf
      by_contra hlt
      have hafter := Frequency.unitStart_le_iff.1
        (hend.le.trans (Int.add_one_le_of_lt (not_le.1 hlt)))
      unfold unitOf at hunit
      omega
  · cases hd

private theorem defaultDay_of_mem_unitDays (hd : d ∈ p.unitDays k) :
    p.rule.DefaultDay p.anchor.day d := by
  unfold Rule.DefaultDay
  cases hf : p.rule.frequency with
  | daily => trivial
  | weekly =>
    intro hw
    have hday := ((mem_unitDays_weekly hf).1 hd).2
    rw [if_pos hw] at hday
    exact hday.1
  | monthly =>
    intro hr
    have hday := ((mem_unitDays_monthly hf).1 hd).2
    rwa [hr, if_neg Bool.false_ne_true] at hday
  | yearly =>
    intro hr
    have hday := ((mem_unitDays_yearly hf).1 hd).2
    rw [hr, if_neg Bool.false_ne_true] at hday
    refine ⟨hday.1, fun hm => ?_⟩
    rw [if_pos hm] at hday
    exact hday.2

theorem firstDay_le_periodStart (hp : p.checkStart = .ok ()) : firstDay ≤ p.periodStart 0 := by
  unfold checkStart at hp
  split at hp
  · assumption
  · cases hp

private theorem firstDay_le_of_checkStart (hp : p.checkStart = .ok ()) (hfrom : p.anchor ≤ c) :
    firstDay ≤ c.day := by
  have hbegun := p.periodStart_zero_le
  have hanchor := Instant.day_le_of_le hfrom
  have hfirst := firstDay_le_periodStart hp
  omega

private theorem recurs_of_mem_candidates (hp : p.checkStart = .ok ()) (hc : c ∈ p.candidates k) :
    p.rule.Recurs p.anchor c := by
  obtain ⟨hday, htime, hfrom⟩ := mem_candidates.1 hc
  have hlow := firstDay_le_of_checkStart hp hfrom
  have hhigh := le_lastDay_of_mem_days hday
  have hunit : p.unitOf c.day = p.unit k := unitOf_of_mem_days hday
  unfold days at hday
  split at hday
  · obtain ⟨hmem, hchosen⟩ := List.mem_filter.1 hday
    refine ⟨hfrom, ⟨k, ?_⟩, defaultDay_of_mem_unitDays hmem,
      (Rule.choosesDay_iff _ hlow hhigh).1 hchosen, htime⟩
    rw [max_comm]
    exact hunit
  · cases hday

/-- Wherever the rule recurs before a candidate there is a candidate, on the calendar's last day as
well: if that day is one candidate's, it is no longer missed. -/
private theorem exists_mem_candidates_of_recurs (hp : p.checkStart = .ok ())
    (hc : c ∈ p.candidates k)
    (hb : p.rule.Recurs p.anchor b) (hbc : b < c) : ∃ j ≤ k, b ∈ p.candidates j := by
  obtain ⟨hday, -, -⟩ := mem_candidates.1 hc
  have hhigh := le_lastDay_of_mem_days hday
  have hle := Instant.day_le_of_le hbc.le
  by_cases hlast : b.day < lastDay
  · obtain ⟨j, hj⟩ := hb.unit
    rw [max_comm] at hj
    have hunit : p.unitOf b.day = p.unit j := hj
    refine ⟨j, not_lt.1 fun hkj => ?_,
      (mem_candidates_iff (firstDay_le_of_checkStart hp hb.from_anchor) hlast).2 ⟨hunit, hb⟩⟩
    have hlater : p.unitOf c.day < p.unitOf b.day := by
      rw [unitOf_of_mem_candidates hc, hunit]
      exact p.unit_lt_iff.2 hkj
    exact absurd (day_lt_of_unitOf_lt hlater) (not_lt.2 hle)
  · have hsame : b.day = c.day := by omega
    exact ⟨k, le_rfl, mem_candidates.2 ⟨hsame ▸ hday, hb.time, hb.from_anchor⟩⟩

theorem inSeries_of_offers (hp : p.checkStart = .ok ()) (hc : p.Offers c) :
    p.rule.InSeries p.anchor c := by
  obtain ⟨k, hk⟩ := hc.period
  refine ⟨recurs_of_mem_candidates hp hk, hc.ends, fun n hn => ?_⟩
  have hcounted : {b | p.rule.Recurs p.anchor b ∧ b < c} ⊆
      {b | b ∈ (p.enumerate 0 (p.periodOf c.day + 1)).filter (· < c)} := by
    rintro b ⟨hb, hbc⟩
    obtain ⟨j, hjk, hj⟩ := exists_mem_candidates_of_recurs hp hk hb hbc
    refine List.mem_filter.2 ⟨mem_enumerate.2 ⟨j, Nat.zero_le j, ?_, hj⟩, decide_eq_true hbc⟩
    rw [periodOf_of_mem_candidates hk]
    omega
  have hle := Set.encard_le_encard hcounted
  rw [Ascending.encard_eq_length ((p.enumerate_ascending 0 _).filter _)] at hle
  exact hle.trans_lt (Nat.cast_lt.2 (hc.count n hn))

end Pattern

theorem Series.yields_of_mem_expand {s : Series} {cap : Nat} {start stop c : Instant}
    {e : Expansion} (h : s.expand cap start stop = .ok e) (hc : c ∈ e.candidates) :
    s.Yields c := by
  obtain ⟨_ | r, anchor⟩ := s
  · cases h
    exact List.mem_singleton.1 (List.mem_filter.1 hc).1
  · obtain ⟨⟨⟩, hstart, hexpand⟩ := bind_eq_ok_iff.1 h
    cases hexpand
    exact Pattern.inSeries_of_offers hstart (Pattern.offers_of_mem_expand hc).1

end Recurrence
