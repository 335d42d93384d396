import Recurrence.Proofs.PeriodCounts

set_option autoImplicit false
set_option relaxedAutoImplicit false

/-!
Expansion of a series in a window. What an expansion finds in the window's own periods, after
counting the earlier ones, are the first instants that the series has in the window.
-/

namespace Recurrence

open Calendar

theorem Instant.Inner.firstDay_le_unitStart {t : Instant} (ht : t.Inner) (frequency : Frequency)
    (weekStart : Weekday) :
    firstDay ≤ frequency.unitStart weekStart (frequency.unitOf weekStart t.day) := by
  have hroom := ht.firstDay_add_le
  have hnext := Frequency.unitOf_bounds frequency weekStart t.day
  cases frequency with
  | daily => simp only [Frequency.unitStart, Frequency.unitOf]; omega
  | weekly => simp only [Frequency.unitStart, Frequency.unitOf]; omega
  | monthly =>
    have hdate := date_bounds t.day
    have hyear := yearStart_le_iff.2 (le_of_lt ht.1)
    have hdays := Frequency.monthStart_eq (Frequency.unitOf .monthly .monday t.day)
    have hdiv : Frequency.unitOf .monthly .monday t.day / 12 = yearOf t.day := by
      simp only [Frequency.unitOf, year_date]
      omega
    rw [hdiv] at hdays
    have hzero : firstDay = yearStart firstYear := by decide
    change firstDay ≤ Frequency.unitStart .monthly .monday
      (Frequency.unitOf .monthly .monday t.day)
    omega
  | yearly =>
    have hyear := yearStart_le_iff.2 (le_of_lt ht.1)
    have hzero : firstDay = yearStart firstYear := by decide
    simp only [Frequency.unitStart, Frequency.unitOf]
    omega

namespace Pattern

variable {p : Pattern} {start stop c : Instant}

theorem le_bound_iff : c ≤ p.bound stop ↔ c ≤ stop ∧ ∀ t, p.rule.ends = some t → c ≤ t := by
  unfold bound
  cases p.rule.ends with
  | none => simp
  | some t =>
    rw [Instant.le_earliest_iff]
    simp

theorem checkStart_of_inner (hp : p.anchor.Inner) : p.checkStart = .ok () := by
  have hfirst : firstDay ≤ p.periodStart 0 := by
    rw [p.periodStart_zero]
    exact hp.firstDay_le_unitStart _ _
  unfold checkStart
  rw [if_pos hfirst]

private theorem unit_firstPeriod_le (hlow : p.firstPeriod start ≠ 0) :
    p.unit (p.firstPeriod start) ≤ p.unitOf start.day := by
  unfold firstPeriod at hlow ⊢
  split at hlow
  · rename_i hlt
    rw [if_pos hlt]
    exact unit_periodOf_le (Instant.day_le_of_le (le_of_lt hlt))
  · exact absurd rfl hlow

theorem lt_start_of_mem_enumerate (hc : c ∈ p.enumerate 0 (p.firstPeriod start)) :
    c < start := by
  obtain ⟨j, -, hj, hmem⟩ := mem_enumerate.1 hc
  have hunit := @unit_firstPeriod_le p start (by omega)
  refine Instant.lt_of_day_lt (day_lt_of_unitOf_lt (p := p) ?_)
  rw [unitOf_of_mem_candidates hmem]
  exact lt_of_lt_of_le (p.unit_lt_iff.2 (by omega)) hunit

private theorem periodStart_firstPeriod_le (hp : p.anchor.Inner) (hstart : start.Inner) :
    p.periodStart (p.firstPeriod start) ≤ lastDay := by
  by_cases hzero : p.firstPeriod start = 0
  · have hbegun := p.periodStart_zero_le
    have hroom := hp.day_add_lt
    rw [hzero]
    omega
  · have hbegun : p.periodStart (p.firstPeriod start) ≤ start.day :=
      Frequency.unitStart_le_iff.2 (unit_firstPeriod_le hzero)
    have hroom := hstart.day_add_lt
    omega

def reach (p : Pattern) (start stop : Instant) : Nat :=
  p.firstPeriod start + (p.periodsBy (p.bound stop).day - p.firstPeriod start)

def inWindow (p : Pattern) (start stop : Instant) : List Instant :=
  (upTo (p.rule.count.map (·.val.toNat)) (p.enumerate 0 (p.reach start stop))).filter
    fun c => start ≤ c ∧ c ≤ p.bound stop

theorem left_expand (hbegun : p.periodStart (p.firstPeriod start) ≤ lastDay) (cap : Nat) :
    (p.rule.count.map (·.val.toNat)).map (· - (p.expand cap start stop).alreadyCounted) =
      (p.rule.count.map (·.val.toNat)).map
        (· - (p.enumerate 0 (p.firstPeriod start)).length) := by
  unfold expand
  cases hcount : p.rule.count with
  | none => rfl
  | some n =>
    simp only [Option.map_some, Option.isSome_some, if_true]
    rw [sub_countInPeriods _ hbegun]

/-- Skipping and counting the earlier periods changes nothing: an expansion finds the first
candidates in the window. -/
private theorem expand_candidates_eq_take (hp : p.anchor.Inner) (hstart : start.Inner) (cap : Nat) :
    (p.expand cap start stop).candidates = (p.inWindow start stop).take cap := by
  have hnone : choose start (p.bound stop) (p.rule.count.map (·.val.toNat)) cap
      (p.enumerate 0 (p.firstPeriod start)) = [] := by
    refine choose_eq_nil_of_outside fun c hc hinside => ?_
    exact not_le.2 (lt_start_of_mem_enumerate hc) hinside.1
  have hsplit := choose_append start (p.bound stop) (p.rule.count.map (·.val.toNat)) cap
    (p.enumerate 0 (p.firstPeriod start))
    (p.enumerate (p.firstPeriod start)
      (p.periodsBy (p.bound stop).day - p.firstPeriod start))
  rw [hnone, List.nil_append, List.length_nil, Nat.sub_zero] at hsplit
  rw [expand_candidates, left_expand (periodStart_firstPeriod_le hp hstart), ← hsplit]
  unfold inWindow reach
  rw [enumerate_append, Nat.zero_add]
  rfl

private theorem inWindow_ascending (p : Pattern) (start stop : Instant) :
    (p.inWindow start stop).Pairwise (· < ·) := by
  unfold inWindow upTo
  refine List.Pairwise.filter _ ?_
  split
  · exact (enumerate_ascending p 0 _).take
  · exact enumerate_ascending p 0 _

theorem mem_enumerate_and_lt_iff {n : Nat} (hp : p.anchor.Inner) (hc : c.Inner)
    (hn : p.unitOf c.day < p.unit n) (b : Instant) :
    b ∈ p.enumerate 0 n ∧ b < c ↔ p.rule.Recurs p.anchor b ∧ b < c := by
  refine and_congr_left fun hbc => ?_
  have hmono := Frequency.unitOf_mono p.rule.frequency p.rule.weekStart
    (Instant.day_le_of_le (le_of_lt hbc))
  change p.unitOf b.day ≤ p.unitOf c.day at hmono
  constructor
  · intro hb
    obtain ⟨j, -, -, hmem⟩ := mem_enumerate.1 hb
    have hfrom := (mem_candidates.1 hmem).2.2
    exact ((mem_enumerate_zero_iff (hp.of_between hc hfrom (le_of_lt hbc))).1 hb).1
  · intro hb
    exact (mem_enumerate_zero_iff (hp.of_between hc hb.from_anchor (le_of_lt hbc))).2
      ⟨hb, by omega⟩

private theorem mem_inWindow_iff (hp : p.anchor.Inner) (hstop : stop.Inner) :
    c ∈ p.inWindow start stop ↔ p.rule.InSeries p.anchor c ∧ start ≤ c ∧ c ≤ stop := by
  have hreach : c ≤ p.bound stop → p.unitOf c.day < p.unit (p.reach start stop) := by
    intro hc
    have hmono := Frequency.unitOf_mono p.rule.frequency p.rule.weekStart
      (Instant.day_le_of_le hc)
    change p.unitOf c.day ≤ p.unitOf (p.bound stop).day at hmono
    have hnot : ¬ p.reach start stop < p.periodsBy (p.bound stop).day := by
      unfold reach
      omega
    rw [lt_periodsBy_iff] at hnot
    omega
  have hlisted : c ≤ p.bound stop →
      (c ∈ upTo (p.rule.count.map (·.val.toNat)) (p.enumerate 0 (p.reach start stop)) ↔
        p.rule.Recurs p.anchor c ∧
          ∀ n, p.rule.count = some n → {b | p.rule.Recurs p.anchor b ∧ b < c}.encard <
            n.val.toNat) := by
    intro hc
    have hmem : c ∈ p.enumerate 0 (p.reach start stop) ↔ p.rule.Recurs p.anchor c := by
      have hinner : p.anchor ≤ c → c.Inner := fun hfrom =>
        hp.of_between hstop hfrom (le_bound_iff.1 hc).1
      constructor
      · intro h
        obtain ⟨j, -, -, hcandidate⟩ := mem_enumerate.1 h
        exact ((mem_enumerate_zero_iff (hinner (mem_candidates.1 hcandidate).2.2)).1 h).1
      · intro h
        exact (mem_enumerate_zero_iff (hinner h.from_anchor)).2 ⟨h, hreach hc⟩
    unfold upTo
    cases hcount : p.rule.count with
    | none => simp [hmem]
    | some n =>
      simp only [Option.map_some, Option.some.injEq, forall_eq']
      rw [Ascending.mem_take_iff (enumerate_ascending p 0 _), hmem]
      refine and_congr_right fun hrecurs => ?_
      have hinner := hp.of_between hstop hrecurs.from_anchor (le_bound_iff.1 hc).1
      have hset : {b | b ∈ p.enumerate 0 (p.reach start stop) ∧ b < c} =
          {b | p.rule.Recurs p.anchor b ∧ b < c} :=
        Set.ext (mem_enumerate_and_lt_iff hp hinner (hreach hc))
      rw [hset]
  unfold inWindow
  rw [List.mem_filter, decide_eq_true_eq]
  constructor
  · rintro ⟨hmem, hstart, hbound⟩
    obtain ⟨hrecurs, hcount⟩ := (hlisted hbound).1 hmem
    obtain ⟨hle, hends⟩ := le_bound_iff.1 hbound
    exact ⟨⟨hrecurs, hends, hcount⟩, hstart, hle⟩
  · rintro ⟨⟨hrecurs, hends, hcount⟩, hstart, hle⟩
    have hbound := le_bound_iff.2 ⟨hle, hends⟩
    exact ⟨(hlisted hbound).2 ⟨hrecurs, hcount⟩, hstart, hbound⟩

end Pattern

namespace Series

structure Listing (s : Series) (start stop : Instant) (cs : List Instant) : Prop where
  ascending : cs.Pairwise (· < ·)
  mem_iff : ∀ c, c ∈ cs ↔ s.Yields c ∧ start ≤ c ∧ c ≤ stop

private theorem Listing.of_rule {r : Rule} {anchor start stop : Instant} (hanchor : anchor.Inner)
    (hstop : stop.Inner) :
    Listing ⟨some r, anchor⟩ start stop ((Pattern.of r anchor).inWindow start stop) where
  ascending := Pattern.inWindow_ascending _ _ _
  mem_iff _ := Pattern.mem_inWindow_iff (p := Pattern.of r anchor) hanchor hstop

theorem exists_listing {s : Series} {start stop : Instant} (hanchor : s.anchor.Inner)
    (hstart : start.Inner) (hstop : stop.Inner) (cap : Nat) :
    ∃ e cs, s.expand cap start stop = .ok e ∧ s.Listing start stop cs ∧
      e.candidates = cs.take cap := by
  obtain ⟨_ | r, anchor⟩ := s
  · refine ⟨_, [anchor].filter fun c => start ≤ c ∧ c ≤ stop, rfl, ⟨?_, ?_⟩, ?_⟩
    · exact (List.pairwise_singleton _ _).filter _
    · intro c
      rw [List.mem_filter, List.mem_singleton, decide_eq_true_eq]
      exact Iff.rfl
    · by_cases hwindow : start ≤ anchor ∧ anchor ≤ stop <;> cases cap <;> simp [hwindow]
  · have hfirst := Pattern.checkStart_of_inner (p := Pattern.of r anchor) hanchor
    exact ⟨_, _, expand_of_checkStart hfirst cap start stop, Listing.of_rule hanchor hstop,
      Pattern.expand_candidates_eq_take (p := Pattern.of r anchor) hanchor hstart cap⟩

theorem encard_le_of_expand {s : Series} {start stop : Instant} {n : Nat} {cs : List Instant}
    (hanchor : s.anchor.Inner) (hstart : start.Inner) (hstop : stop.Inner)
    (hexpand : (s.expand (n + 1) start stop).map Expansion.candidates = .ok cs)
    (hlength : cs.length ≤ n) : {c | s.Yields c ∧ start ≤ c ∧ c ≤ stop}.encard ≤ n := by
  obtain ⟨e, all, hok, hlisting, htake⟩ := exists_listing hanchor hstart hstop (n + 1)
  rw [hok] at hexpand
  obtain rfl : e.candidates = cs := Except.ok.inj hexpand
  rw [htake, List.length_take] at hlength
  have hset : {c | s.Yields c ∧ start ≤ c ∧ c ≤ stop} = {c | c ∈ all} :=
    Set.ext fun c => (hlisting.mem_iff c).symm
  rw [hset, Ascending.encard_eq_length hlisting.ascending, Nat.cast_le]
  omega

/-- In strictly ascending order, an expansion yields the first elements, as many as the cap allows,
of the rule's series in the window. -/
theorem expand_yields_first_of_calendar (r : Rule) (anchor start stop : Instant) (cap : Nat)
    (hanchor : anchor.Inner) (hstart : start.Inner) (hstop : stop.Inner) :
    ∃ (e : Expansion) (cs : List Instant), (⟨some r, anchor⟩ : Series).expand cap start stop = .ok e ∧
      e.candidates.Pairwise (· < ·) ∧ cs.Pairwise (· < ·) ∧
      (∀ c, c ∈ cs ↔ r.InSeries anchor c ∧ start ≤ c ∧ c ≤ stop) ∧
      e.candidates = cs.take cap := by
  obtain ⟨e, cs, hexpand, hlisting, htake⟩ :=
    exists_listing (s := ⟨some r, anchor⟩) hanchor hstart hstop cap
  refine ⟨e, cs, hexpand, ?_, hlisting.ascending, hlisting.mem_iff, htake⟩
  rw [htake]
  exact hlisting.ascending.take

/-- Of a monthly series on the 31st with four occurrences, the second and the third are the first
two after January; February's is moved to its last day. -/
theorem expand_month_ends :
    (Instant.nine 2023 1 31).Inner ∧ (Instant.nine 2023 2 1).Inner ∧
      (Instant.nine 2023 12 31).Inner ∧
      ∃ (e : Expansion) (cs : List Instant),
        (⟨some { frequency := .monthly, count := some ⟨4, by decide, by decide⟩ },
          Instant.nine 2023 1 31⟩ : Series).expand 2 (Instant.nine 2023 2 1)
            (Instant.nine 2023 12 31) = .ok e ∧
        e.candidates = [Instant.nine 2023 2 28, Instant.nine 2023 3 31] ∧
        e.candidates = cs.take 2 ∧ cs.Pairwise (· < ·) := by
  have hanchor : (Instant.nine 2023 1 31).Inner := by decide
  have hstart : (Instant.nine 2023 2 1).Inner := by decide
  have hstop : (Instant.nine 2023 12 31).Inner := by decide
  obtain ⟨e, cs, hexpand, -, hcs, -, htake⟩ := expand_yields_first_of_calendar
    { frequency := .monthly, count := some ⟨4, by decide, by decide⟩ } _ _ _ 2 hanchor hstart hstop
  refine ⟨hanchor, hstart, hstop, e, cs, hexpand, ?_, htake, hcs⟩
  have hrun : ((⟨some { frequency := .monthly, count := some ⟨4, by decide, by decide⟩ },
      Instant.nine 2023 1 31⟩ : Series).expand 2 (Instant.nine 2023 2 1)
        (Instant.nine 2023 12 31)).map Expansion.candidates =
      .ok [Instant.nine 2023 2 28, Instant.nine 2023 3 31] := by rfl
  rw [hexpand] at hrun
  exact Except.ok.inj hrun

end Series

end Recurrence
