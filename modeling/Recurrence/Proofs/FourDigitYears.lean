import Recurrence.Proofs.AtomicEdits
import Recurrence.Proofs.CounterBounds
import Recurrence.Proofs.QuerySoundness

set_option autoImplicit false
set_option relaxedAutoImplicit false

/-!
Stores whose times lie in the years 1 to 9999, leap seconds or not. No query and no split of such a
store leaves the calendar, whatever its rules, and no number that is held on the way comes near the
limit of a word.
-/

namespace Recurrence

open Calendar Occurrence

namespace Pattern

variable {p : Pattern} {start stop t : Instant}

/-- In an expansion the units of the anchor and of the window's start begin within the calendar, and
all numbers fit a word that are held until a period is met that begins behind the window, those with
which the expansion ends among them. -/
structure ExpandsInRange (p : Pattern) (start stop : Instant) : Prop where
  anchorUnit : firstDay ≤ p.periodStart 0
  startUnit : firstDay ≤ p.rule.frequency.unitStart p.rule.weekStart (p.unitOf start.day)
  number : ∀ n, p.Held (p.reach start stop) n → n < 2 ^ 63
  result : ∀ cap, (p.expand cap start stop).alreadyCounted < 2 ^ 63 ∧
    (p.expand cap start stop).candidates.length < 2 ^ 63

/-- In a split at a date the unit of the date begins within the calendar, and all numbers fit a word
that are held in testing the date, in counting what comes before it and in searching back from it. -/
structure SplitsInRange (p : Pattern) (date : Instant) : Prop where
  test : p.ExpandsInRange date date
  number : ∀ n, p.Held (p.periodOf date.day + 1) n → n < 2 ^ 63

private theorem reach_le (hanchor : p.anchor.FourDigit) (hstart : start.FourDigit)
    (ht : t.FourDigit) (hstop : stop.day ≤ t.day) : p.reach start stop ≤ periodsLimit := by
  have hfirst : p.firstPeriod start < periodsLimit := by
    unfold firstPeriod
    split
    · exact periodOf_lt hanchor hstart
    · decide
  have hbound := Instant.day_le_of_le (le_bound_iff.1 (le_refl (p.bound stop))).1
  have hlast := periodsBy_lt hanchor ht (hbound.trans hstop)
  unfold reach
  omega

private theorem expandsInRange (hanchor : p.anchor.FourDigit) (hstart : start.FourDigit)
    (ht : t.FourDigit) (hstop : stop.day ≤ t.day) : p.ExpandsInRange start stop where
  anchorUnit := by
    unfold periodStart
    rw [p.unit_zero]
    exact hanchor.inner.firstDay_le_unitStart _ _
  startUnit := hstart.inner.firstDay_le_unitStart _ _
  number _ hn := hn.lt_word hanchor (reach_le hanchor hstart ht hstop)
  result cap := by
    have hreach := reach_le hanchor hstart ht hstop
    obtain ⟨hcounted, hlength⟩ := p.held_of_expand cap start stop
    exact ⟨hcounted.lt_word hanchor hreach, hlength.lt_word hanchor hreach⟩

private theorem splitsInRange (hanchor : p.anchor.FourDigit) (ht : t.FourDigit) :
    p.SplitsInRange t where
  test := expandsInRange hanchor ht ht le_rfl
  number _ hn := hn.lt_word hanchor (periodOf_lt hanchor ht)

end Pattern

namespace Series

private theorem exists_expand {s : Series} (hs : s.anchor.Inner) (cap : Nat)
    (start stop : Instant) : ∃ e, s.expand cap start stop = .ok e := by
  obtain ⟨_ | r, anchor⟩ := s
  · exact ⟨_, rfl⟩
  · exact ⟨_, expand_of_checkStart (Pattern.checkStart_of_inner (p := Pattern.of r anchor) hs) _ _ _⟩

private theorem exists_candidateInSecond? {s : Series} {t : Instant} (hs : s.anchor.Inner)
    (ht : t.Inner) (cap : Nat) : ∃ found, s.candidateInSecond? cap t = .ok found := by
  obtain ⟨next, last, hnext, hlast, -, -⟩ := ht.second_span
  obtain ⟨e, he⟩ := s.exists_expand hs (min cap 1) t.truncate last
  exact exists_bind_eq_ok hnext (exists_bind_eq_ok hlast (exists_bind_eq_ok he ⟨_, rfl⟩))

end Series

namespace Segment

variable {g : Segment} {cap : Nat} {start stop first last : Instant}

structure FourDigit (g : Segment) : Prop where
  anchor : g.series.anchor.FourDigit
  duration : ∃ a b : Instant, a.FourDigit ∧ b.FourDigit ∧ g.duration = a.since b
  endBoundary : ∀ t, g.endBoundary = some t → t.FourDigit
  exception : ∀ e ∈ g.exceptions.values, e.date.FourDigit

/-- A window in which a query of a segment expands its series: the part of the query's own window
that belongs to the segment, or the second of an exception. -/
inductive Expands (g : Segment) (start stop : Instant) : Instant → Instant → Prop
  | window {last : Instant} (hlast : g.lastInstant stop = .ok last)
    (hle : start.latest g.startBoundary ≤ last) :
    Expands g start stop (start.latest g.startBoundary) last
  | second {e : Exception} {next last : Instant} (he : e ∈ g.exceptions.values)
    (hnext : e.date.truncate.add (.ofSeconds 1) = .ok next)
    (hlast : next.add (.neg .nanosecond) = .ok last) : Expands g start stop e.date.truncate last

private theorem FourDigit.exists_lastInstant (hg : g.FourDigit) (stop : Instant) :
    ∃ last, g.lastInstant stop = .ok last := by
  cases hend : g.endBoundary with
  | none => exact ⟨stop, lastInstant_of_none hend⟩
  | some boundary =>
    obtain ⟨before, hbefore, -⟩ := (hg.endBoundary boundary hend).inner.add_neg_nanosecond
    exact ⟨_, lastInstant_of_some hend hbefore⟩

private theorem FourDigit.exists_occurrencesOf (hg : g.FourDigit) (cap : Nat)
    (hstart : start.FourDigit)
    (hstop : stop.FourDigit) (hlow : start ≤ first) (hhigh : last ≤ stop) :
    ∃ os, g.occurrencesOf cap first last = .ok os := by
  unfold occurrencesOf
  split
  · obtain ⟨e, he⟩ := Series.exists_expand hg.anchor.inner cap first last
    have happly : ∀ c ∈ e.candidates, g.overlay.apply c = .ok (g.outcome c) := by
      intro c hc
      obtain ⟨hfirst, hlast⟩ := (Series.expand_eq_ok he).2 c hc
      have hcandidate : c.FourDigit := hstart.of_between hstop (hlow.trans hfirst) (hlast.trans hhigh)
      obtain ⟨a, b, ha, hb, hduration⟩ := hg.duration
      refine apply_eq_outcome fun _ => ?_
      rw [hduration]
      exact hcandidate.add_since ha hb
    exact exists_bind_eq_ok he (exists_bind_eq_ok (mapM_eq_ok_map happly) ⟨_, rfl⟩)
  · exact ⟨[], rfl⟩

private theorem FourDigit.exists_movedIn? (hg : g.FourDigit) {e : Exception}
    (he : e ∈ g.exceptions.values) :
    ∃ moved, g.movedIn? cap start stop first last e = .ok moved := by
  obtain ⟨found, hfound⟩ :=
    Series.exists_candidateInSecond? hg.anchor.inner (hg.exception e he).inner cap
  unfold movedIn?
  cases e.change with
  | cancelled => exact ⟨none, rfl⟩
  | replaced r =>
    simp only
    split
    · rw [hfound]
      cases found with
      | none => exact ⟨none, rfl⟩
      | some candidate =>
        simp only [bind, Except.bind]
        split <;> exact ⟨_, rfl⟩
    · exact ⟨none, rfl⟩

private theorem FourDigit.exists_resolve (hg : g.FourDigit) (hstart : start.FourDigit)
    (hstop : stop.FourDigit) (cap max : Nat) : ∃ os, g.resolve cap start stop max = .ok os := by
  unfold resolve
  split
  · exact ⟨[], rfl⟩
  · obtain ⟨last, hlast⟩ := hg.exists_lastInstant stop
    have hfrom : start ≤ start.latest g.startBoundary := (Instant.latest_le_iff.1 le_rfl).1
    obtain ⟨regular, hregular⟩ :=
      hg.exists_occurrencesOf cap hstart hstop hfrom (le_of_lastInstant hlast)
    have hmoved : ∀ e ∈ g.exceptions.values,
        ∃ o, g.movedIn? cap start stop (start.latest g.startBoundary) last e = .ok o :=
      fun e he => hg.exists_movedIn? he
    obtain ⟨moved, hmoved⟩ := exists_mapM_eq_ok hmoved
    exact exists_bind_eq_ok hlast (exists_bind_eq_ok hregular (exists_bind_eq_ok hmoved ⟨_, rfl⟩))

/-- All expansions of a query lie in the years of the window and of the exceptions. -/
private theorem FourDigit.expandsInRange (hg : g.FourDigit) (hstart : start.FourDigit)
    (hstop : stop.FourDigit) (h : g.Expands start stop first last) {r : Rule} :
    (Pattern.of r g.series.anchor).ExpandsInRange first last := by
  cases h with
  | window hlast hle =>
    have hend := le_of_lastInstant hlast
    have hbegin : start ≤ start.latest g.startBoundary := (Instant.latest_le_iff.1 le_rfl).1
    exact Pattern.expandsInRange (p := Pattern.of r g.series.anchor) hg.anchor
      (hstart.of_between hstop hbegin (hle.trans hend)) hstop (Instant.day_le_of_le hend)
  | second he hnext hlast =>
    have hdate := hg.exception _ he
    exact Pattern.expandsInRange (p := Pattern.of r g.series.anchor) hg.anchor hdate hdate
      (Instant.day_of_second_span hnext hlast).le

end Segment

namespace Store

variable {s : Store} {id : ObjectId} {edit : BulkEdit} {start stop : Instant}

/-- The times of a store from which others are computed lie in the years 1 to 9999. -/
structure FourDigit (s : Store) : Prop where
  entity : ∀ id e, s.entity? id = some e → e.start.FourDigit ∧ e.stop.FourDigit
  exception : ∀ id, ∀ e ∈ (s.exceptionsOf id).values, e.date.FourDigit
  link : ∀ id link, s.link? id = some link → link.splitDate.FourDigit

theorem Ordinary.fourDigit (hs : s.Ordinary) : s.FourDigit where
  entity id e he := ⟨(hs.entity id e he).1.fourDigit, (hs.entity id e he).2.fourDigit⟩
  exception id e he := (hs.exception id e he).fourDigit
  link id link hlink := (hs.link id link hlink).fourDigit

theorem FourDigit.segment (hs : s.FourDigit) {root : ObjectId} {g : Segment}
    (hg : g ∈ (s.chain root).inOrder) : g.FourDigit := by
  rw [Chain.inOrder_of_linked (s.chain_linked root)] at hg
  obtain ⟨own, boundary, next, hown, hsegment⟩ := exists_entity_of_mem_chain hg
  obtain ⟨hanchor, hend⟩ := hs.entity _ own hown
  rw [hsegment]
  refine ⟨hanchor, ⟨own.stop, own.start, hend, hanchor, rfl⟩, fun t ht => ?_, hs.exception _⟩
  obtain ⟨link, hlink, rfl⟩ := Option.map_eq_some_iff.1 ht
  exact hs.link _ link hlink

theorem FourDigit.exists_occurrences (hs : s.FourDigit) (limits : Limits) (root : ObjectId)
    (hstart : start.FourDigit) (hstop : stop.FourDigit) (max : Option Nat) :
    ∃ os, s.occurrences limits root start stop max = .ok os := by
  by_cases hlt : stop < start
  · exact ⟨[], occurrences_of_inverted hlt root max⟩
  · rw [occurrences_eq_walk hlt]
    have hresolved : ∀ g ∈ (s.chain root).inOrder, ∃ os, g.resolve limits.safetyCap start stop
        (max.getD limits.maxOccurrences) = .ok os :=
      fun g hg => (hs.segment hg).exists_resolve hstart hstop _ _
    by_cases hmax : max.getD limits.maxOccurrences = 0
    · rw [hmax]
      exact ⟨[], Chain.walk_zero _ _ _ _⟩
    · choose! found hfound using hresolved
      exact ⟨_, Chain.walk_of_resolved hmax hfound⟩

private theorem FourDigit.applyBulkEdit_ne_calendar (hs : s.FourDigit) (e : CalendarError) :
    s.applyBulkEdit id edit ≠ .error (.split (.calendar e)) := by
  intro h
  cases applyBulkEdit_eq_error_iff.1 h with
  | calendar root rule hsplittable hstart =>
    have hanchor := (hs.entity id root hsplittable.root_eq).1
    refine hstart ?_
    rintro _ ⟨⟩
    exact Pattern.checkStart_of_inner (p := Pattern.of rule root.start) hanchor.inner

/-- On a store whose times lie in the years 1 to 9999 every query of a window in these years succeeds
and every split at a date in these years succeeds or is refused for a reason that has nothing to do
with the calendar's ends. All the units that they align instants to begin within the calendar, and
all the numbers that they hold fit a word. -/
theorem arithmetic_in_range (s : Store) (hs : s.FourDigit) :
    (∀ (limits : Limits) (root : ObjectId) (start stop : Instant) (max : Option Nat),
      start.FourDigit → stop.FourDigit →
        (∃ os, s.occurrences limits root start stop max = .ok os) ∧
          ∀ g ∈ (s.chain root).inOrder, ∀ first last, g.Expands start stop first last →
            ∀ r, g.series.rule = some r →
              (Pattern.of r g.series.anchor).ExpandsInRange first last) ∧
      ∀ (id : ObjectId) (edit : BulkEdit), edit.splitDate.FourDigit →
        (∀ e, s.applyBulkEdit id edit ≠ .error (.split (.calendar e))) ∧
          ∀ root r, s.recurring id = .ok (root, r) →
            (Pattern.of r root.start).SplitsInRange edit.splitDate := by
  constructor
  · intro limits root start stop max hstart hstop
    refine ⟨hs.exists_occurrences limits root hstart hstop max, fun g hg first last hexpands r _ => ?_⟩
    exact (hs.segment hg).expandsInRange hstart hstop hexpands
  · intro id edit hdate
    refine ⟨hs.applyBulkEdit_ne_calendar, fun root r hroot => ?_⟩
    have hanchor := (hs.entity id root (recurring_eq_ok hroot).1).1
    exact Pattern.splitsInRange (p := Pattern.of r root.start) hanchor hdate

/-- An object on every Monday from the first day of the year 1 on, which would be over only with the
last day of the year 9999. Its weeks begin on Tuesdays, the first of them before the year 1; its
interval is none, one of its hours is on no clock, and its count is as large as it can be. -/
def everyMonday : Entity where
  id := ⟨"monday"⟩
  organization := ⟨"office"⟩
  details := .available
  start := .nine 1 1 1
  stop := .nine 9999 12 31
  rule := (BoundedInt.ofInt? 0).map fun interval =>
    { frequency := .weekly
      interval
      count := BoundedInt.ofInt? 4294967295
      hours := .ofList ([9, 200].filterMap BoundedInt.ofInt?)
      weekStart := .tuesday }

def lastMondays : List Edit :=
  [.insert everyMonday, .upsertException ⟨⟨"monday"⟩, .nine 9999 12 27, .cancelled⟩,
    .insertLink ⟨⟨"monday"⟩, none, .nine 9999 12 31⟩]

/-- The last Mondays of the year 9999 are reported, though they end in the year 19997, and a split at
the last but one, before which more than half a million come, holds no number that is too large. -/
theorem last_mondays_in_range :
    (run lastMondays).FourDigit ∧ (Instant.nine 9999 12 1).FourDigit ∧
      (Instant.nine 9999 12 31).FourDigit ∧
      (∃ os, (run lastMondays).occurrences {} ⟨"monday"⟩ (.nine 9999 12 1) (.nine 9999 12 31) none =
          .ok os ∧
        os.map Occurrence.start = [.nine 9999 12 6, .nine 9999 12 13, .nine 9999 12 20]) ∧
      ∀ root r, (run lastMondays).recurring ⟨"monday"⟩ = .ok (root, r) →
        (Pattern.of r root.start).SplitsInRange (.nine 9999 12 20) := by
  have hs : (run lastMondays).FourDigit :=
    (Ordinary.of_entries (by decide) (by decide) (by decide)).fourDigit
  have hstart : (Instant.nine 9999 12 1).FourDigit := by decide
  have hstop : (Instant.nine 9999 12 31).FourDigit := by decide
  obtain ⟨hqueries, hsplits⟩ := arithmetic_in_range (run lastMondays) hs
  obtain ⟨⟨os, hos⟩, -⟩ := hqueries {} ⟨"monday"⟩ _ _ none hstart hstop
  have hstarts : ((run lastMondays).occurrences {} ⟨"monday"⟩ (.nine 9999 12 1) (.nine 9999 12 31)
      none).map (fun os => os.map Occurrence.start) =
        .ok [.nine 9999 12 6, .nine 9999 12 13, .nine 9999 12 20] := by
    simp only [occurrences, Chain.walk, Segment.resolve, sort_eq_insertionSort]
    decide +kernel
  rw [hos] at hstarts
  refine ⟨hs, hstart, hstop, ⟨os, hos, Except.ok.inj hstarts⟩, ?_⟩
  exact (hsplits ⟨"monday"⟩ ⟨.nine 9999 12 20, none, none⟩ (by decide)).2

end Store

end Recurrence
