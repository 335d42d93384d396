import Recurrence.Proofs.QueryCompleteness

set_option autoImplicit false
set_option relaxedAutoImplicit false

/-!
Queries whose cap hides candidates. The cap counts candidates, whatever becomes of them, and a query
reports the first occurrences that it does not hide. They are the first of all if each hidden
candidate comes after enough others that take place as they are, and none of the hidden ones is
moved forward.
-/

namespace Recurrence

open Occurrence

private theorem Limits.one_le_safetyCap (limits : Limits) (hfault : limits.fault? = none) :
    1 ≤ limits.safetyCap := by
  unfold fault? at hfault
  split at hfault
  · cases hfault
  · split at hfault
    · cases hfault
    · rename_i hpositive
      exact Nat.one_le_iff_ne_zero.2 hpositive

namespace Segment

variable {g : Segment} {cap max : Nat} {start stop : Instant}

/-- What the cap hides of a segment is not replaced, and comes after enough candidates to which
there is no exception. -/
structure Spares (g : Segment) (cap : Nat) (start stop : Instant) (max : Nat) : Prop where
  unreplaced : ∀ c, g.Hidden cap start stop c →
    ∀ e, g.exceptions.exceptionTo? c = some e → e.change = .cancelled
  enough : ∀ c, g.Hidden cap start stop c → (max : ℕ∞) ≤
    {b | g.Raw b ∧ start ≤ b ∧ b < c ∧ g.exceptions.exceptionTo? b = none}.encard

/-- Only finitely many candidates take place in a window: those in it, and those that stand in a
second with an exception. -/
private theorem finite_effective (g : Segment) (start stop : Instant) :
    {o | g.Effective o ∧ start ≤ o.start ∧ o.start ≤ stop}.Finite := by
  have hinside : {c : Instant | start ≤ c ∧ c ≤ stop}.Finite := by
    refine ((Instant.finite_between start stop).insert stop).subset ?_
    rintro c ⟨hlow, hhigh⟩
    exact (eq_or_lt_of_le hhigh).imp_right fun hlt => ⟨hlow, hlt⟩
  have hexcepted : {c | g.series.Yields c ∧ c.truncate ∈ Table.keys g.exceptions}.Finite := by
    refine Set.Finite.of_injOn (f := Instant.truncate) (t := {t | t ∈ Table.keys g.exceptions})
      (fun c hc => hc.2) ?_ (List.finite_toSet _)
    intro a ha b hb heq
    exact ha.1.eq_of_truncate_eq hb.1 heq
  refine Set.Finite.of_injOn (f := candidate) ?_ ?_ (hinside.union hexcepted)
  · rintro o ⟨ho, hwindow⟩
    cases hexception : g.exceptions.exceptionTo? o.candidate with
    | none => exact Or.inl (ho.start_eq hexception ▸ hwindow)
    | some e => exact Or.inr ⟨ho.raw.yields, Table.mem_keys_iff.2 ⟨e, hexception⟩⟩
  · intro a ha b hb heq
    exact ha.1.eq_of_candidate_eq hb.1 heq

theorem exists_all (g : Segment) (start stop : Instant) :
    ∃ os : List Occurrence, os.Pairwise Earlier ∧
      ∀ o, o ∈ os ↔ g.Effective o ∧ start ≤ o.start ∧ o.start ≤ stop := by
  have hfinite := g.finite_effective start stop
  have hmem : ∀ o, o ∈ hfinite.toFinset.toList ↔
      g.Effective o ∧ start ≤ o.start ∧ o.start ≤ stop := by
    intro o
    rw [Finset.mem_toList, Set.Finite.mem_toFinset]
    exact Iff.rfl
  refine ⟨sort hfinite.toFinset.toList, sort_pairwise_of_candidates ?_, fun o => ?_⟩
  · refine (Finset.nodup_toList _).imp_of_mem ?_
    intro a b ha hb hne heq
    exact hne (((hmem a).1 ha).1.eq_of_candidate_eq ((hmem b).1 hb).1 heq)
  · rw [mem_sort, hmem]

end Segment

namespace Chain

variable {c : Chain} {cap max : Nat} {start stop : Instant}

theorem exists_all (c : Chain) (start stop : Instant) :
    ∃ all : List PlacedOccurrence, all.Pairwise PlacedOccurrence.Before ∧
      ∀ p, p ∈ all ↔ c.EffectiveAt p ∧ start ≤ p.occurrence.start ∧ p.occurrence.start ≤ stop := by
  choose os hordered hmem using fun g : Segment => g.exists_all start stop
  have hin : ∀ xs ∈ c.inOrder.map os, xs.Pairwise Earlier := by
    intro xs hxs
    obtain ⟨g, -, rfl⟩ := List.mem_map.1 hxs
    exact hordered g
  obtain ⟨all, hall, hiff, -⟩ := PlacedOccurrence.exists_merged hin
  refine ⟨all, hall, fun p => ?_⟩
  rw [hiff, List.getElem?_map]
  constructor
  · rintro ⟨_, hos, ho⟩
    obtain ⟨g, hg, rfl⟩ := Option.map_eq_some_iff.1 hos
    obtain ⟨heffective, hwindow⟩ := (hmem g _).1 ho
    exact ⟨⟨g, hg, heffective⟩, hwindow⟩
  · rintro ⟨⟨g, hg, heffective⟩, hwindow⟩
    exact ⟨os g, by rw [hg, Option.map_some], (hmem g _).2 ⟨heffective, hwindow⟩⟩

/-- A list holds the first `max` of the occurrences that start in a window and are kept. -/
def First (c : Chain) (start stop : Instant) (kept : PlacedOccurrence → Prop) (max : Nat)
    (os : List Occurrence) : Prop :=
  ∃ all : List PlacedOccurrence, all.Pairwise PlacedOccurrence.Before ∧
    (∀ p, p ∈ all ↔ c.EffectiveAt p ∧
      (start ≤ p.occurrence.start ∧ p.occurrence.start ≤ stop) ∧ kept p) ∧
    os = (all.take max).map PlacedOccurrence.occurrence

/-- An occurrence is the first of those that are kept and start after one instant and by another,
or there is none. -/
def Least (c : Chain) (after stop : Instant) (kept : PlacedOccurrence → Prop) :
    Option Occurrence → Prop
  | none => ∀ p, c.EffectiveAt p → kept p → after < p.occurrence.start →
      ¬ p.occurrence.start ≤ stop
  | some o => ∃ p, c.EffectiveAt p ∧ kept p ∧ after < p.occurrence.start ∧
      p.occurrence.start ≤ stop ∧ p.occurrence = o ∧
      ∀ q, c.EffectiveAt q → kept q → after < q.occurrence.start → q.occurrence.start ≤ stop →
        q = p ∨ p.Before q

theorem First.least {kept : PlacedOccurrence → Prop} {after : Instant} {os : List Occurrence}
    (hos : c.First start stop kept 1 os)
    (hafter : ∀ p, c.EffectiveAt p → (start ≤ p.occurrence.start ↔ after < p.occurrence.start)) :
    c.Least after stop kept os.head? := by
  obtain ⟨all, hordered, hmem, rfl⟩ := hos
  cases all with
  | nil =>
    intro p hp hkept hlow hhigh
    exact List.not_mem_nil ((hmem p).2 ⟨hp, ⟨(hafter p hp).2 hlow, hhigh⟩, hkept⟩)
  | cons p rest =>
    obtain ⟨hp, ⟨hlow, hhigh⟩, hkept⟩ := (hmem p).1 List.mem_cons_self
    refine ⟨p, hp, hkept, (hafter p hp).1 hlow, hhigh, rfl, fun q hq hkept' hlow' hhigh' => ?_⟩
    have hqmem := (hmem q).2 ⟨hq, ⟨(hafter q hq).2 hlow', hhigh'⟩, hkept'⟩
    exact (List.mem_cons.1 hqmem).imp_right ((List.pairwise_cons.1 hordered).1 q)

private theorem not_hiddenAt_of_spares (hspares : ∀ g ∈ c.inOrder, g.Spares cap start stop max)
    {p : PlacedOccurrence} (hp : c.EffectiveAt p)
    (hfew : {q | (c.EffectiveAt q ∧ start ≤ q.occurrence.start ∧ q.occurrence.start ≤ stop) ∧
      q.Before p}.encard < max) : ¬ c.HiddenAt cap start stop p := by
  rintro ⟨g, hg, hhidden⟩
  obtain ⟨g', hg', ho⟩ := hp
  obtain rfl := Option.some.inj (hg.symm.trans hg')
  have hspares := hspares g (List.mem_of_getElem? hg)
  have hnone : g.exceptions.exceptionTo? p.occurrence.candidate = none := by
    cases hexception : g.exceptions.exceptionTo? p.occurrence.candidate with
    | none => rfl
    | some e =>
      obtain ⟨r, hreplaced, -⟩ := ho.eq_replaced hexception
      rw [hspares.unreplaced _ hhidden e hexception] at hreplaced
      cases hreplaced
  -- The candidates before it that take place as they are all come before it.
  let placed (b : Instant) : PlacedOccurrence := ⟨p.place, g.regular b⟩
  have hinjective : Function.Injective placed := by
    intro a b hab
    exact congrArg (fun q : PlacedOccurrence => q.occurrence.candidate) hab
  have hsub : placed '' {b | g.Raw b ∧ start ≤ b ∧ b < p.occurrence.candidate ∧
      g.exceptions.exceptionTo? b = none} ⊆
      {q | (c.EffectiveAt q ∧ start ≤ q.occurrence.start ∧ q.occurrence.start ≤ stop) ∧
        q.Before p} := by
    rintro _ ⟨b, ⟨hraw, hlow, hlt, hfree⟩, rfl⟩
    refine ⟨⟨⟨g, hg, g.effective_regular hraw hfree⟩, hlow, hlt.le.trans hhidden.inside.2⟩,
      Or.inl (Or.inl ?_)⟩
    rw [ho.start_eq hnone]
    exact hlt
  have henough := hspares.enough _ hhidden
  rw [← hinjective.encard_image] at henough
  exact absurd (henough.trans (Set.encard_le_encard hsub)) (not_le.2 hfew)

private theorem First.eq_nil_of_inverted {kept : PlacedOccurrence → Prop} {os : List Occurrence}
    (hos : c.First start stop kept max os) (hlt : stop < start) : os = [] := by
  obtain ⟨all, -, hmem, rfl⟩ := hos
  have hnone : all = [] := by
    refine List.eq_nil_iff_forall_not_mem.2 fun p hp => ?_
    obtain ⟨-, ⟨hlow, hhigh⟩, -⟩ := (hmem p).1 hp
    exact absurd (hlow.trans hhigh) (not_le.2 hlt)
  rw [hnone, List.take_nil, List.map_nil]

theorem First.mem {kept : PlacedOccurrence → Prop} {os : List Occurrence}
    (hos : c.First start stop kept max os) (hshort : os.length < max) {p : PlacedOccurrence}
    (hp : c.EffectiveAt p) (hkept : kept p) (hlow : start ≤ p.occurrence.start)
    (hhigh : p.occurrence.start ≤ stop) : p.occurrence ∈ os := by
  obtain ⟨all, -, hmem, rfl⟩ := hos
  rw [List.length_map, List.length_take] at hshort
  rw [List.take_of_length_le (by omega)]
  exact List.mem_map_of_mem ((hmem p).2 ⟨hp, ⟨hlow, hhigh⟩, hkept⟩)

/-- A result consists of the first occurrences that the cap does not hide. They are the first of all
if it spares every segment, and nothing is left out if there are fewer than were asked for. -/
def Answers (c : Chain) (cap : Nat) (start stop : Instant) (max : Nat)
    (result : Except CalendarError (List Occurrence)) : Prop :=
  ∃ os, result = .ok os ∧ c.First start stop (fun p => ¬ c.HiddenAt cap start stop p) max os ∧
    ((∀ g ∈ c.inOrder, g.Spares cap start stop max) →
      c.First start stop (fun _ => True) max os ∧
        (os.length < max → ∀ p, c.EffectiveAt p → start ≤ p.occurrence.start →
          p.occurrence.start ≤ stop → p.occurrence ∈ os))

private theorem walk_answers (hc : ∀ g ∈ c.inOrder, g.Resolvable cap start stop)
    (hstart : start.Inner) (hstop : stop.Inner) (hcap : 1 ≤ cap) (max : Nat) :
    c.Answers cap start stop max (c.walk cap start stop max) := by
  obtain ⟨seen, hseen, hmemSeen, hwalk⟩ := exists_placed_report hc hstart hstop
  obtain ⟨all, hall, hmemAll⟩ := c.exists_all start stop
  refine ⟨_, hwalk max, ⟨seen, hseen, fun p => ?_, rfl⟩, fun hspares => ?_⟩
  · rw [hmemSeen, and_iff_right hcap]
  · have hfilter : seen = all.filter (· ∈ seen) := by
      refine Ascending.eq_of_mem_iff hseen (hall.filter _) fun p => ?_
      rw [List.mem_filter, decide_eq_true_eq, iff_and_self, hmemSeen, hmemAll]
      rintro ⟨-, hp, hwindow, -⟩
      exact ⟨hp, hwindow⟩
    have htake : ∀ p ∈ all.take max, p ∈ seen := by
      intro p hp
      obtain ⟨hmem, hfew⟩ := (Ascending.mem_take_iff hall).1 hp
      obtain ⟨heffective, hwindow⟩ := (hmemAll p).1 hmem
      simp only [hmemAll] at hfew
      exact (hmemSeen p).2
        ⟨hcap, heffective, hwindow, not_hiddenAt_of_spares hspares heffective hfew⟩
    have hsame : all.take max = seen.take max := by
      rw [← PlacedOccurrence.take_filter_eq_take fun p hp => decide_eq_true (htake p hp),
        ← hfilter]
    have hfirst : c.First start stop (fun _ => True) max
        ((seen.take max).map PlacedOccurrence.occurrence) := by
      refine ⟨all, hall, fun p => ?_, by rw [hsame]⟩
      rw [hmemAll, and_true]
    exact ⟨hfirst, fun hshort p hp hlow hhigh => hfirst.mem hshort hp trivial hlow hhigh⟩

/-- Where no sum leaves the calendar, a walk, a query and the search for the next occurrence report
the first occurrences that the cap does not hide. If it spares what comes first they miss nothing;
the search tells then whether there is an occurrence within the horizon. -/
theorem queries_yield_first (c : Chain) (cap : Nat) (start stop : Instant) (hstart : start.Inner)
    (hstop : stop.Inner) (hc : ∀ g ∈ c.inOrder, g.Resolvable cap start stop) :
    (1 ≤ cap → ∀ max, c.Answers cap start stop max (c.walk cap start stop max)) ∧
      ∀ (s : Store) (limits : Limits) (root : ObjectId), s.chain root = c →
        limits.safetyCap = cap →
        (1 ≤ cap → ∀ max : Option Nat, c.Answers cap start stop (max.getD limits.maxOccurrences)
          (s.occurrences limits root start stop max)) ∧
        (limits.fault? = none → ∀ after : Instant, after.add .nanosecond = .ok start →
          after.add limits.horizon = .ok stop →
          (after.time.isLeap = true ∨
            ∀ p, c.EffectiveAt p → p.occurrence.start.time.isLeap = false) →
          ∃ next, s.nextOccurrence? limits root after = .ok next ∧
            c.Least after stop (fun p => ¬ c.HiddenAt cap start stop p) next ∧
            ((∀ g ∈ c.inOrder, g.Spares cap start stop 1) →
              c.Least after stop (fun _ => True) next)) := by
  have hwalk := fun hcap => walk_answers hc hstart hstop hcap
  refine ⟨hwalk, ?_⟩
  rintro s limits root rfl rfl
  refine ⟨fun hcap max => ?_, fun hfault after hfrom huntil hleap => ?_⟩
  · by_cases hlt : stop < start
    · obtain ⟨os, -, hfirst, hspared⟩ := hwalk hcap (max.getD limits.maxOccurrences)
      obtain rfl := hfirst.eq_nil_of_inverted hlt
      exact ⟨[], Store.occurrences_of_inverted hlt root max, hfirst, hspared⟩
    · unfold Store.occurrences
      rw [if_neg hlt]
      exact hwalk hcap _
  · have hafter : ∀ p, (s.chain root).EffectiveAt p →
        (start ≤ p.occurrence.start ↔ after < p.occurrence.start) := fun p hp =>
      Instant.le_iff_of_add_nanosecond hfrom (hleap.symm.imp_left fun hplain => hplain p hp)
    obtain ⟨os, hos, hfirst, hspared⟩ := hwalk (limits.one_le_safetyCap hfault) 1
    refine ⟨os.head?, ?_, hfirst.least hafter, fun hspares => (hspared hspares).1.least hafter⟩
    simp only [Store.nextOccurrence?, hfrom, huntil]
    exact bind_eq_ok_iff.2 ⟨os, hos, rfl⟩

def Misses (c : Chain) (start stop : Instant) (max : Nat)
    (result : Except CalendarError (List Occurrence)) : Prop :=
  ∃ os, result = .ok os ∧ os.length < max ∧ ∃ p, c.EffectiveAt p ∧
    start ≤ p.occurrence.start ∧ p.occurrence.start ≤ stop ∧ p.occurrence ∉ os

private theorem misses_of_starts {result : Except CalendarError (List Occurrence)}
    (starts : List Instant) {p : PlacedOccurrence}
    (hresult : result.toOption.map (fun os => os.map Occurrence.start) = some starts)
    (hshort : starts.length < max) (hp : c.EffectiveAt p)
    (hwindow : start ≤ p.occurrence.start ∧ p.occurrence.start ≤ stop)
    (hnot : p.occurrence.start ∉ starts) : c.Misses start stop max result := by
  cases result with
  | error => cases hresult
  | ok os =>
    obtain rfl := Option.some.inj hresult
    rw [List.length_map] at hshort
    exact ⟨os, rfl, hshort, p, hp, hwindow.1, hwindow.2,
      fun hmem => hnot (List.mem_map_of_mem hmem)⟩

private theorem not_least_of_start {result : Except CalendarError (Option Occurrence)}
    {after : Instant} (found : Option Instant) {p : PlacedOccurrence}
    (hresult : result.toOption.map (Option.map Occurrence.start) = some found)
    (hp : c.EffectiveAt p) (hafter : after < p.occurrence.start) (hstop : p.occurrence.start ≤ stop)
    (hlate : ∀ t, found = some t → p.occurrence.start < t) :
    ∃ next, result = .ok next ∧ ¬ c.Least after stop (fun _ => True) next := by
  cases result with
  | error => cases hresult
  | ok next =>
    obtain rfl := Option.some.inj hresult
    refine ⟨next, rfl, fun hleast => ?_⟩
    cases next with
    | none => exact hleast p hp trivial hafter hstop
    | some o =>
      have hlate := hlate o.start rfl
      obtain ⟨q, -, -, -, -, rfl, hfirst⟩ := hleast
      rcases hfirst p hp trivial hafter hstop with rfl | (hlt | ⟨hlt, -⟩) | ⟨hsame, -⟩
      · exact lt_irrefl _ hlate
      · exact lt_asymm hlate hlt
      · exact lt_irrefl _ (hlt ▸ hlate)
      · exact lt_irrefl _ (hsame ▸ hlate)

private theorem effectiveAt_zero {g : Segment} {t : Instant} (hg : c.inOrder = [g]) (hraw : g.Raw t)
    (hnone : g.exceptions.exceptionTo? t = none) :
    c.EffectiveAt ⟨0, g.regular t⟩ :=
  ⟨g, by rw [hg]; rfl, g.effective_regular hraw hnone⟩

end Chain

namespace Store

def firstCancelled : Exception := ⟨⟨"daily"⟩, .nine 2026 1 1, .cancelled⟩

def fourDays : Store := run [.insert fiveDays, .upsertException firstCancelled]

private theorem inOrder_fourDays : (fourDays.chain ⟨"daily"⟩).inOrder =
    [fourDays.segment ⟨"daily"⟩ fiveDays fiveDays.start none] := by
  rw [Chain.inOrder_of_linked (fourDays.chain_linked _)]
  exact chain_of_link?_eq_none rfl rfl

private theorem cancelled_of_fourDays {c : Instant} {e : Exception}
    (he : (fourDays.exceptionsOf ⟨"daily"⟩).exceptionTo? c = some e) : e.change = .cancelled := by
  have hall : ∀ e ∈ (fourDays.exceptionsOf ⟨"daily"⟩).values, e.change = .cancelled := by decide
  exact hall e (ExceptionTable.exceptionTo?_mem_values he)

private theorem spares_fourDays {start stop : Instant} (hstart : start ≤ .nine 2026 1 2) :
    ∀ g ∈ (fourDays.chain ⟨"daily"⟩).inOrder, g.Spares 2 start stop 1 := by
  rw [inOrder_fourDays]
  intro g hg
  obtain rfl := List.mem_singleton.1 hg
  refine ⟨fun c _ e he => cancelled_of_fourDays he, fun c hc => ?_⟩
  have hexpand : (fiveDays.series.expand 3 (.nine 2026 1 1) (.nine 2026 1 2)).map
      Expansion.candidates = .ok [.nine 2026 1 1, .nine 2026 1 2] := by rfl
  have hcount := Series.encard_le_of_expand (by decide) (by decide) (by decide) hexpand (by decide)
  have hlate : Instant.nine 2026 1 2 < c := by
    by_contra hearly
    have hsub : {b | (fourDays.segment ⟨"daily"⟩ fiveDays fiveDays.start none).Raw b ∧
        start ≤ b ∧ b ≤ c} ⊆
          {b | fiveDays.series.Yields b ∧ .nine 2026 1 1 ≤ b ∧ b ≤ .nine 2026 1 2} :=
      fun b hb => ⟨hb.1.yields, hb.1.yields.anchor_le, hb.2.2.trans (not_lt.1 hearly)⟩
    exact absurd (hc.lt_encard.trans_le (Set.encard_le_encard hsub)) (not_lt.2 hcount)
  have hsecond : fiveDays.series.Yields (.nine 2026 1 2) :=
    (Series.isCandidate_eq_ok_true_iff (by decide) (by decide)).1 (by rfl)
  refine Set.one_le_encard_iff_nonempty.2
    ⟨.nine 2026 1 2, ⟨hsecond, by decide, ?_⟩, hstart, hlate, rfl⟩
  rintro _ ⟨⟩

private theorem not_leap_fourDays {p : PlacedOccurrence}
    (hp : (fourDays.chain ⟨"daily"⟩).EffectiveAt p) : p.occurrence.start.time.isLeap = false := by
  obtain ⟨g, hg, ho⟩ := hp
  rw [inOrder_fourDays] at hg
  obtain rfl := List.mem_singleton.1 (List.mem_of_getElem? hg)
  cases hexception : (fourDays.exceptionsOf ⟨"daily"⟩).exceptionTo? p.occurrence.candidate with
  | none =>
    rw [ho.start_eq hexception]
    exact ho.raw.yields.not_leap (by decide)
  | some e =>
    obtain ⟨r, hreplaced, -⟩ := ho.eq_replaced hexception
    rw [cancelled_of_fourDays hexception] at hreplaced
    cases hreplaced

/-- A cap of two hides the last three of the five days. The search still finds the second one. -/
theorem next_behind_cancelled :
    let c := fourDays.chain ⟨"daily"⟩
    let limits : Limits := { safetyCap := 2, horizonDays := 10 }
    let after := Instant.nine 2025 12 31
    let start := after.shifted .nanosecond
    let stop := after.shifted limits.horizon
    after.add .nanosecond = .ok start ∧ after.add limits.horizon = .ok stop ∧
      limits.fault? = none ∧ start.Inner ∧ stop.Inner ∧
      (∀ g ∈ c.inOrder, g.Resolvable limits.safetyCap start stop) ∧
      (∀ g ∈ c.inOrder, g.Spares limits.safetyCap start stop 1) ∧
      c.Answers limits.safetyCap start stop 1 (c.walk limits.safetyCap start stop 1) ∧
      ∃ next, fourDays.nextOccurrence? limits ⟨"daily"⟩ after = .ok next ∧
        c.Least after stop (fun _ => True) next := by
  intro c limits after start stop
  have hfrom : after.add .nanosecond = .ok start :=
    Instant.add_eq_shifted (by decide) (by decide)
  have huntil : after.add limits.horizon = .ok stop :=
    Instant.add_eq_shifted (by decide) (by decide)
  have hstart : start.Ordinary := by decide
  have hstop : stop.Ordinary := by decide
  have hfourDays : fourDays.Ordinary := .of_entries (by decide) (by decide) (by decide)
  have hresolvable : ∀ g ∈ c.inOrder, g.Resolvable limits.safetyCap start stop := by
    rw [Chain.inOrder_of_linked (fourDays.chain_linked _)]
    exact chain_resolvable hfourDays (keyed_run _) _ hstart hstop _
  have hspares : ∀ g ∈ c.inOrder, g.Spares limits.safetyCap start stop 1 :=
    spares_fourDays (by decide)
  obtain ⟨hwalk, hstore⟩ := Chain.queries_yield_first c limits.safetyCap start stop
    hstart.inner hstop.inner hresolvable
  obtain ⟨next, hnext, -, hleast⟩ := (hstore fourDays limits ⟨"daily"⟩ rfl rfl).2 rfl after
    hfrom huntil (Or.inr fun _ hp => not_leap_fourDays hp)
  exact ⟨hfrom, huntil, rfl, hstart.inner, hstop.inner, hresolvable, hspares,
    hwalk (by decide) 1, next, hnext, hleast hspares⟩

def leapHalf (dayOfMonth : Nat) : Instant :=
  ⟨Calendar.day 2026 1 dayOfMonth, (TimeOfDay.ofSecond? 86399 1500000000).getD .midnight⟩

def leapDaily : Entity where
  id := ⟨"leap"⟩
  organization := ⟨"office"⟩
  details := .available
  start := leapHalf 1
  stop := leapHalf 1
  rule := some { frequency := .daily }

def leapDays : Store :=
  run [.insert leapDaily, .insertLink ⟨⟨"leap"⟩, none, ⟨Calendar.day 2026 1 4, .midnight⟩⟩]

def lastDays : Entity where
  id := ⟨"last"⟩
  organization := ⟨"office"⟩
  details := .available
  start := .nine 262142 12 1
  stop := .nine 262142 12 1
  rule := some {
    frequency := .monthly
    monthDays := .ofList [⟨30, by decide, by decide⟩, ⟨31, by decide, by decide⟩] }

private theorem yields_last_day : lastDays.series.Yields (.nine 262142 12 31) := by
  refine ⟨⟨by decide, ⟨0, by decide⟩, ?_, ⟨Or.inl rfl, Or.inl rfl, ?_, Or.inl rfl, Or.inl rfl⟩,
    ⟨by rfl, by rfl, by rfl, rfl⟩⟩, ?_, ?_⟩
  · intro hfree
    exact absurd hfree (by decide)
  · exact Or.inr ⟨⟨31, by decide, by decide⟩, by decide, Or.inl (by decide)⟩
  · rintro _ ⟨⟩
  · rintro _ ⟨⟩

/-- The five days with a replacement of the fifth that stands under its second, but names a day that
is none of them. -/
def misfiledDays : Store :=
  { run [.insert fiveDays] with
    exceptions := Table.insert ∅ ⟨"daily"⟩ (Table.insert ∅ (.nine 2026 1 5)
      ⟨⟨"daily"⟩, .nine 2026 1 9, .replaced
        ⟨⟨"moved"⟩, ⟨Calendar.day 2026 1 3, .midnight⟩, .nine 2026 1 4⟩⟩) }

private theorem inOrder_misfiledDays : (misfiledDays.chain ⟨"daily"⟩).inOrder =
    [misfiledDays.segment ⟨"daily"⟩ fiveDays fiveDays.start none] := by
  rw [Chain.inOrder_of_linked (misfiledDays.chain_linked _)]
  exact chain_of_link?_eq_none rfl rfl

private theorem inOrder_leapDays : (leapDays.chain ⟨"leap"⟩).inOrder =
    [leapDays.segment ⟨"leap"⟩ leapDaily leapDaily.start none] := by
  rw [Chain.inOrder_of_linked (leapDays.chain_linked _)]
  unfold chain segmentsFrom
  rfl

private theorem inOrder_lastDays : ((run [.insert lastDays]).chain ⟨"last"⟩).inOrder =
    [(run [.insert lastDays]).segment ⟨"last"⟩ lastDays lastDays.start none] := by
  rw [Chain.inOrder_of_linked ((run [.insert lastDays]).chain_linked _)]
  exact chain_of_link?_eq_none rfl rfl

private theorem yields_leapHalf {dayOfMonth : Nat}
    (hcandidate : leapDaily.series.isCandidate (leapHalf dayOfMonth) = .ok true)
    (hinner : (leapHalf dayOfMonth).Inner) : leapDaily.series.Yields (leapHalf dayOfMonth) :=
  (Series.isCandidate_eq_ok_true_iff (by decide) hinner).1 hcandidate

/-- What keeps queries from being complete: a cap that counts what is cancelled, a leap second at
the end of a segment or behind the instant after which the next occurrence is sought, the last day
of the calendar, and an exception that stands under another second than its own. -/
theorem capped_queries_miss :
    let january := Instant.nine 2026 1 31
    let eve := Instant.nine 2025 12 31
    let beforeLeap : Instant :=
      ⟨Calendar.day 2026 1 1, ⟨86399, 999999999, by decide, by decide, by decide⟩⟩
    let daily := fourDays.chain ⟨"daily"⟩
    let leap := leapDays.chain ⟨"leap"⟩
    let last := (run [.insert lastDays]).chain ⟨"last"⟩
    let misfiled := misfiledDays.chain ⟨"daily"⟩
    daily.Misses eve january 1 (daily.walk 1 eve january 1) ∧
      (∃ next, fourDays.nextOccurrence? { safetyCap := 1 } ⟨"daily"⟩ eve = .ok next ∧
        ¬ daily.Least eve (eve.shifted ({} : Limits).horizon) (fun _ => True) next) ∧
      leap.Misses eve january 100 (leap.walk 1000 eve january 100) ∧
      (∃ next, leapDays.nextOccurrence? {} ⟨"leap"⟩ beforeLeap = .ok next ∧
        ¬ leap.Least beforeLeap (beforeLeap.shifted ({} : Limits).horizon) (fun _ => True) next) ∧
      last.Misses (.nine 262142 12 1) .last 100 (last.walk 1000 (.nine 262142 12 1) .last 100) ∧
      misfiled.Misses (.nine 2026 1 2) (.nine 2026 1 4) 100
        (misfiled.walk 1000 (.nine 2026 1 2) (.nine 2026 1 4) 100) := by
  intro january eve beforeLeap daily leap last misfiled
  have hsecond : fiveDays.series.Yields (.nine 2026 1 2) :=
    (Series.isCandidate_eq_ok_true_iff (by decide) (by decide)).1 (by rfl)
  have hday := Chain.effectiveAt_zero inOrder_fourDays
    ⟨hsecond, by decide, by rintro _ ⟨⟩⟩ (by rfl)
  have hleap : ∀ n, leapDaily.series.Yields (leapHalf n) → leapHalf 1 ≤ leapHalf n →
      leapHalf n < ⟨Calendar.day 2026 1 4, .midnight⟩ → leap.EffectiveAt
        ⟨0, (leapDays.segment ⟨"leap"⟩ leapDaily leapDaily.start none).regular (leapHalf n)⟩ := by
    intro n hn hfrom hbefore
    refine Chain.effectiveAt_zero inOrder_leapDays ⟨hn, hfrom, ?_⟩ (by rfl)
    rintro t ht
    obtain rfl := Option.some.inj ht
    exact hbefore
  have hlast := Chain.effectiveAt_zero inOrder_lastDays
    ⟨yields_last_day, by decide, by rintro _ ⟨⟩⟩ (by rfl)
  have hfifth : fiveDays.series.Yields (.nine 2026 1 5) :=
    (Series.isCandidate_eq_ok_true_iff (by decide) (by decide)).1 (by rfl)
  have hmoved : misfiled.EffectiveAt ⟨0, ⟨⟨Calendar.day 2026 1 3, .midnight⟩, .nine 2026 1 4,
      ⟨"daily"⟩, some ⟨"moved"⟩, .nine 2026 1 5⟩⟩ :=
    ⟨_, congrArg (·[0]?) inOrder_misfiledDays, ⟨hfifth, by decide, by rintro _ ⟨⟩⟩, rfl,
      ⟨_, rfl, rfl, rfl, rfl⟩⟩
  refine ⟨?_, ?_, ?_, ?_, ?_, ?_⟩
  · refine Chain.misses_of_starts [] ?_ (by decide) hday (by decide) (by decide)
    simp only [daily, Chain.walk, Segment.resolve, sort_eq_insertionSort]
    decide +kernel
  · refine Chain.not_least_of_start none ?_ hday (by decide) (by decide) ?_
    · simp only [nextOccurrence?, Chain.walk, Segment.resolve, sort_eq_insertionSort]
      decide +kernel
    · rintro _ ⟨⟩
  · have hthird := hleap 3 (yields_leapHalf (by rfl) (by decide)) (by decide) (by decide)
    refine Chain.misses_of_starts [leapHalf 1, leapHalf 2] ?_ (by decide) hthird (by decide)
      (by decide)
    simp only [leap, Chain.walk, Segment.resolve, sort_eq_insertionSort]
    decide +kernel
  · have hfirst := hleap 1 (yields_leapHalf (by rfl) (by decide)) (by decide) (by decide)
    refine Chain.not_least_of_start (some (leapHalf 2)) ?_ hfirst (by decide) (by decide) ?_
    · simp only [nextOccurrence?, Chain.walk, Segment.resolve, sort_eq_insertionSort]
      decide +kernel
    · rintro _ ⟨⟩
      decide
  · refine Chain.misses_of_starts [.nine 262142 12 30] ?_ (by decide) hlast (by decide) (by decide)
    simp only [last, Chain.walk, Segment.resolve, sort_eq_insertionSort]
    decide +kernel
  · refine Chain.misses_of_starts [.nine 2026 1 2, .nine 2026 1 3, .nine 2026 1 4] ?_ (by decide)
      hmoved (by decide) (by decide)
    simp only [misfiled, Chain.walk, Segment.resolve, sort_eq_insertionSort]
    decide +kernel

end Store

end Recurrence
