import Recurrence.Proofs.CalendarEnds
import Recurrence.Proofs.ChainOrder

set_option autoImplicit false
set_option relaxedAutoImplicit false

/-!
What a query reports is accounted for, whatever the store and the limits: links may lead in circles,
to nothing, or back in time, the cap may bind, and the times may lie at the ends of the calendar, as
long as no sum leaves it. A resolution finds each candidate on one side at most, and a chain loads
each object once, so nothing is reported twice.
-/

namespace Recurrence

open Occurrence

namespace Segment

variable {g : Segment} {cap max : Nat} {start stop first last : Instant} {o : Occurrence}
  {os : List Occurrence}

/-- A segment accounts for an occurrence: it is one of the segment's own, and it ends within the
calendar. -/
structure Accounts (g : Segment) (o : Occurrence) : Prop where
  effective : g.Effective o
  ends : o.replacement = none → o.candidate.add g.duration = .ok o.stop

private theorem raw_of_between (hlast : g.lastInstant stop = .ok last) {c : Instant}
    (hc : g.series.Yields c) (hlow : start.latest g.startBoundary ≤ c) (hhigh : c ≤ last) :
    g.Raw c where
  yields := hc
  from_start := (Instant.latest_le_iff.1 hlow).2
  before_end _ ht := hhigh.trans_lt (lt_end_of_lastInstant hlast ht)

private theorem add_of_apply_eq_ok {c : Instant} (h : g.overlay.apply c = .ok (some o))
    (hnone : o.replacement = none) : c.add g.duration = .ok o.stop := by
  unfold Overlay.apply at h
  split at h
  · cases h
  · have hmade := Option.some.inj (Except.ok.inj h)
    rw [← hmade] at hnone
    cases hnone
  · obtain ⟨made, hmade, hsome⟩ := bind_eq_ok_iff.1 h
    obtain ⟨ends, hends, hresult⟩ := bind_eq_ok_iff.1 hmade
    cases hresult
    obtain rfl := Option.some.inj (Except.ok.inj hsome)
    exact hends

theorem Sides.accounts_of_mem_regular (sides : g.Sides cap start stop) (ho : o ∈ sides.regular) :
    g.Accounts o ∧ start.latest g.startBoundary ≤ o.candidate ∧ o.candidate ≤ sides.last := by
  obtain ⟨cs, -, hexpanded, hcs⟩ := exists_candidates_of_occurrencesOf sides.occurrencesOf_eq
  obtain ⟨c, hc, houtcome⟩ := List.mem_filterMap.1 (hcs ▸ ho)
  obtain rfl := candidate_of_outcome houtcome
  obtain ⟨⟨e, he, hfound⟩, happly⟩ := hexpanded _ hc
  obtain ⟨hlow, hhigh⟩ := (Series.expand_eq_ok he).2 _ hfound
  have hraw := raw_of_between sides.lastInstant_eq (Series.yields_of_mem_expand he hfound) hlow hhigh
  rw [houtcome] at happly
  exact ⟨⟨effective_iff.2 ⟨hraw, houtcome⟩, add_of_apply_eq_ok happly⟩, hlow, hhigh⟩

private theorem candidateInSecond?_eq_ok_some {s : Series} {t c : Instant}
    (h : s.candidateInSecond? cap t = .ok (some c)) :
    s.Yields c ∧ c.truncate = t.truncate := by
  obtain ⟨next, hnext, h⟩ := bind_eq_ok_iff.1 h
  obtain ⟨last, hlast, h⟩ := bind_eq_ok_iff.1 h
  obtain ⟨e, he, h⟩ := bind_eq_ok_iff.1 h
  have hfound := List.mem_of_mem_head? (Except.ok.inj h)
  obtain ⟨hlow, hhigh⟩ := (Series.expand_eq_ok he).2 c hfound
  obtain rfl := Instant.eq_shifted_of_add_eq_ok hnext
  obtain rfl := Instant.eq_shifted_of_add_eq_ok hlast
  rw [Instant.shifted_truncate_second, Instant.shifted_back_from_second] at hhigh
  exact ⟨Series.yields_of_mem_expand he hfound, Instant.truncate_eq_of_between hlow hhigh⟩

private theorem movedIn?_eq_ok_some {e : Exception}
    (h : g.movedIn? cap start stop first last e = .ok (some o)) :
    ∃ r, e.change = .replaced r ∧ o = g.overlay.replaced o.candidate r ∧
      (start ≤ o.start ∧ o.start ≤ stop) ∧ g.Raw o.candidate ∧
      o.candidate.truncate = e.date.truncate ∧ ¬ (first ≤ o.candidate ∧ o.candidate ≤ last) := by
  unfold movedIn? at h
  cases hchange : e.change with
  | cancelled =>
    rw [hchange] at h
    cases h
  | replaced r =>
    rw [hchange] at h
    by_cases hwindow : start ≤ r.start ∧ r.start ≤ stop
    · simp only [if_pos hwindow] at h
      obtain ⟨found, hfound, h⟩ := bind_eq_ok_iff.1 h
      cases found with
      | none => cases h
      | some c =>
        simp only at h
        split at h
        · cases h
        · rename_i hout
          cases h
          obtain ⟨hinside, hcontains⟩ := not_or.1 hout
          obtain ⟨hyields, hsecond⟩ := candidateInSecond?_eq_ok_some hfound
          have hraw : g.Raw c := raw_iff.2 ⟨hyields, by simpa [Overlay.replaced] using hcontains⟩
          exact ⟨r, rfl, rfl, hwindow, hraw, hsecond, hinside⟩
    · simp only [if_neg hwindow] at h
      cases h

private theorem accounts_of_movedIn? (hkeyed : g.exceptions.Keyed) {e : Exception}
    (he : e ∈ g.exceptions.values)
    (h : g.movedIn? cap start stop first last e = .ok (some o)) :
    g.Accounts o ∧ g.exceptions.exceptionTo? o.candidate = some e ∧
      (start ≤ o.start ∧ o.start ≤ stop) ∧ ¬ (first ≤ o.candidate ∧ o.candidate ≤ last) := by
  obtain ⟨r, hchange, ho, hwindow, hraw, hsecond, hinside⟩ := movedIn?_eq_ok_some h
  have hexception := (hkeyed.exceptionTo?_eq_some_iff he).2 hsecond
  refine ⟨⟨?_, fun hnone => ?_⟩, hexception, hwindow, hinside⟩
  · rw [ho]
    exact effective_replaced hraw hexception hchange
  · rw [ho] at hnone
    cases hnone

theorem Sides.accounts_of_moved (sides : g.Sides cap start stop) (hkeyed : g.exceptions.Keyed)
    {e : Exception} (he : e ∈ g.exceptions.values) (ho : sides.moved e = some o) :
    g.Accounts o ∧ g.exceptions.exceptionTo? o.candidate = some e ∧
      (start ≤ o.start ∧ o.start ≤ stop) ∧
        ¬ (start.latest g.startBoundary ≤ o.candidate ∧ o.candidate ≤ sides.last) :=
  accounts_of_movedIn? hkeyed he ((sides.movedIn?_eq e he).trans (congrArg Except.ok ho))

/-- The two sides find each candidate once: those of the first side lie within its span and those of
the second outside, in the seconds of different exceptions. -/
theorem Sides.pairwise_candidate (sides : g.Sides cap start stop)
    (hdates : g.exceptions.values.Pairwise fun a b => a.date.truncate ≠ b.date.truncate) :
    sides.both.Pairwise fun a b => a.candidate ≠ b.candidate := by
  have hmovedSide : ∀ e ∈ g.exceptions.values, ∀ o, sides.moved e = some o →
      o.candidate.truncate = e.date.truncate ∧
        ¬ (start.latest g.startBoundary ≤ o.candidate ∧ o.candidate ≤ sides.last) := by
    intro e he o ho
    obtain ⟨-, -, -, -, -, hsecond, hinside⟩ :=
      movedIn?_eq_ok_some ((sides.movedIn?_eq e he).trans (congrArg Except.ok ho))
    exact ⟨hsecond, hinside⟩
  refine List.pairwise_append.2
    ⟨(pairwise_candidate_of_occurrencesOf sides.occurrencesOf_eq).filter _, ?_, ?_⟩
  · refine List.pairwise_filterMap.2 (hdates.imp_of_mem ?_)
    intro a b ha hb hne oa hoa ob hob heq
    have hfirst := (hmovedSide a ha oa hoa).1
    rw [heq, (hmovedSide b hb ob hob).1] at hfirst
    exact hne hfirst.symm
  · intro a ha b hb heq
    obtain ⟨e, he, hb⟩ := List.mem_filterMap.1 hb
    have hinside := (sides.accounts_of_mem_regular (List.mem_of_mem_filter ha)).2
    rw [heq] at hinside
    exact (hmovedSide e he b hb).2 hinside

/-- A resolution that succeeds yields occurrences of the segment that start in the window, each from
a candidate of its own. -/
private theorem accounts_of_resolve (hkeyed : g.exceptions.Keyed)
    (h : g.resolve cap start stop max = .ok os) :
    os.Pairwise (fun a b => a.candidate ≠ b.candidate) ∧
      ∀ o ∈ os, g.Accounts o ∧ start ≤ o.start ∧ o.start ≤ stop := by
  rcases exists_sides_of_resolve h with rfl | ⟨sides, rfl⟩
  · exact ⟨.nil, nofun⟩
  · refine ⟨pairwise_take_sort Ne.symm (sides.pairwise_candidate hkeyed.pairwise_values) max,
      fun o ho => ?_⟩
    rcases List.mem_append.1 (mem_sort.1 (List.mem_of_mem_take ho)) with ho | ho
    · obtain ⟨hmem, hwindow⟩ := List.mem_filter.1 ho
      exact ⟨(sides.accounts_of_mem_regular hmem).1, of_decide_eq_true hwindow⟩
    · obtain ⟨e, he, ho⟩ := List.mem_filterMap.1 ho
      obtain ⟨haccounts, -, hwindow, -⟩ := sides.accounts_of_moved hkeyed he ho
      exact ⟨haccounts, hwindow⟩

end Segment

namespace Chain

variable {c : Chain} {cap max : Nat} {start stop : Instant} {os : List Occurrence}

private theorem accounts_of_walk (hids : (c.inOrder.map Segment.id).Nodup)
    (hkeyed : ∀ g ∈ c.inOrder, g.exceptions.Keyed) (h : c.walk cap start stop max = .ok os) :
    os.Pairwise (fun a b => a.precedes b = true) ∧ os.length ≤ max ∧
      os.Pairwise (fun a b => ¬ (a.segment = b.segment ∧ a.candidate = b.candidate)) ∧
      ∀ o ∈ os, (start ≤ o.start ∧ o.start ≤ stop) ∧ ∃ g ∈ c.inOrder, g.Accounts o := by
  rcases eq_or_ne max 0 with rfl | hmax
  · rw [walk_zero] at h
    cases h
    exact ⟨.nil, Nat.zero_le _, .nil, nofun⟩
  · obtain ⟨value, hvalue, rfl⟩ := exists_resolved_of_walk h hmax
    have hresolved := fun g hg => Segment.accounts_of_resolve (hkeyed g hg) (hvalue g hg)
    refine ⟨(sort_pairwise _).take,
      List.length_take_le _ _, ?_, fun o ho => ?_⟩
    · refine pairwise_take_sort (fun hab heq => hab ⟨heq.1.symm, heq.2.symm⟩) ?_ max
      rw [List.pairwise_flatten, List.forall_mem_map, List.pairwise_map]
      refine ⟨fun g hg => (hresolved g hg).1.imp fun hne heq => hne heq.2, ?_⟩
      refine (List.pairwise_map.1 hids).imp_of_mem ?_
      intro g g' hg hg' hne a ha b hb heq
      have hsegment := ((hresolved g hg).2 a ha).1.effective.segment
      have hother := ((hresolved g' hg').2 b hb).1.effective.segment
      exact hne (hsegment.symm.trans (heq.1.trans hother))
    · obtain ⟨_, hos, ho⟩ := List.mem_flatten.1 (mem_sort.1 (List.mem_of_mem_take ho))
      obtain ⟨g, hg, rfl⟩ := List.mem_map.1 hos
      obtain ⟨haccounts, hwindow⟩ := (hresolved g hg).2 o ho
      exact ⟨hwindow, g, hg, haccounts⟩

end Chain

namespace Store

variable {s : Store} {limits : Limits} {root : ObjectId} {start stop : Instant} {max : Option Nat}

theorem exists_occurrences (hs : s.Ordinary) (hkeyed : s.Keyed) (hstart : start.Ordinary)
    (hstop : stop.Ordinary) : ∃ os, s.occurrences limits root start stop max = .ok os := by
  by_cases hlt : stop < start
  · exact ⟨_, occurrences_of_inverted hlt root max⟩
  · rw [occurrences_eq_walk hlt]
    have hresolvable : ∀ g ∈ (s.chain root).inOrder, g.Resolvable limits.safetyCap start stop := by
      rw [Chain.inOrder_of_linked (s.chain_linked root)]
      exact chain_resolvable hs hkeyed root hstart hstop _
    obtain ⟨all, -, -, hwalk⟩ :=
      Chain.exists_placed_report hresolvable hstart.inner hstop.inner
    exact ⟨_, hwalk _⟩

/-- A query of a keyed store that succeeds reports occurrences of the chain in order, each once. -/
theorem accounts_of_occurrences (hkeyed : s.Keyed) {os : List Occurrence}
    (h : s.occurrences limits root start stop max = .ok os) :
    os.Pairwise (fun a b => a.precedes b = true) ∧ os.length ≤ max.getD limits.maxOccurrences ∧
      os.Pairwise (fun a b => ¬ (a.segment = b.segment ∧ a.candidate = b.candidate)) ∧
      ∀ o ∈ os, (start ≤ o.start ∧ o.start ≤ stop) ∧ o.segment ∈ s.chainIds root ∧
        ∃ e startBoundary next, s.entity? o.segment = some e ∧
          s.segment o.segment e startBoundary next ∈ (s.chain root).segments ∧
          (s.segment o.segment e startBoundary next).Accounts o := by
  unfold occurrences at h
  split at h
  · cases h
    exact ⟨.nil, Nat.zero_le _, .nil, nofun⟩
  · have hlinked := Chain.inOrder_of_linked (s.chain_linked root)
    have hown : ∀ g ∈ (s.chain root).inOrder, ∃ own boundary next,
        s.entity? g.id = some own ∧ g = s.segment g.id own boundary next := by
      rw [hlinked]
      exact fun g => exists_entity_of_mem_chain
    have htables : ∀ g ∈ (s.chain root).inOrder, g.exceptions.Keyed := by
      intro g hg
      obtain ⟨own, boundary, next, -, hshape⟩ := hown g hg
      rw [hshape]
      exact hkeyed.exceptionsOf g.id
    have hids : ((s.chain root).inOrder.map Segment.id).Nodup := by
      rw [hlinked]
      exact s.chain_ids_nodup root
    obtain ⟨hsorted, hlength, hdistinct, hall⟩ := Chain.accounts_of_walk hids htables h
    refine ⟨hsorted, hlength, hdistinct, fun o ho => ?_⟩
    obtain ⟨hwindow, g, hg, haccounts⟩ := hall o ho
    obtain ⟨own, boundary, next, hentity, hshape⟩ := hown g hg
    rw [hlinked] at hg
    rw [haccounts.effective.segment]
    refine ⟨hwindow, ?_, own, boundary, next, hentity, ?_⟩
    · rw [← map_id_chain]
      exact List.mem_map_of_mem hg
    · rw [← hshape]
      exact ⟨hg, haccounts⟩

/-- Whatever edits made the store, links of any kind among them, and whatever the limits: as long as
no sum leaves the calendar, a query reports occurrences in order, as many as asked for at most, and
none twice. Each starts in the window and comes from an object of the chain, from a raw candidate of
its series in its own part of the chain, and takes the form that its exceptions give it. -/
theorem occurrences_sound (edits : List Edit) (limits : Limits) (root : ObjectId)
    (start stop : Instant) (max : Option Nat) :
    ((run edits).Ordinary → start.Ordinary → stop.Ordinary →
      ∃ os, (run edits).occurrences limits root start stop max = .ok os) ∧
    ∀ os, (run edits).occurrences limits root start stop max = .ok os →
      os.Pairwise (fun a b => a.precedes b = true) ∧
      os.length ≤ max.getD limits.maxOccurrences ∧
      os.Pairwise (fun a b => ¬ (a.segment = b.segment ∧ a.candidate = b.candidate)) ∧
      ∀ o ∈ os, (start ≤ o.start ∧ o.start ≤ stop) ∧ o.segment ∈ (run edits).chainIds root ∧
        ∃ e startBoundary next, (run edits).entity? o.segment = some e ∧
          (run edits).segment o.segment e startBoundary next ∈
            ((run edits).chain root).segments ∧
          ((run edits).segment o.segment e startBoundary next).Accounts o := by
  have hkeyed := keyed_run edits
  exact ⟨fun hs => exists_occurrences hs hkeyed, fun os h => accounts_of_occurrences hkeyed h⟩

/-- Two objects that recur daily and go on as each other. The first day is moved to the fourth, and
the third one's exception has no candidate, since the other object has taken over by then. -/
def circle : List Edit :=
  [.insert fiveDays,
    .insert { successor "second" 3 with rule := some { frequency := .daily } },
    .upsertException ⟨⟨"daily"⟩, .nine 2026 1 1,
      .replaced ⟨⟨"moved"⟩, .nine 2026 1 4, .nine 2026 1 5⟩⟩,
    .upsertException ⟨⟨"daily"⟩, .nine 2026 1 3,
      .replaced ⟨⟨"lost"⟩, .nine 2026 1 4, .nine 2026 1 5⟩⟩,
    .insertLink ⟨⟨"daily"⟩, some ⟨"second"⟩, .nine 2026 1 3⟩,
    .insertLink ⟨⟨"second"⟩, some ⟨"daily"⟩, .nine 2026 1 6⟩]

def circleReport : List Occurrence :=
  [⟨.nine 2026 1 3, .nine 2026 1 4, ⟨"second"⟩, none, .nine 2026 1 3⟩,
    ⟨.nine 2026 1 4, .nine 2026 1 5, ⟨"daily"⟩, some ⟨"moved"⟩, .nine 2026 1 1⟩,
    ⟨.nine 2026 1 4, .nine 2026 1 5, ⟨"second"⟩, none, .nine 2026 1 4⟩]

/-- Both objects account for what they report, and each only once, though the links lead back. -/
theorem occurrences_of_circle :
    let s := run circle
    s.Ordinary ∧ (Instant.nine 2026 1 3).Ordinary ∧ (Instant.nine 2026 1 9).Ordinary ∧
      (∃ os, s.occurrences {} ⟨"daily"⟩ (.nine 2026 1 3) (.nine 2026 1 9) (some 3) = .ok os) ∧
      s.occurrences {} ⟨"daily"⟩ (.nine 2026 1 3) (.nine 2026 1 9) (some 3) = .ok circleReport ∧
      circleReport.Pairwise (fun a b => ¬ (a.segment = b.segment ∧ a.candidate = b.candidate)) ∧
      ∀ o ∈ circleReport, o.segment ∈ s.chainIds ⟨"daily"⟩ ∧
        ∃ g ∈ (s.chain ⟨"daily"⟩).segments, g.Accounts o := by
  intro s
  have hs : s.Ordinary := .of_entries (by decide) (by decide) (by decide)
  have hstart : (Instant.nine 2026 1 3).Ordinary := by decide
  have hstop : (Instant.nine 2026 1 9).Ordinary := by decide
  have hreport : s.occurrences {} ⟨"daily"⟩ (.nine 2026 1 3) (.nine 2026 1 9) (some 3) =
      .ok circleReport := by
    simp only [occurrences, Chain.walk, Segment.resolve, sort_eq_insertionSort]
    decide +kernel
  obtain ⟨hreturns, hsound⟩ := occurrences_sound circle {} ⟨"daily"⟩ (.nine 2026 1 3)
    (.nine 2026 1 9) (some 3)
  obtain ⟨-, -, hdistinct, hall⟩ := hsound circleReport hreport
  refine ⟨hs, hstart, hstop, hreturns hs hstart hstop, hreport, hdistinct, fun o ho => ?_⟩
  obtain ⟨-, hsegment, e, startBoundary, next, -, hmem, haccounts⟩ := hall o ho
  exact ⟨hsegment, _, hmem, haccounts⟩

end Store

end Recurrence
