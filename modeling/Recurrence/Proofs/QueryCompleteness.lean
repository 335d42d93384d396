import Recurrence.Proofs.QueryRuns
import Recurrence.Proofs.StoredChains

set_option autoImplicit false
set_option relaxedAutoImplicit false

/-!
A query reports the first occurrences that start in its window, of all occurrences of the chain. The
occurrences of a chain are said by its segments and their series, without a window and in no order;
that none is lost or reported twice is what the two sides of a resolution and the merge of the
segments come to together.
-/

namespace Recurrence

open Occurrence

namespace Chain

variable {c : Chain} {cap : Nat} {start stop : Instant}

def ids (c : Chain) : List ObjectId := c.segments.map Segment.id

def Effective (c : Chain) (o : Occurrence) : Prop := ∃ g ∈ c.segments, g.Effective o

def HasRoom (c : Chain) (cap : Nat) (start stop : Instant) : Prop :=
  ∀ g ∈ c.segments, {t | g.Raw t ∧ start ≤ t ∧ t ≤ stop}.encard ≤ cap

def EffectiveAt (c : Chain) (p : PlacedOccurrence) : Prop :=
  ∃ g, c.inOrder[p.place]? = some g ∧ g.Effective p.occurrence

def HiddenAt (c : Chain) (cap : Nat) (start stop : Instant) (p : PlacedOccurrence) : Prop :=
  ∃ g, c.inOrder[p.place]? = some g ∧ g.Hidden cap start stop p.occurrence.candidate

theorem exists_placed_report (hc : ∀ g ∈ c.inOrder, g.Resolvable cap start stop)
    (hstart : start.Inner) (hstop : stop.Inner) :
    ∃ all : List PlacedOccurrence, all.Pairwise PlacedOccurrence.Before ∧
      (∀ p, p ∈ all ↔ 1 ≤ cap ∧ c.EffectiveAt p ∧
        (start ≤ p.occurrence.start ∧ p.occurrence.start ≤ stop) ∧
          ¬ c.HiddenAt cap start stop p) ∧
      ∀ max, c.walk cap start stop max =
        .ok ((all.take max).map PlacedOccurrence.occurrence) := by
  have hreports := fun (g : Segment) hg => g.exists_report (hc g hg) hstart hstop
  choose! report hreport hresolve using hreports
  have hin : ∀ os ∈ c.inOrder.map report, os.Pairwise Earlier := by
    intro os hos
    obtain ⟨g, hg, rfl⟩ := List.mem_map.1 hos
    exact (hreport g hg).ordered
  obtain ⟨all, hordered, hmem, htake⟩ := PlacedOccurrence.exists_merged hin
  refine ⟨all, hordered, fun p => ?_, fun max => ?_⟩
  · rw [hmem, List.getElem?_map]
    unfold EffectiveAt HiddenAt
    constructor
    · rintro ⟨_, hos, ho⟩
      obtain ⟨g, hg, rfl⟩ := Option.map_eq_some_iff.1 hos
      obtain ⟨hcap, heffective, hwindow, hseen⟩ :=
        ((hreport g (List.mem_of_getElem? hg)).mem_iff _).1 ho
      refine ⟨hcap, ⟨g, hg, heffective⟩, hwindow, ?_⟩
      rintro ⟨g', hg', hhidden⟩
      obtain rfl := Option.some.inj (hg.symm.trans hg')
      exact hseen hhidden
    · rintro ⟨hcap, ⟨g, hg, heffective⟩, hwindow, hseen⟩
      refine ⟨report g, by rw [hg, Option.map_some],
        ((hreport g (List.mem_of_getElem? hg)).mem_iff _).2 ⟨hcap, heffective, hwindow, ?_⟩⟩
      exact fun hhidden => hseen ⟨g, hg, hhidden⟩
  · by_cases hmax : max = 0
    · rw [hmax, List.take_zero]
      exact c.walk_zero cap start stop
    · have htake := htake max
      rw [List.map_map] at htake
      rw [walk_of_resolved hmax fun g hg => hresolve g hg max]
      exact congrArg Except.ok htake

private theorem idxOf_eq_of_getElem? (hids : c.ids.Nodup) {place : Nat} {g : Segment}
    (hg : c.segments[place]? = some g) : c.ids.idxOf g.id = place := by
  obtain ⟨hplace, rfl⟩ := List.getElem?_eq_some_iff.1 hg
  have hlength : place < c.ids.length := by rwa [ids, List.length_map]
  have hget : c.ids[place] = (c.segments[place]).id := List.getElem_map _
  rw [← hget]
  exact hids.idxOf_getElem place hlength

/-- In a chain of different objects, of which none has more candidates than the cap allows, the
first occurrences in the window are reported, whatever is hidden elsewhere. -/
theorem exists_report (hlinked : c.Linked) (hids : c.ids.Nodup)
    (hc : ∀ g ∈ c.segments, g.Resolvable cap start stop) (hstart : start.Inner)
    (hstop : stop.Inner) (hcap : 1 ≤ cap) (hroom : c.HasRoom cap start stop) :
    ∃ all : List Occurrence, all.Pairwise (Before c.ids) ∧
      (∀ o, o ∈ all ↔ c.Effective o ∧ start ≤ o.start ∧ o.start ≤ stop) ∧
      ∀ max, c.walk cap start stop max = .ok (all.take max) := by
  rw [← inOrder_of_linked hlinked] at hc
  obtain ⟨all, hordered, hmem, hwalk⟩ := exists_placed_report hc hstart hstop
  have hplaced : ∀ p ∈ all, c.ids.idxOf p.occurrence.segment = p.place := by
    intro p hp
    obtain ⟨-, ⟨g, hg, ho⟩, -⟩ := (hmem p).1 hp
    rw [inOrder_of_linked hlinked] at hg
    rw [ho.segment]
    exact idxOf_eq_of_getElem? hids hg
  refine ⟨all.map PlacedOccurrence.occurrence, ?_, fun o => ?_, fun max => ?_⟩
  · rw [List.pairwise_map]
    refine hordered.imp_of_mem ?_
    rintro p q hp hq (hlt | ⟨hstart, hcandidate, hplace⟩)
    · exact Or.inl hlt
    · refine Or.inr ⟨hstart, hcandidate, ?_⟩
      rw [hplaced p hp, hplaced q hq]
      exact hplace
  · rw [List.mem_map]
    constructor
    · rintro ⟨p, hp, rfl⟩
      obtain ⟨-, ⟨g, hg, ho⟩, hwindow, -⟩ := (hmem p).1 hp
      rw [inOrder_of_linked hlinked] at hg
      exact ⟨⟨g, List.mem_of_getElem? hg, ho⟩, hwindow⟩
    · rintro ⟨⟨g, hg, ho⟩, hwindow⟩
      obtain ⟨place, hplace⟩ := List.mem_iff_getElem?.1 hg
      rw [← inOrder_of_linked hlinked] at hplace
      refine ⟨⟨place, o⟩, (hmem _).2 ⟨hcap, ⟨g, hplace, ho⟩, hwindow, ?_⟩, rfl⟩
      rintro ⟨g', hg', hhidden⟩
      rw [inOrder_of_linked hlinked] at hg'
      exact Segment.not_hidden_of_room (hroom g' (List.mem_of_getElem? hg')) hhidden
  · rw [hwalk, List.map_take]

theorem walk_of_cap_zero (hc : ∀ g ∈ c.inOrder, g.Resolvable 0 start stop)
    (hstart : start.Inner) (hstop : stop.Inner) (max : Nat) : c.walk 0 start stop max = .ok [] := by
  obtain ⟨all, -, hmem, hwalk⟩ := exists_placed_report hc hstart hstop
  have hnone : all = [] :=
    List.eq_nil_iff_forall_not_mem.2 fun p hp => absurd ((hmem p).1 hp).1 (by decide)
  rw [hwalk, hnone, List.take_nil, List.map_nil]

end Chain

namespace Store

variable {s : Store} {limits : Limits} {start stop : Instant}

theorem exists_report (hs : s.Ordinary) (hkeyed : s.Keyed) (root : ObjectId)
    (hstart : start.Ordinary) (hstop : stop.Ordinary) (hle : start ≤ stop)
    (hcap : 1 ≤ limits.safetyCap) (hroom : (s.chain root).HasRoom limits.safetyCap start stop) :
    ∃ all : List Occurrence, all.Pairwise (Before (s.chain root).ids) ∧
      (∀ o, o ∈ all ↔ (s.chain root).Effective o ∧ start ≤ o.start ∧ o.start ≤ stop) ∧
      ∀ max : Option Nat, s.occurrences limits root start stop max =
        .ok (all.take (max.getD limits.maxOccurrences)) := by
  obtain ⟨all, hordered, hmem, hwalk⟩ :=
    (s.chain root).exists_report (s.chain_linked root) (s.chain_ids_nodup root)
      (chain_resolvable hs hkeyed root hstart hstop _) hstart.inner hstop.inner hcap hroom
  refine ⟨all, hordered, hmem, fun max => ?_⟩
  rw [occurrences_eq_walk (not_lt.2 hle)]
  exact hwalk _

theorem occurrences_of_cap_zero (hs : s.Ordinary) (hkeyed : s.Keyed) (root : ObjectId)
    (hstart : start.Ordinary) (hstop : stop.Ordinary) (hcap : limits.safetyCap = 0)
    (max : Option Nat) : s.occurrences limits root start stop max = .ok [] := by
  by_cases hlt : stop < start
  · exact occurrences_of_inverted hlt root max
  · rw [occurrences_eq_walk hlt, hcap]
    refine (s.chain root).walk_of_cap_zero ?_ hstart.inner hstop.inner _
    rw [Chain.inOrder_of_linked (s.chain_linked root)]
    exact chain_resolvable hs hkeyed root hstart hstop 0

/-- No object of a chain has more raw candidates in the window than a cap allows. -/
def HasRoom (s : Store) (ids : List ObjectId) (cap : Nat) (start stop : Instant) : Prop :=
  ∀ place id e, {c | s.RawAt ids place id e c ∧ start ≤ c ∧ c ≤ stop}.encard ≤ cap

private theorem HasRoom.of_expand {ids : List ObjectId} {cap : Nat} (hstart : start.Inner)
    (hstop : stop.Inner)
    (h : ∀ id ∈ ids, ∀ e, s.entities.find? id = some e → e.start.Inner ∧
      ∃ cs, (Series.expand ⟨e.rule, e.start⟩ (cap + 1) start stop).map Expansion.candidates =
        .ok cs ∧ cs.length ≤ cap) : s.HasRoom ids cap start stop := by
  intro place id e
  by_cases he : id ∈ ids ∧ s.entities.find? id = some e
  · obtain ⟨hanchor, cs, hexpand, hlength⟩ := h id he.1 e he.2
    refine (Set.encard_le_encard ?_).trans
      (Series.encard_le_of_expand (s := ⟨e.rule, e.start⟩) hanchor hstart hstop hexpand hlength)
    exact fun c hc => ⟨hc.1.yields, hc.2⟩
  · have hnone : {c | s.RawAt ids place id e c ∧ start ≤ c ∧ c ≤ stop} = ∅ :=
      Set.eq_empty_of_forall_notMem fun c hc =>
        he ⟨List.mem_of_getElem? hc.1.placed, hc.1.stored⟩
    rw [hnone, Set.encard_empty]
    exact bot_le

private theorem HasRoom.chain {root : ObjectId} {cap : Nat}
    (h : s.HasRoom (s.chainIds root) cap start stop) : (s.chain root).HasRoom cap start stop := by
  intro g hg
  obtain ⟨place, hplace⟩ := List.mem_iff_getElem?.1 hg
  obtain ⟨e, -, hraw⟩ := exists_rawAt hplace
  refine (Set.encard_le_encard ?_).trans (h place g.id e)
  exact fun t ht => ⟨hraw t ht.1, ht.2⟩

/-- Whatever edits made the store, the links lead along one way from the root, and a query reports
the first occurrences in its window, in the order of start, candidate and place on the way. Every
occurrence is counted once, wherever a replacement was moved from. -/
theorem occurrences_complete (edits : List Edit) (limits : Limits) (root : ObjectId)
    (start stop : Instant) (max : Option Nat) (hs : (run edits).Ordinary)
    (hstart : start.Ordinary) (hstop : stop.Ordinary) (hle : start ≤ stop)
    (hcap : 1 ≤ limits.safetyCap) :
    ∃ ids, (∀ other, (run edits).Way [] root other ↔ other = ids) ∧
      ((run edits).HasRoom ids limits.safetyCap start stop →
        ∃ all : List Occurrence, all.Pairwise (Before ids) ∧
          (∀ o, o ∈ all ↔ (run edits).Occurs ids o ∧ start ≤ o.start ∧ o.start ≤ stop) ∧
          (run edits).occurrences limits root start stop max =
            .ok (all.take (max.getD limits.maxOccurrences))) := by
  have hkeyed := keyed_run edits
  refine ⟨(run edits).chainIds root, fun other => way_iff, fun hroom => ?_⟩
  obtain ⟨all, hordered, hmem, hreport⟩ :=
    exists_report hs hkeyed root hstart hstop hle hcap hroom.chain
  have hids : ((run edits).chain root).ids = (run edits).chainIds root := map_id_chain _ _
  rw [hids] at hordered
  refine ⟨all, hordered, fun o => ?_, hreport max⟩
  rw [hmem, occurs_iff hkeyed]
  rfl

def dailyUntil (ends : Instant) : Option Rule :=
  (BoundedInt.ofInt? 1).map fun interval => { frequency := .daily, interval, ends := some ends }

def fiveDays : Entity where
  id := ⟨"daily"⟩
  organization := ⟨"office"⟩
  details := .available
  start := .nine 2026 1 1
  stop := .nine 2026 1 2
  rule := dailyUntil (.nine 2026 1 5)

def fifthToThird : Exception :=
  ⟨⟨"daily"⟩, .nine 2026 1 5, .replaced ⟨⟨"moved"⟩, .nine 2026 1 3, .nine 2026 1 4⟩⟩

def fromFourth : Entity where
  id := ⟨"later"⟩
  organization := ⟨"office"⟩
  details := .available
  start := .nine 2026 1 4
  stop := .nine 2026 1 5
  rule := none

/-- The first five days, gone on with from the fourth by another object. The first, told half a
second late, is moved behind the split, the second far away, and the fourth is cancelled. -/
def movedDays : List Edit :=
  [.insert fiveDays,
    .upsertException ⟨⟨"daily"⟩,
      ⟨Calendar.day 2026 1 1, (TimeOfDay.ofClock? 9 0 0 500000000).getD .midnight⟩,
      .replaced ⟨⟨"moved"⟩, .nine 2026 1 5, .nine 2026 1 6⟩⟩,
    .upsertException ⟨⟨"daily"⟩, .nine 2026 1 2,
      .replaced ⟨⟨"away"⟩, .nine 2026 1 20, .nine 2026 1 21⟩⟩,
    .bulk ⟨"daily"⟩ ⟨.nine 2026 1 4, some fromFourth, none⟩,
    .upsertException ⟨⟨"later"⟩, .nine 2026 1 4, .cancelled⟩]

def movedReport : List Occurrence :=
  [⟨.nine 2026 1 3, .nine 2026 1 4, ⟨"daily"⟩, none, .nine 2026 1 3⟩,
    ⟨.nine 2026 1 5, .nine 2026 1 6, ⟨"daily"⟩, some ⟨"moved"⟩, .nine 2026 1 1⟩,
    ⟨.nine 2026 1 5, .nine 2026 1 6, ⟨"later"⟩, none, .nine 2026 1 5⟩]

private theorem movedDays_hasRoom : (run movedDays).HasRoom [⟨"daily"⟩, ⟨"later"⟩] 2
    (.nine 2026 1 2) (.nine 2026 1 9) := by
  refine .of_expand (by decide) (by decide) fun id hid e he => ?_
  rcases List.mem_cons.1 hid with rfl | hid
  · obtain rfl : fiveDays.withRule (dailyUntil (.nine 2026 1 3)) = e :=
      Option.some.inj (Eq.trans (by decide +kernel) he)
    exact ⟨by decide, [.nine 2026 1 2, .nine 2026 1 3], by rfl, by decide⟩
  · obtain rfl := List.mem_singleton.1 hid
    obtain rfl : fromFourth.withRule (dailyUntil (.nine 2026 1 5)) = e :=
      Option.some.inj (Eq.trans (by decide +kernel) he)
    exact ⟨by decide, [.nine 2026 1 4, .nine 2026 1 5], by rfl, by decide⟩

/-- A window with as many candidates of each object as the cap allows misses nothing: what was moved
into it across the split is reported, and what was moved out of it or cancelled is not. -/
theorem occurrences_moved_in :
    let s := run movedDays
    s.Ordinary ∧ (Instant.nine 2026 1 2).Ordinary ∧ (Instant.nine 2026 1 9).Ordinary ∧
      Instant.nine 2026 1 2 ≤ Instant.nine 2026 1 9 ∧
      s.Way [] ⟨"daily"⟩ [⟨"daily"⟩, ⟨"later"⟩] ∧
      s.HasRoom [⟨"daily"⟩, ⟨"later"⟩] 2 (.nine 2026 1 2) (.nine 2026 1 9) ∧
      s.occurrences { safetyCap := 2 } ⟨"daily"⟩ (.nine 2026 1 2) (.nine 2026 1 9) none =
        .ok movedReport ∧
      movedReport.Pairwise (Before [⟨"daily"⟩, ⟨"later"⟩]) ∧
      ∀ o, o ∈ movedReport ↔ s.Occurs [⟨"daily"⟩, ⟨"later"⟩] o ∧
        .nine 2026 1 2 ≤ o.start ∧ o.start ≤ .nine 2026 1 9 := by
  intro s
  have hs : s.Ordinary := .of_entries (by decide +kernel) (by decide +kernel) (by decide +kernel)
  have hstart : (Instant.nine 2026 1 2).Ordinary := by decide
  have hstop : (Instant.nine 2026 1 9).Ordinary := by decide
  have hle : Instant.nine 2026 1 2 ≤ Instant.nine 2026 1 9 := by decide
  have hreport : s.occurrences { safetyCap := 2 } ⟨"daily"⟩ (.nine 2026 1 2) (.nine 2026 1 9) none =
      .ok movedReport := by
    simp only [occurrences, Chain.walk, Segment.resolve, sort_eq_insertionSort]
    decide +kernel
  have hway : s.Way [] ⟨"daily"⟩ [⟨"daily"⟩, ⟨"later"⟩] := way_iff.2 (by decide +kernel)
  obtain ⟨ids, hids, hcomplete⟩ := occurrences_complete movedDays { safetyCap := 2 } ⟨"daily"⟩
    (.nine 2026 1 2) (.nine 2026 1 9) none hs hstart hstop hle (by decide)
  obtain rfl := (hids _).1 hway
  obtain ⟨all, hordered, hmem, hfirst⟩ := hcomplete movedDays_hasRoom
  -- The report is shorter than the default limit, so it is everything.
  have hall : movedReport = all := by
    have htake : movedReport = all.take 1000 := Except.ok.inj (hreport.symm.trans hfirst)
    have hlength := congrArg List.length htake
    rw [List.length_take] at hlength
    rw [htake, List.take_of_length_le]
    change 3 = min 1000 all.length at hlength
    omega
  rw [hall]
  exact ⟨hs, hstart, hstop, hle, hway, movedDays_hasRoom, hall ▸ hreport, hordered, hmem⟩

end Store

end Recurrence
