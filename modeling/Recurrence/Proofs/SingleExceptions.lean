import Recurrence.Proofs.SeriesIsolation
import Recurrence.Proofs.StoreCoherence

set_option autoImplicit false
set_option relaxedAutoImplicit false

/-!
Recording a single exception. It has a say only in what becomes of the candidates of its object in
its own second, wherever it moves them, so that all other occurrences of all series stay as they
are. For this two queries are compared as they run; nothing is asked of the store or of the limits,
but that the queries report all that there is.
-/

namespace Recurrence

open Occurrence

/-- True of the occurrences that an exception is about: those of its object that come from a
candidate in its second. -/
def Exception.concerns (e : Exception) (o : Occurrence) : Bool :=
  o.segment = e.parent && o.candidate.truncate = e.date.truncate

namespace Segment

variable {g : Segment} {cap max : Nat} {start stop first last second : Instant} {o : Occurrence}
  {os os' : List Occurrence} {t : ExceptionTable}

def withExceptions (g : Segment) (t : ExceptionTable) : Segment := { g with exceptions := t }

private theorem outcome_withExceptions {c : Instant} (hc : c.truncate ≠ second)
    (ht : Table.erase t second = Table.erase g.exceptions second) :
    (g.withExceptions t).outcome c = g.outcome c := by
  have hfind : t.find? c.truncate = g.exceptions.find? c.truncate := by
    have heq := congrArg (fun table : ExceptionTable => table.find? c.truncate) ht
    simpa only [Table.find?_erase, if_neg hc] using heq
  have hrecord : (g.withExceptions t).exceptions.exceptionTo? c = g.exceptions.exceptionTo? c :=
    hfind
  rw [outcome, outcome, hrecord]
  rfl

private theorem regular_filter_eq (ht : Table.erase t second = Table.erase g.exceptions second)
    (h : g.occurrencesOf cap first last = .ok os)
    (h' : (g.withExceptions t).occurrencesOf cap first last = .ok os') :
    os'.filter (fun o => o.candidate.truncate ≠ second) =
      os.filter fun o => o.candidate.truncate ≠ second := by
  by_cases hle : first ≤ last
  · obtain ⟨e, he, -, rfl⟩ := occurrencesOf_eq_ok h hle
    obtain ⟨e', he', -, rfl⟩ := occurrencesOf_eq_ok h' hle
    obtain rfl : e = e' := Except.ok.inj (he.symm.trans he')
    rw [List.filter_filterMap, List.filter_filterMap]
    refine List.filterMap_congr fun c _ => ?_
    by_cases hc : c.truncate = second
    · -- Whatever becomes of a candidate in the second is left out on both sides.
      have hnone : ∀ {g : Segment}, (g.outcome c).filter (fun o => o.candidate.truncate ≠ second) =
          none := by
        intro g
        rw [Option.filter_eq_none_iff]
        intro o ho
        rw [candidate_of_outcome ho, hc]
        simp
      rw [hnone, hnone]
    · rw [outcome_withExceptions hc ht]
  · rw [occurrencesOf_of_lt hle] at h h'
    cases h
    cases h'
    rfl

private theorem Sides.truncate_of_moved (sides : g.Sides cap start stop)
    (hkeyed : g.exceptions.Keyed)
    {e : Exception} (he : e ∈ g.exceptions.values) (ho : sides.moved e = some o) :
    o.candidate.truncate = e.date.truncate :=
  (hkeyed.exceptionTo?_eq_some_iff he).1 (sides.accounts_of_moved hkeyed he ho).2.1

private theorem Sides.moved_filter_eq (sides : g.Sides cap start stop)
    (hkeyed : g.exceptions.Keyed) :
    (g.exceptions.values.filterMap sides.moved).filter (fun o => o.candidate.truncate ≠ second) =
      (Table.erase g.exceptions second).values.filterMap fun e =>
        (sides.moved e).filter fun o => o.candidate.truncate ≠ second := by
  rw [List.filter_filterMap, hkeyed.filterMap_values_erase second]
  intro e he hsecond
  rw [Option.filter_eq_none_iff]
  intro o ho
  rw [sides.truncate_of_moved hkeyed he ho, hsecond]
  simp

private theorem found_filter_eq (hkeyed : g.exceptions.Keyed) (htable : t.Keyed)
    (ht : Table.erase t second = Table.erase g.exceptions second)
    (h : g.found cap start stop = .ok os)
    (h' : (g.withExceptions t).found cap start stop = .ok os') :
    os'.filter (fun o => o.candidate.truncate ≠ second) =
      os.filter fun o => o.candidate.truncate ≠ second := by
  by_cases hlt : stop < start
  · rw [found_of_lt hlt] at h h'
    cases h
    cases h'
    rfl
  · obtain ⟨sides, rfl⟩ := exists_sides h hlt
    obtain ⟨sides', rfl⟩ := exists_sides h' hlt
    have hlast : sides'.last = sides.last :=
      Except.ok.inj (sides'.lastInstant_eq.symm.trans sides.lastInstant_eq)
    have hregular := sides.occurrencesOf_eq
    have hregular' := sides'.occurrencesOf_eq
    have hmoved' := sides'.movedIn?_eq
    rw [hlast] at hregular' hmoved'
    have hmem : ∀ {t : ExceptionTable}, ∀ e ∈ (Table.erase t second).values, e ∈ t.values :=
      fun e he => (List.filter_sublist.map Prod.snd).subset he
    have hsame : ∀ e ∈ (Table.erase g.exceptions second).values,
        sides'.moved e = sides.moved e := by
      intro e he
      have hother := hmoved' e (hmem e (ht ▸ he))
      exact Except.ok.inj (hother.symm.trans (sides.movedIn?_eq e (hmem e he)))
    rw [Sides.both, Sides.both, List.filter_append, List.filter_append,
      sides.moved_filter_eq hkeyed, sides'.moved_filter_eq htable]
    congr 1
    · rw [List.filter_comm, regular_filter_eq ht hregular hregular', List.filter_comm]
    · change (Table.erase t second).values.filterMap _ = _
      rw [ht]
      exact List.filterMap_congr fun e he => by rw [hsame e he]

private theorem segment_of_mem_found (hkeyed : g.exceptions.Keyed)
    (h : g.found cap start stop = .ok os) (ho : o ∈ os) : o.segment = g.id := by
  by_cases hlt : stop < start
  · rw [found_of_lt hlt] at h
    cases h
    cases ho
  · obtain ⟨sides, rfl⟩ := exists_sides h hlt
    rcases List.mem_append.1 ho with ho | ho
    · exact (sides.accounts_of_mem_regular (List.mem_of_mem_filter ho)).1.effective.segment
    · obtain ⟨e, he, heo⟩ := List.mem_filterMap.1 ho
      exact (sides.accounts_of_moved hkeyed he heo).1.effective.segment

end Segment

namespace Chain

variable {c : Chain} {cap max : Nat} {start stop : Instant} {os : List Occurrence}

private theorem exists_found_of_walk (h : ∀ m, max ≤ m → c.walk cap start stop m = .ok os) :
    ∃ found : Segment → List Occurrence,
      (∀ g ∈ c.inOrder, g.found cap start stop = .ok (found g)) ∧
      os = sort (c.inOrder.map fun g => sort (found g)).flatten := by
  have hall : ∀ g ∈ c.inOrder, ∃ all, g.found cap start stop = .ok all := by
    intro g hg
    have hmore := h (max + 1) (Nat.le_succ max)
    obtain ⟨value, hvalue, -⟩ := exists_resolved_of_walk hmore (Nat.succ_ne_zero max)
    have hresolve := hvalue g hg
    rw [Segment.resolve_eq (Nat.succ_ne_zero max)] at hresolve
    obtain ⟨all, hfound, -⟩ := map_eq_ok_iff.1 hresolve
    exact ⟨all, hfound⟩
  choose! found hfound using hall
  refine ⟨found, hfound, ?_⟩
  -- A limit beyond the number of everything found cuts nothing.
  let all := (c.inOrder.map fun g => sort (found g)).flatten
  have hresolve : ∀ g ∈ c.inOrder,
      g.resolve cap start stop (max + all.length + 1) = .ok (sort (found g)) := by
    intro g hg
    have hsublist : (sort (found g)).Sublist all :=
      List.sublist_flatten_of_mem (List.mem_map_of_mem hg)
    have hlength := hsublist.length_le
    rw [Segment.resolve_eq (Nat.succ_ne_zero _), hfound g hg]
    exact congrArg Except.ok (List.take_of_length_le (by omega))
  have hwhole := h (max + all.length + 1) (by omega)
  rw [walk_of_resolved (Nat.succ_ne_zero _) hresolve] at hwhole
  obtain rfl := Except.ok.inj hwhole
  refine List.take_of_length_le ?_
  rw [sort, List.length_mergeSort]
  change all.length ≤ _
  omega

/-- A walk that reports fewer than it may would report the same under every higher limit. -/
private theorem walk_of_length_lt (h : c.walk cap start stop max = .ok os) (hlt : os.length < max)
    {m : Nat} (hm : max ≤ m) : c.walk cap start stop m = .ok os := by
  obtain ⟨value, hvalue, rfl⟩ := exists_resolved_of_walk h (by omega)
  have hsorted : (sort (c.inOrder.map value).flatten).length = (c.inOrder.map value).flatten.length :=
    List.length_mergeSort _
  rw [List.length_take, hsorted] at hlt
  have hresolve : ∀ g ∈ c.inOrder, g.resolve cap start stop m = .ok (value g) := by
    intro g hg
    have hresolve := hvalue g hg
    rw [Segment.resolve_eq (by omega)] at hresolve ⊢
    obtain ⟨all, hall, hcut⟩ := map_eq_ok_iff.1 hresolve
    have hsublist : (value g).Sublist (c.inOrder.map value).flatten :=
      List.sublist_flatten_of_mem (List.mem_map_of_mem hg)
    have hlength := hsublist.length_le
    rw [← hcut, List.length_take] at hlength
    rw [hall, ← hcut, List.take_of_length_le (by omega)]
    exact congrArg Except.ok (List.take_of_length_le (by omega))
  rw [walk_of_resolved (by omega) hresolve, List.take_of_length_le (by omega),
    List.take_of_length_le (by omega)]

private theorem filter_eq_of_walk {c' : Chain} {os' : List Occurrence} {change : Segment → Segment}
    (hchange : c'.inOrder = c.inOrder.map change) {p : Occurrence → Bool}
    (hfound : ∀ g ∈ c.inOrder, ∀ all all', g.found cap start stop = .ok all →
      (change g).found cap start stop = .ok all' → all'.filter p = all.filter p)
    (h : ∀ m, max ≤ m → c.walk cap start stop m = .ok os)
    (h' : ∀ m, max ≤ m → c'.walk cap start stop m = .ok os') : os'.filter p = os.filter p := by
  obtain ⟨found, hall, rfl⟩ := exists_found_of_walk h
  obtain ⟨found', hall', rfl⟩ := exists_found_of_walk h'
  rw [filter_sort, filter_sort, List.filter_flatten, List.filter_flatten, hchange, List.map_map,
    List.map_map, List.map_map]
  congr 2
  refine List.map_congr_left fun g hg => ?_
  change (sort (found' (change g))).filter p = (sort (found g)).filter p
  rw [filter_sort, filter_sort, hfound g hg (found g) (found' (change g)) (hall g hg)]
  exact hall' (change g) (hchange ▸ List.mem_map_of_mem hg)

end Chain

namespace Store

variable {s s' : Store} {limits : Limits} {root : ObjectId} {start stop : Instant}
  {max : Option Nat} {os : List Occurrence} {e : Exception}

/-- A query reports all that there is: it would report the same if more were asked for. -/
def ReportsAll (s : Store) (limits : Limits) (root : ObjectId) (start stop : Instant)
    (max : Option Nat) (os : List Occurrence) : Prop :=
  ∀ more, max.getD limits.maxOccurrences ≤ more →
    s.occurrences limits root start stop (some more) = .ok os

private theorem ReportsAll.of_length_lt (h : s.occurrences limits root start stop max = .ok os)
    (hlt : os.length < max.getD limits.maxOccurrences) :
    s.ReportsAll limits root start stop max os := by
  intro more hmore
  by_cases hinverted : stop < start
  · rw [occurrences_of_inverted hinverted] at h ⊢
    exact h
  · rw [occurrences_eq_walk hinverted] at h ⊢
    exact Chain.walk_of_length_lt h hlt hmore

def withExceptions (s : Store) (tables : Table ObjectId ExceptionTable) : Store :=
  { s with exceptions := tables }

private theorem segments_withExceptions (s : Store) (tables : Table ObjectId ExceptionTable)
    (root : ObjectId) :
    ((s.withExceptions tables).chain root).segments = (s.chain root).segments.map fun g =>
      g.withExceptions ((s.withExceptions tables).exceptionsOf g.id) := by
  have hagrees : s.Agrees (s.withExceptions tables) (fun _ => True) fun g =>
      g.withExceptions ((s.withExceptions tables).exceptionsOf g.id) :=
    ⟨fun _ _ => rfl, fun _ _ => rfl, fun _ _ _ _ _ => rfl, fun _ _ _ _ => Or.inl trivial⟩
  exact hagrees.segments_chain_eq trivial

private theorem chain_withExceptions_eq {tables : Table ObjectId ExceptionTable}
    (h : ∀ id, (s.withExceptions tables).exceptionsOf id = s.exceptionsOf id) (root : ObjectId) :
    (s.withExceptions tables).chain root = s.chain root := by
  have hagrees : s.Agrees (s.withExceptions tables) (fun _ => True) fun g => g :=
    ⟨fun _ _ => rfl, fun _ _ => rfl, fun id _ _ _ _ => ?_, fun _ _ _ _ => Or.inl trivial⟩
  · have hsegments : ((s.withExceptions tables).chain root).segments =
        (s.chain root).segments.map fun g => g := hagrees.segments_chain_eq trivial
    rw [List.map_id'] at hsegments
    exact congrArg Chain.mk hsegments
  · unfold segment
    rw [h id]
    rfl

def recording (s : Store) (e : Exception) : Store :=
  s.withExceptions (s.exceptions.insert e.parent ((s.exceptionsOf e.parent).record e))

private theorem upsertException_eq_recording {old : Option Exception}
    (hok : s.upsertException e = .ok (s', old)) : s' = s.recording e :=
  (upsertException_eq_ok hok).2

private theorem exceptionsOf_recording (s : Store) (e : Exception) (id : ObjectId) :
    (s.recording e).exceptionsOf id =
      if id = e.parent then (s.exceptionsOf e.parent).record e else s.exceptionsOf id :=
  find?_exceptionsOf_insert _ id

private theorem filter_not_concerns_recording (hkeyed : s.Keyed) (e : Exception)
    {before after : List Occurrence} (hbefore : s.ReportsAll limits root start stop max before)
    (hafter : (s.recording e).ReportsAll limits root start stop max after) :
    after.filter (fun o => !e.concerns o) = before.filter fun o => !e.concerns o := by
  by_cases hlt : stop < start
  · have hnone := hbefore _ le_rfl
    have hnone' := hafter _ le_rfl
    rw [occurrences_of_inverted hlt] at hnone hnone'
    cases hnone
    cases hnone'
    rfl
  · have hwalk : ∀ {s : Store} {os : List Occurrence}, s.ReportsAll limits root start stop max os →
        ∀ m, max.getD limits.maxOccurrences ≤ m →
          (s.chain root).walk limits.safetyCap start stop m = .ok os := by
      intro s os h m hm
      have hreport := h m hm
      rwa [occurrences_eq_walk hlt] at hreport
    have hkeyed' : (s.recording e).Keyed :=
      hkeyed.insert_exceptions ((hkeyed.exceptionsOf e.parent).record e)
    have hlinked := Chain.inOrder_of_linked (s.chain_linked root)
    have hchange : ((s.recording e).chain root).inOrder = (s.chain root).inOrder.map
        fun g => g.withExceptions ((s.recording e).exceptionsOf g.id) := by
      rw [hlinked, Chain.inOrder_of_linked ((s.recording e).chain_linked root)]
      exact segments_withExceptions s _ root
    refine Chain.filter_eq_of_walk hchange (fun g hg all all' hall hall' => ?_) (hwalk hbefore)
      (hwalk hafter)
    rw [hlinked] at hg
    obtain ⟨own, boundary, next, -, hshape⟩ := exists_entity_of_mem_chain hg
    have htable : g.exceptions = s.exceptionsOf g.id := congrArg Segment.exceptions hshape
    have hg' : g.exceptions.Keyed := htable ▸ hkeyed.exceptionsOf g.id
    rw [exceptionsOf_recording] at hall'
    by_cases hid : g.id = e.parent
    · rw [if_pos hid, ← hid, ← htable] at hall'
      have ht := hg'.record e
      have hsegment' : ∀ o ∈ all', o.segment = g.id := fun o ho =>
        Segment.segment_of_mem_found (g := g.withExceptions (g.exceptions.record e)) ht hall' ho
      -- All that the object's own segment finds belongs to the object, so that the second decides.
      have hown : ∀ {os : List Occurrence}, (∀ o ∈ os, o.segment = g.id) →
          os.filter (fun o => !e.concerns o) =
            os.filter fun o => o.candidate.truncate ≠ e.date.truncate := by
        intro os hos
        refine List.filter_congr fun o ho => ?_
        simp [Exception.concerns, hos o ho, hid]
      rw [hown hsegment', hown fun o => Segment.segment_of_mem_found hg' hall]
      exact Segment.found_filter_eq hg' ht (Table.erase_insert_self _ _ e) hall hall'
    · rw [if_neg hid, ← htable] at hall'
      obtain rfl : all = all' := Except.ok.inj (hall.symm.trans hall')
      rfl

private theorem length_filter_concerns_le (edits : List Edit) (e : Exception)
    (h : (run edits).occurrences limits root start stop max = .ok os) :
    (os.filter e.concerns).length ≤ 1 := by
  -- A chain has an object once, and the object's series has one candidate in a second.
  obtain ⟨-, -, hdistinct, hall⟩ := accounts_of_occurrences (keyed_run edits) h
  have hpairwise : (os.filter e.concerns).Pairwise fun _ _ => False := by
    refine (hdistinct.filter e.concerns).imp_of_mem fun {a b} ha hb hne => hne ?_
    obtain ⟨ha, hconcerns⟩ := List.mem_filter.1 ha
    obtain ⟨hb, hconcerns'⟩ := List.mem_filter.1 hb
    simp only [Exception.concerns, Bool.and_eq_true, decide_eq_true_eq] at hconcerns hconcerns'
    obtain ⟨-, -, own, _, _, hown, -, haccounts⟩ := hall a ha
    obtain ⟨-, -, own', _, _, hown', -, haccounts'⟩ := hall b hb
    have hsegment : a.segment = b.segment := hconcerns.1.trans hconcerns'.1.symm
    obtain rfl : own = own' := by
      rw [hsegment, hown'] at hown
      exact (Option.some.inj hown).symm
    have hyields : own.series.Yields a.candidate := haccounts.effective.raw.yields
    have hyields' : own.series.Yields b.candidate := haccounts'.effective.raw.yields
    exact ⟨hsegment, hyields.eq_of_truncate_eq hyields' (hconcerns.2.trans hconcerns'.2.symm)⟩
  cases hlist : os.filter e.concerns with
  | nil => exact Nat.zero_le 1
  | cons a rest =>
    rw [hlist] at hpairwise
    cases rest with
    | nil => exact le_rfl
    | cons b rest => exact ((List.pairwise_cons.1 hpairwise).1 b List.mem_cons_self).elim

private theorem filter_not_concerns_eq_self (edits : List Edit) (e : Exception)
    (h : (run edits).occurrences limits root start stop max = .ok os)
    (hfree : ∀ g ∈ ((run edits).chain root).segments, g.id = e.parent →
      (∀ c, g.Raw c → c.truncate ≠ e.date.truncate) ∨
        ∃ x, g.exceptions.find? e.date.truncate = some x ∧ x.change = .cancelled) :
    os.filter (fun o => !e.concerns o) = os := by
  obtain ⟨-, -, -, hall⟩ := accounts_of_occurrences (keyed_run edits) h
  apply List.filter_eq_self.2
  intro o ho
  obtain ⟨-, -, own, boundary, next, -, hmem, haccounts⟩ := hall o ho
  have hcandidate : o.segment = e.parent → o.candidate.truncate ≠ e.date.truncate := by
    intro hsegment hsecond
    rcases hfree _ hmem hsegment with hnone | ⟨x, hx, hcancelled⟩
    · exact hnone o.candidate haccounts.effective.raw hsecond
    · obtain ⟨r, hreplaced, -⟩ := haccounts.effective.eq_replaced (e := x) (by
        unfold ExceptionTable.exceptionTo?
        rw [hsecond, hx])
      rw [hcancelled] at hreplaced
      cases hreplaced
  unfold Exception.concerns
  by_cases hsegment : o.segment = e.parent
  · simp [hcandidate hsegment]
  · simp [hsegment]

private theorem perform_upsertException_of_eq_ok {old : Option Exception}
    (hok : s.upsertException e = .ok (s', old)) : s.perform (.upsertException e) = s' := by
  simp only [perform, hok]

private theorem run_concat (edits : List Edit) (edit : Edit) :
    run (edits ++ [edit]) = (run edits).perform edit :=
  List.foldl_concat perform empty edit edits

private theorem old_of_upsertException {old : Option Exception}
    (hok : s.upsertException e = .ok (s', old)) :
    old = (s.exceptionsOf e.parent).exceptionTo? e.date := by
  unfold upsertException at hok
  obtain ⟨-, -, hresult⟩ := bind_eq_ok_iff.1 hok
  cases hresult
  rfl

private theorem chain_removeException_recording
    (hnone : (s.exceptionsOf e.parent).exceptionTo? e.date = none)
    {date : Instant} (hdate : date.truncate = e.date.truncate) (root : ObjectId) :
    ((s.recording e).removeException e.parent date).1.chain root = s.chain root := by
  have hremoved : ((s.recording e).removeException e.parent date).1 =
      s.withExceptions ((s.recording e).exceptions.insert e.parent (s.exceptionsOf e.parent)) := by
    have htable : (s.recording e).exceptions.find? e.parent =
        some ((s.exceptionsOf e.parent).record e) := Table.find?_insert_self _ _ _
    unfold removeException
    simp only [htable]
    rw [hdate, ExceptionTable.record, Table.erase_insert_self, Table.erase_eq_self hnone]
    rfl
  rw [hremoved]
  apply chain_withExceptions_eq
  intro id
  refine (find?_exceptionsOf_insert (s := s.recording e) _ id).trans ?_
  rw [exceptionsOf_recording]
  by_cases hid : id = e.parent
  · rw [if_pos hid, hid]
  · rw [if_neg hid, if_neg hid]

/-- Recording an exception changes at most the one occurrence that it is about, in every series,
and a cancellation only takes it away. An exception without a candidate changes nothing, and the
removal of one that took no other's place leads back. -/
theorem upsertException_changes_one (edits : List Edit) (e : Exception) (s' : Store)
    (old : Option Exception) (hok : (run edits).upsertException e = .ok (s', old)) :
    (∀ (limits : Limits) (root : ObjectId) (start stop : Instant) (max : Option Nat)
        (before after : List Occurrence),
      (run edits).ReportsAll limits root start stop max before →
      s'.ReportsAll limits root start stop max after →
        (before.filter e.concerns).length ≤ 1 ∧ (after.filter e.concerns).length ≤ 1 ∧
        after.filter (fun o => !e.concerns o) = before.filter (fun o => !e.concerns o) ∧
        (e.change = .cancelled → after = before.filter fun o => !e.concerns o) ∧
        ((∀ g ∈ ((run edits).chain root).segments, g.id = e.parent →
          ∀ c, g.Raw c → c.truncate ≠ e.date.truncate) → after = before)) ∧
    (old = none → ∀ date : Instant, date.truncate = e.date.truncate →
      ∀ (limits : Limits) (root : ObjectId) (start stop : Instant) (max : Option Nat),
        (s'.removeException e.parent date).1.occurrences limits root start stop max =
          (run edits).occurrences limits root start stop max) := by
  have hrun : run (edits ++ [.upsertException e]) = s' := by
    rw [run_concat, perform_upsertException_of_eq_ok hok]
  obtain rfl := upsertException_eq_recording hok
  refine ⟨fun limits root start stop max before after hbefore hafter => ?_,
    fun hold date hdate limits root start stop max => ?_⟩
  · have hbefore' := hbefore _ le_rfl
    have hafter' := hafter _ le_rfl
    rw [← hrun] at hafter'
    have hrest := filter_not_concerns_recording (keyed_run edits) e hbefore hafter
    refine ⟨length_filter_concerns_le edits e hbefore', length_filter_concerns_le _ e hafter',
      hrest, fun hcancelled => ?_, fun hnone => ?_⟩
    · rw [← hrest, filter_not_concerns_eq_self _ e hafter']
      rw [hrun]
      intro g hg hid
      obtain ⟨own, boundary, next, -, hshape⟩ := exists_entity_of_mem_chain hg
      refine Or.inr ⟨e, ?_, hcancelled⟩
      have htable : g.exceptions = ((run edits).exceptionsOf e.parent).record e := by
        rw [hshape]
        exact (exceptionsOf_recording _ e g.id).trans (if_pos hid)
      rw [htable]
      exact Table.find?_insert_self _ _ _
    · rw [← filter_not_concerns_eq_self _ e hafter', hrest,
        filter_not_concerns_eq_self _ e hbefore' fun g hg hid => Or.inl (hnone g hg hid)]
      rw [hrun]
      intro g' hg' hid
      have hsegments := segments_withExceptions (run edits) ((run edits).recording e).exceptions root
      obtain ⟨g, hg, rfl⟩ := List.mem_map.1 (hsegments ▸ hg')
      exact Or.inl fun c hc => hnone g hg hid c ⟨hc.yields, hc.from_start, hc.before_end⟩
  · have hnone := (old_of_upsertException hok).symm.trans hold
    unfold occurrences
    rw [chain_removeException_recording hnone hdate]

def firstWeek (days : List Nat) : List Occurrence :=
  days.map fun n => ⟨.nine 2026 1 n, .nine 2026 1 (n + 1), ⟨"daily"⟩, none, .nine 2026 1 n⟩

/-- Of the five days the third is cancelled, and no other takes its place. A replacement for the
sixth, which is no candidate, changes nothing. -/
theorem third_day_cancelled :
    let s := run [.insert fiveDays]
    let third : Exception := ⟨⟨"daily"⟩, .nine 2026 1 3, .cancelled⟩
    let sixth : Exception :=
      ⟨⟨"daily"⟩, .nine 2026 1 6, .replaced ⟨⟨"moved"⟩, .nine 2026 1 2, .nine 2026 1 3⟩⟩
    s.upsertException third = .ok (s.recording third, none) ∧
      s.upsertException sixth = .ok (s.recording sixth, none) ∧
      s.ReportsAll {} ⟨"daily"⟩ (.nine 2026 1 1) (.nine 2026 1 7) none
        (firstWeek [1, 2, 3, 4, 5]) ∧
      (s.recording third).ReportsAll {} ⟨"daily"⟩ (.nine 2026 1 1) (.nine 2026 1 7) none
        (firstWeek [1, 2, 4, 5]) ∧
      firstWeek [1, 2, 4, 5] = (firstWeek [1, 2, 3, 4, 5]).filter (fun o => !third.concerns o) ∧
      (∀ after, (s.recording sixth).ReportsAll {} ⟨"daily"⟩ (.nine 2026 1 1) (.nine 2026 1 7) none
        after → after = firstWeek [1, 2, 3, 4, 5]) ∧
      ∀ (limits : Limits) (root : ObjectId) (start stop : Instant) (max : Option Nat),
        ((s.recording third).removeException ⟨"daily"⟩ (.nine 2026 1 3)).1.occurrences limits root
          start stop max = s.occurrences limits root start stop max := by
  intro s third sixth
  have hthird : s.upsertException third = .ok (s.recording third, none) := rfl
  have hsixth : s.upsertException sixth = .ok (s.recording sixth, none) := rfl
  have hbefore : s.ReportsAll {} ⟨"daily"⟩ (.nine 2026 1 1) (.nine 2026 1 7) none
      (firstWeek [1, 2, 3, 4, 5]) := by
    refine .of_length_lt ?_ (by decide)
    simp only [occurrences, Chain.walk, Segment.resolve, sort_eq_insertionSort]
    decide +kernel
  have hafter : (s.recording third).ReportsAll {} ⟨"daily"⟩ (.nine 2026 1 1) (.nine 2026 1 7) none
      (firstWeek [1, 2, 4, 5]) := by
    refine .of_length_lt ?_ (by decide)
    simp only [occurrences, Chain.walk, Segment.resolve, sort_eq_insertionSort]
    decide +kernel
  obtain ⟨hchanges, hback⟩ := upsertException_changes_one [.insert fiveDays] third _ none hthird
  obtain ⟨-, -, -, hcancelled, -⟩ := hchanges _ _ _ _ _ _ _ hbefore hafter
  refine ⟨hthird, hsixth, hbefore, hafter, hcancelled rfl, fun after hafter => ?_,
    hback rfl _ rfl⟩
  obtain ⟨hchanges, -⟩ := upsertException_changes_one [.insert fiveDays] sixth _ none hsixth
  obtain ⟨-, -, -, -, hsame⟩ := hchanges _ _ _ _ _ _ _ hbefore hafter
  apply hsame
  intro g hg _ c hc hsecond
  have hroot : s.entity? ⟨"daily"⟩ = some fiveDays := rfl
  have hsegments := chain_of_link?_eq_none hroot rfl
  rw [hsegments, List.mem_singleton] at hg
  subst hg
  have hends : c ≤ .nine 2026 1 5 := hc.yields.ends (.nine 2026 1 5) rfl
  have hsixth : Instant.nine 2026 1 6 ≤ .nine 2026 1 5 := by
    have htruncate : c.truncate = .nine 2026 1 6 := hsecond
    rw [← htruncate]
    exact (Instant.truncate_le c).trans hends
  exact absurd hsixth (by decide)

end Store
end Recurrence
