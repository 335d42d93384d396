import Recurrence.Proofs.QueryCompleteness

set_option autoImplicit false
set_option relaxedAutoImplicit false

/-!
The order of the segments of a chain. An edit of all following occurrences looks at the object's own
rule and start, not at where the object takes over from another one. As long as no object is split
before it takes over, the split dates of a chain do not decrease, its segments do not overlap, and
without replacements its occurrences start one after another.
-/

namespace Recurrence

open Occurrence

namespace Segment

variable {g g' g'' : Segment} {cap max : Nat} {start stop c : Instant} {o : Occurrence}

def EndsBefore (g g' : Segment) : Prop :=
  ∃ t, g.endBoundary = some t ∧ t ≤ g'.startBoundary ∧ ∀ t', g'.endBoundary = some t' → t ≤ t'

private theorem EndsBefore.lt_of_contains {a b : Instant} (h : g.EndsBefore g')
    (ha : g.contains a = true) (hb : g'.contains b = true) : a < b := by
  obtain ⟨t, hend, hle, -⟩ := h
  exact ((contains_iff.1 ha).2 t hend).trans_le (hle.trans (contains_iff.1 hb).1)

def Unreplaced (g : Segment) : Prop := ∀ e ∈ g.exceptions.values, e.change = .cancelled

theorem Unreplaced.start_eq (hg : g.Unreplaced) (ho : g.outcome c = some o) : o.start = c := by
  unfold outcome at ho
  cases hexception : g.exceptions.exceptionTo? c with
  | none =>
    rw [hexception] at ho
    exact congrArg Occurrence.start (Option.some.inj ho).symm
  | some e =>
    have hcancelled := hg e (ExceptionTable.exceptionTo?_mem_values hexception)
    simp [hexception, Exception.replacement?, hcancelled] at ho

private theorem Unreplaced.both_eq (hg : g.Unreplaced) (sides : g.Sides cap start stop) :
    sides.both = sides.regular.filter fun o => start ≤ o.start ∧ o.start ≤ stop := by
  have hmoved : g.exceptions.values.filterMap sides.moved = [] := by
    rw [List.filterMap_eq_nil_iff]
    intro e he
    have hnone := sides.movedIn?_eq e he
    unfold movedIn? at hnone
    rw [hg e he] at hnone
    exact (Except.ok.inj hnone).symm
  rw [Sides.both, hmoved, List.append_nil]

private theorem resolve_eq_ok (hg : g.Unreplaced) {os : List Occurrence}
    (h : g.resolve cap start stop max = .ok os) :
    os.Pairwise (fun a b => a.candidate ≠ b.candidate) ∧
      ∀ o ∈ os, o.start = o.candidate ∧ g.contains o.candidate = true := by
  rcases exists_sides_of_resolve h with rfl | ⟨sides, rfl⟩
  · exact ⟨.nil, nofun⟩
  · rw [hg.both_eq]
    have hdistinct := pairwise_candidate_of_occurrencesOf sides.occurrencesOf_eq
    refine ⟨pairwise_take_sort Ne.symm (hdistinct.filter _) max, fun o ho => ?_⟩
    have hmem := List.mem_of_mem_filter (mem_sort.1 (List.mem_of_mem_take ho))
    obtain ⟨cs, -, hexpanded, hcs⟩ := exists_candidates_of_occurrencesOf sides.occurrencesOf_eq
    obtain ⟨c, hc, houtcome⟩ := List.mem_filterMap.1 (hcs ▸ hmem)
    obtain rfl := candidate_of_outcome houtcome
    obtain ⟨⟨e, he, hfound⟩, -⟩ := hexpanded _ hc
    obtain ⟨hlow, hhigh⟩ := (Series.expand_eq_ok he).2 _ hfound
    refine ⟨hg.start_eq houtcome, contains_iff.2 ⟨(Instant.latest_le_iff.1 hlow).2, ?_⟩⟩
    intro t ht
    exact hhigh.trans_lt (lt_end_of_lastInstant sides.lastInstant_eq ht)

end Segment

namespace Chain

variable {c : Chain} {cap max : Nat} {start stop : Instant}

/-- In a chain whose segments do not overlap, occurrences that are not replaced start one after
another. -/
theorem walk_ascending (hends : c.inOrder.Pairwise Segment.EndsBefore)
    (hc : ∀ g ∈ c.inOrder, g.Unreplaced) {os : List Occurrence}
    (h : c.walk cap start stop max = .ok os) : os.Pairwise fun a b => a.start < b.start := by
  rcases eq_or_ne max 0 with rfl | hmax
  · rw [walk_zero] at h
    cases h
    exact .nil
  · obtain ⟨value, hvalue, rfl⟩ := exists_resolved_of_walk h hmax
    have hresolved := fun g hg => Segment.resolve_eq_ok (hc g hg) (hvalue g hg)
    have hdistinct : (c.inOrder.map value).flatten.Pairwise
        fun a b => a.candidate ≠ b.candidate := by
      rw [List.pairwise_flatten, List.forall_mem_map, List.pairwise_map]
      refine ⟨fun g hg => (hresolved g hg).1, hends.imp_of_mem ?_⟩
      intro g g' hg hg' hbefore a ha b hb
      exact ne_of_lt (hbefore.lt_of_contains ((hresolved g hg).2 a ha).2
        ((hresolved g' hg').2 b hb).2)
    have hstart : ∀ o ∈ (c.inOrder.map value).flatten, o.start = o.candidate := by
      intro o ho
      obtain ⟨_, hos, ho⟩ := List.mem_flatten.1 ho
      obtain ⟨g, hg, rfl⟩ := List.mem_map.1 hos
      exact ((hresolved g hg).2 o ho).1
    refine ((sort_pairwise_of_candidates hdistinct).imp_of_mem ?_).take
    intro a b ha hb hlt
    rcases hlt with hlt | ⟨hsame, hlt⟩
    · exact hlt
    · rw [← hstart a (mem_sort.1 ha), ← hstart b (mem_sort.1 hb), hsame] at hlt
      exact absurd hlt (lt_irrefl _)

end Chain

namespace Store

variable {s s' : Store}

/-- No object is split before the date from which it takes over from another one. -/
def Ordered (s : Store) : Prop :=
  ∀ a b incoming own, s.link? a = some incoming → incoming.continuation = some b →
    s.link? b = some own → incoming.splitDate ≤ own.splitDate

/-- An edit, if it is made, splits no object before the date from which it takes over. -/
def Heeds (s : Store) : Edit → Prop
  | .bulk id edit => ∀ s' link, s.applyBulkEdit id edit = .ok (s', link) →
      ∀ a incoming, s.link? a = some incoming → incoming.continuation = some id →
        incoming.splitDate ≤ edit.splitDate
  | _ => True

def HeedsAll : Store → List Edit → Prop
  | _, [] => True
  | s, edit :: edits => s.Heeds edit ∧ HeedsAll (s.perform edit) edits

theorem Ordered.of_links (hs : s.Ordered)
    (hlinks : ∀ a link, s'.link? a = some link → s.link? a = some link) : s'.Ordered :=
  fun a b incoming own ha hb hown =>
    hs a b incoming own (hlinks a incoming ha) hb (hlinks b own hown)

private theorem Ordered.of_split {id : ObjectId} {edit : BulkEdit} {link : Link} (hs : s.Ordered)
    (howned : s.Owned) (h : s.Split id edit s' link)
    (hheeds : ∀ a incoming, s.link? a = some incoming → incoming.continuation = some id →
      incoming.splitDate ≤ edit.splitDate) : s'.Ordered := by
  intro a b incoming own ha hb hown
  rw [h.link?_eq] at ha hown
  by_cases hroot : a = id
  · -- The new link leads to a new object, which goes on as nothing.
    rw [if_pos hroot] at ha
    obtain rfl := Option.some.inj ha
    rw [h.link_eq] at hb
    obtain ⟨e, he, rfl⟩ := Option.map_eq_some_iff.1 hb
    rw [if_neg (h.id_ne he), (howned e.id (h.fresh e he).2).2] at hown
    cases hown
  · rw [if_neg hroot] at ha
    by_cases hsplit : b = id
    · rw [if_pos hsplit] at hown
      rw [← Option.some.inj hown, congrArg Link.splitDate h.link_eq]
      exact hheeds a incoming ha (hsplit ▸ hb)
    · rw [if_neg hsplit] at hown
      exact hs a b incoming own ha hb hown

theorem Ordered.perform {edit : Edit} (hs : s.Ordered) (howned : s.Owned)
    (hedit : edit.keepsLinks = true) (hheeds : s.Heeds edit) : (s.perform edit).Ordered := by
  cases edit with
  | insert e => exact hs
  | insertLink link => simp [Edit.keepsLinks] at hedit
  | upsertException e =>
    simp only [Store.perform]
    cases hresult : s.upsertException e with
    | error => exact hs
    | ok made =>
      obtain ⟨-, hmade⟩ := upsertException_eq_ok hresult
      simp only [hmade]
      exact hs
  | removeException parent date =>
    simp only [Store.perform, Store.removeException]
    cases s.exceptions.find? parent <;> exact hs
  | deleteChain root => exact hs.of_links fun a link hlink => link?_of_eraseAll hlink
  | bulk id edit =>
    simp only [Store.perform]
    cases hresult : s.applyBulkEdit id edit with
    | error => exact hs
    | ok made =>
      obtain ⟨s', link⟩ := made
      obtain ⟨hsplit⟩ := exists_split hresult
      exact hs.of_split howned hsplit (hheeds s' link hresult)

private theorem ordered_run (edits : List Edit) (hedits : ∀ edit ∈ edits, edit.keepsLinks = true)
    (hheeds : empty.HeedsAll edits) : (run edits).Ordered := by
  have hall : ∀ (edits : List Edit) (s : Store), s.Ordered → s.Owned →
      (∀ edit ∈ edits, edit.keepsLinks = true) → s.HeedsAll edits →
        (edits.foldl Store.perform s).Ordered := by
    intro edits
    induction edits with
    | nil => exact fun s hs _ _ _ => hs
    | cons edit edits ih =>
      intro s hs howned hkeeps hheeds
      obtain ⟨hkeep, hkeeps⟩ := List.forall_mem_cons.1 hkeeps
      exact ih _ (hs.perform howned hkeep hheeds.1) (howned.of_step (s.step_perform edit) hkeep)
        hkeeps hheeds.2
  refine hall edits empty ?_ (fun id _ => ⟨rfl, rfl⟩) hedits hheeds
  rintro a b incoming own ⟨⟩

section Loading

variable (s) (unloaded : List ObjectId) (id : ObjectId) (e : Entity) (startBoundary : Instant)
  (place : Nat)

private theorem segmentsFrom_from {t : Instant} (hs : s.Ordered) (hstart : t ≤ startBoundary)
    (hlink : ∀ own, s.link? id = some own → t ≤ own.splitDate) :
    ∀ g ∈ s.segmentsFrom unloaded id e startBoundary place,
      t ≤ g.startBoundary ∧ ∀ t', g.endBoundary = some t' → t ≤ t' := by
  fun_induction Store.segmentsFrom s unloaded id e startBoundary place with
  | case2 unloaded id e startBoundary place continuation splitDate hnext hmem following hfollowing
      ih =>
    obtain ⟨link, hfind, hcontinuation, rfl⟩ := exists_link_of_next hnext
    intro g hg
    rcases List.mem_cons.1 hg with rfl | hg
    · refine ⟨hstart, fun t' ht' => ?_⟩
      obtain ⟨own, hown, rfl⟩ := Option.map_eq_some_iff.1 ht'
      exact hlink own hown
    · refine ih (hlink link hfind) (fun own hown => ?_) g hg
      exact (hlink link hfind).trans (hs _ _ link own hfind hcontinuation hown)
  | _ =>
    intro g hg
    obtain rfl := List.mem_singleton.1 hg
    refine ⟨hstart, fun t' ht' => ?_⟩
    obtain ⟨own, hown, rfl⟩ := Option.map_eq_some_iff.1 ht'
    exact hlink own hown

private theorem segmentsFrom_endsBefore (hs : s.Ordered) :
    (s.segmentsFrom unloaded id e startBoundary place).Pairwise Segment.EndsBefore := by
  fun_induction Store.segmentsFrom s unloaded id e startBoundary place with
  | case2 unloaded id e startBoundary place continuation splitDate hnext hmem following hfollowing
      ih =>
    obtain ⟨link, hfind, hcontinuation, rfl⟩ := exists_link_of_next hnext
    refine List.pairwise_cons.2 ⟨fun g hg => ?_, ih⟩
    have hend : (s.link? id).map Link.splitDate = some link.splitDate := by
      rw [hfind, Option.map_some]
    exact ⟨link.splitDate, hend, segmentsFrom_from s _ _ following link.splitDate _ hs le_rfl
      (fun own hown => hs _ _ link own hfind hcontinuation hown) g hg⟩
  | _ => exact List.pairwise_singleton _ _

end Loading

private theorem chain_endsBefore (hs : s.Ordered) (root : ObjectId) :
    (s.chain root).segments.Pairwise Segment.EndsBefore := by
  unfold chain
  cases s.entity? root with
  | none => exact .nil
  | some e => exact s.segmentsFrom_endsBefore _ root e e.start 0 hs

/-- Whatever run of edits made a store, as long as none of them splits an object before it takes
over: along every chain the split dates do not decrease, no instant lies in two segments or is a raw
candidate of two, and if nothing is replaced, each occurrence starts after the one before it. -/
theorem chain_ordered_run (edits : List Edit) (root : ObjectId)
    (hedits : ∀ edit ∈ edits, edit.keepsLinks = true) (hheeds : empty.HeedsAll edits) :
    (((run edits).chain root).segments.filterMap Segment.endBoundary).Pairwise (· ≤ ·) ∧
      ((run edits).chain root).segments.Pairwise
        (fun g g' => ∀ t, ¬ (g.contains t = true ∧ g'.contains t = true)) ∧
      ((run edits).chain root).segments.Pairwise (fun g g' => ∀ t, ¬ (g.Raw t ∧ g'.Raw t)) ∧
      ((∀ g ∈ ((run edits).chain root).segments, g.Unreplaced) →
        ∀ limits start stop max os, (run edits).occurrences limits root start stop max = .ok os →
          os.Pairwise fun a b => a.start < b.start) := by
  have hends := chain_endsBefore (ordered_run edits hedits hheeds) root
  have hdisjoint : ((run edits).chain root).segments.Pairwise
      fun g g' => ∀ t, ¬ (g.contains t = true ∧ g'.contains t = true) :=
    hends.imp fun hbefore t ht => lt_irrefl t (hbefore.lt_of_contains ht.1 ht.2)
  refine ⟨?_, hdisjoint, ?_, fun hplain limits start stop max os hos => ?_⟩
  · refine List.pairwise_filterMap.2 (hends.imp ?_)
    rintro g g' ⟨t, hend, -, hle⟩ a ha b hb
    obtain rfl := Option.some.inj (hend.symm.trans ha)
    exact hle b hb
  · refine hdisjoint.imp fun hnone t ht => hnone t ?_
    exact ⟨(Segment.raw_iff.1 ht.1).2, (Segment.raw_iff.1 ht.2).2⟩
  · unfold occurrences at hos
    split at hos
    · cases hos
      exact .nil
    · have hlinked := (run edits).chain_linked root
      refine Chain.walk_ascending ?_ ?_ hos
      · rwa [Chain.inOrder_of_linked hlinked]
      · rwa [Chain.inOrder_of_linked hlinked]

private theorem heeds_of_entries {id : ObjectId} {edit : BulkEdit}
    (hlinks : ∀ x ∈ s.links.entries, x.2.continuation = some id → x.2.splitDate ≤ edit.splitDate) :
    s.Heeds (.bulk id edit) :=
  fun _ _ _ a incoming ha hid => hlinks (a, incoming) (Table.mem_entries_iff.2 ha) hid

def successor (name : String) (dayOfMonth : Nat) : Entity where
  id := ⟨name⟩
  organization := ⟨"office"⟩
  details := .available
  start := .nine 2026 1 dayOfMonth
  stop := .nine 2026 1 (dayOfMonth + 1)
  rule := none

def threeParts : List Edit :=
  [.insert fiveDays,
    .bulk ⟨"daily"⟩ ⟨.nine 2026 1 3, some (successor "second" 3), none⟩,
    .bulk ⟨"second"⟩ ⟨.nine 2026 1 4, some (successor "third" 4), none⟩]

/-- The second split comes after the first one, and the three parts do not overlap. -/
theorem chain_of_three_parts :
    (∀ edit ∈ threeParts, edit.keepsLinks = true) ∧ empty.HeedsAll threeParts ∧
      ((run threeParts).chain ⟨"daily"⟩).segments.map Segment.endBoundary =
        [some (.nine 2026 1 3), some (.nine 2026 1 4), none] ∧
      ((run threeParts).chain ⟨"daily"⟩).segments.Pairwise
        (fun g g' => ∀ t, ¬ (g.Raw t ∧ g'.Raw t)) := by
  have hedits : ∀ edit ∈ threeParts, edit.keepsLinks = true := by decide
  have hheeds : empty.HeedsAll threeParts :=
    ⟨trivial, heeds_of_entries (by decide +kernel), heeds_of_entries (by decide +kernel), trivial⟩
  exact ⟨hedits, hheeds, by decide +kernel,
    (chain_ordered_run threeParts ⟨"daily"⟩ hedits hheeds).2.2.1⟩

def earlySplit : List Edit :=
  [.insert { fiveDays with rule := some { frequency := .daily } },
    .bulk ⟨"daily"⟩ ⟨.nine 2026 1 10, some (successor "second" 5), none⟩,
    .bulk ⟨"second"⟩ ⟨.nine 2026 1 7, some (successor "third" 7), none⟩]

/-- Then the split dates decrease, and the days between the two splits are reported twice. -/
theorem overlap_of_early_split :
    ((run earlySplit).chain ⟨"daily"⟩).segments.map Segment.endBoundary =
        [some (.nine 2026 1 10), some (.nine 2026 1 7), none] ∧
      ((run earlySplit).occurrences {} ⟨"daily"⟩ (.nine 2026 1 5) (.nine 2026 1 11) none).toOption.map
        (fun os => os.map Occurrence.start) = some [.nine 2026 1 5, .nine 2026 1 6, .nine 2026 1 7,
          .nine 2026 1 7, .nine 2026 1 8, .nine 2026 1 8, .nine 2026 1 9, .nine 2026 1 9,
          .nine 2026 1 10, .nine 2026 1 11] ∧
      ¬ ∀ edits root, (∀ edit ∈ edits, edit.keepsLinks = true) →
        (((run edits).chain root).segments.filterMap Segment.endBoundary).Pairwise (· ≤ ·) := by
  refine ⟨by decide +kernel, ?_, fun hall => ?_⟩
  · simp only [occurrences, Chain.walk, Segment.resolve, sort_eq_insertionSort]
    decide +kernel
  · have hdates : ((run earlySplit).chain ⟨"daily"⟩).segments.filterMap Segment.endBoundary =
        [.nine 2026 1 10, .nine 2026 1 7] := by decide +kernel
    have hordered := hall earlySplit ⟨"daily"⟩ (by decide)
    rw [hdates] at hordered
    exact absurd hordered (by decide)

end Store

end Recurrence
