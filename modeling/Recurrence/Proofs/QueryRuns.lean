import Recurrence.Proofs.SegmentResolution
import Recurrence.Query

set_option autoImplicit false
set_option relaxedAutoImplicit false

/-!
What a query runs through. A query walks along a chain, a walk resolves the segments, and a
resolution expands a series and looks at its exceptions; each of them may fail at the calendar's
ends. Of each it is said what it came to if it succeeded, whatever the store and the limits.
-/

namespace Recurrence

open Occurrence

theorem Occurrence.pairwise_take_sort {R : Occurrence → Occurrence → Prop}
    (hsymm : ∀ {a b}, R a b → R b a) {os : List Occurrence} (h : os.Pairwise R) (n : Nat) :
    ((sort os).take n).Pairwise R :=
  ((List.mergeSort_perm _ _).symm.pairwise h hsymm).take

theorem Series.expand_eq_ok {s : Series} {cap : Nat} {start stop : Instant} {e : Expansion}
    (h : s.expand cap start stop = .ok e) :
    e.candidates.Pairwise (· < ·) ∧ ∀ c ∈ e.candidates, start ≤ c ∧ c ≤ stop := by
  obtain ⟨_ | r, anchor⟩ := s
  · cases h
    refine ⟨List.Pairwise.filter _ (List.pairwise_singleton _ _), fun c hc => ?_⟩
    have hin := of_decide_eq_true (List.mem_filter.1 hc).2
    exact ⟨hin.1, hin.2.1⟩
  · obtain ⟨-, -, hresult⟩ := bind_eq_ok_iff.1 h
    cases hresult
    rw [Pattern.expand_candidates]
    refine ⟨(Pattern.enumerate_ascending _ _ _).sublist (Pattern.choose_sublist _ _ _ _ _),
      fun c hc => ?_⟩
    obtain ⟨-, hstart, hbound⟩ := Pattern.of_mem_choose hc
    exact ⟨hstart, (Pattern.le_bound_iff.1 hbound).1⟩

namespace Segment

variable {g : Segment} {cap max : Nat} {start stop first last : Instant} {os : List Occurrence}

private theorem eq_outcome_of_apply_eq_ok {c : Instant} {found : Option Occurrence}
    (h : g.overlay.apply c = .ok found) : found = g.outcome c := by
  have htable : g.overlay.exceptions = g.exceptions := rfl
  unfold Overlay.apply at h
  unfold outcome Exception.replacement?
  rw [htable] at h
  cases hexception : g.exceptions.exceptionTo? c with
  | none =>
    simp only [hexception, Option.map_none] at h
    obtain ⟨made, hmade, hsome⟩ := bind_eq_ok_iff.1 h
    obtain ⟨ends, hends, hresult⟩ := bind_eq_ok_iff.1 hmade
    obtain rfl := Instant.eq_shifted_of_add_eq_ok hends
    cases hsome
    cases hresult
    rfl
  | some e =>
    simp only [hexception, Option.map_some] at h
    cases hchange : e.change with
    | cancelled =>
      rw [hchange] at h
      cases h
      simp [hchange]
    | replaced r =>
      rw [hchange] at h
      cases h
      simp [hchange]

theorem le_of_lastInstant (h : g.lastInstant stop = .ok last) : last ≤ stop := by
  unfold lastInstant at h
  split at h
  · obtain ⟨before, -, h⟩ := bind_eq_ok_iff.1 h
    cases h
    exact (Instant.le_earliest_iff.1 le_rfl).1
  · cases h
    exact le_rfl

theorem lt_end_of_lastInstant {t : Instant} (h : g.lastInstant stop = .ok last)
    (ht : g.endBoundary = some t) : last < t := by
  unfold lastInstant at h
  rw [ht] at h
  obtain ⟨before, hbefore, hresult⟩ := bind_eq_ok_iff.1 h
  cases hresult
  exact (Instant.le_earliest_iff.1 le_rfl).2.trans_lt (Instant.lt_of_add_neg_nanosecond hbefore)

theorem occurrencesOf_of_lt (hlt : ¬ first ≤ last) : g.occurrencesOf cap first last = .ok [] := by
  unfold occurrencesOf
  rw [if_neg hlt]
  rfl

theorem occurrencesOf_eq_ok (h : g.occurrencesOf cap first last = .ok os) (hle : first ≤ last) :
    ∃ e, g.series.expand cap first last = .ok e ∧
      (∀ c ∈ e.candidates, g.overlay.apply c = .ok (g.outcome c)) ∧
      os = e.candidates.filterMap g.outcome := by
  unfold occurrencesOf at h
  rw [if_pos hle] at h
  obtain ⟨e, he, h⟩ := bind_eq_ok_iff.1 h
  obtain ⟨found, hfound, h⟩ := bind_eq_ok_iff.1 h
  cases h
  obtain ⟨value, rfl, hvalue⟩ := exists_map_of_mapM_eq_ok hfound
  have happly : ∀ c ∈ e.candidates, value c = g.outcome c :=
    fun c hc => eq_outcome_of_apply_eq_ok (hvalue c hc)
  refine ⟨e, he, fun c hc => ?_, ?_⟩
  · rw [← happly c hc]
    exact hvalue c hc
  · rw [List.filterMap_map]
    exact List.filterMap_congr happly

theorem exists_candidates_of_occurrencesOf (h : g.occurrencesOf cap first last = .ok os) :
    ∃ cs : List Instant, cs.Pairwise (· < ·) ∧
      (∀ c ∈ cs, (∃ e, g.series.expand cap first last = .ok e ∧ c ∈ e.candidates) ∧
        g.overlay.apply c = .ok (g.outcome c)) ∧
      os = cs.filterMap g.outcome := by
  by_cases hle : first ≤ last
  · obtain ⟨e, he, happly, rfl⟩ := occurrencesOf_eq_ok h hle
    exact ⟨e.candidates, (Series.expand_eq_ok he).1, fun c hc => ⟨⟨e, he, hc⟩, happly c hc⟩, rfl⟩
  · rw [occurrencesOf_of_lt hle] at h
    cases h
    exact ⟨[], .nil, nofun, rfl⟩

theorem pairwise_candidate_of_occurrencesOf (h : g.occurrencesOf cap first last = .ok os) :
    os.Pairwise fun a b => a.candidate ≠ b.candidate := by
  obtain ⟨cs, hascending, -, rfl⟩ := exists_candidates_of_occurrencesOf h
  refine List.Pairwise.filterMap g.outcome ?_ (hascending.imp ne_of_lt)
  intro a b hne oa hoa ob hob
  rw [candidate_of_outcome hoa, candidate_of_outcome hob]
  exact hne

/-- What a resolution finds in a window, before it is put in order and cut. -/
def found (g : Segment) (cap : Nat) (start stop : Instant) :
    Except CalendarError (List Occurrence) :=
  if stop < start then return []
  else do
    let first := start.latest g.startBoundary
    let last ← g.lastInstant stop
    let regular ← g.occurrencesOf cap first last
    let moved ← g.exceptions.values.mapM (g.movedIn? cap start stop first last)
    return regular.filter (fun o => start ≤ o.start ∧ o.start ≤ stop) ++ moved.filterMap fun o => o

theorem found_of_lt (hlt : stop < start) : g.found cap start stop = .ok [] := by
  unfold found
  rw [if_pos hlt]
  rfl

theorem resolve_zero (g : Segment) (cap : Nat) (start stop : Instant) :
    g.resolve cap start stop 0 = .ok [] := rfl

theorem resolve_eq (hmax : max ≠ 0) : g.resolve cap start stop max =
    (fun os => (sort os).take max) <$> g.found cap start stop := by
  unfold resolve found
  by_cases hlt : stop < start
  · rw [if_pos (Or.inr hlt), if_pos hlt]
    simp [sort, pure, Except.pure, Functor.map, Except.map]
  · rw [if_neg (by tauto), if_neg hlt]
    simp only [map_bind, map_pure]

/-- The two sides of a resolution that succeeded: what becomes of the candidates in the segment's part
of the window, and what its exceptions move there from elsewhere. -/
structure Sides (g : Segment) (cap : Nat) (start stop : Instant) where
  last : Instant
  regular : List Occurrence
  moved : Exception → Option Occurrence
  lastInstant_eq : g.lastInstant stop = .ok last
  occurrencesOf_eq : g.occurrencesOf cap (start.latest g.startBoundary) last = .ok regular
  movedIn?_eq : ∀ e ∈ g.exceptions.values,
    g.movedIn? cap start stop (start.latest g.startBoundary) last e = .ok (moved e)

def Sides.both (sides : g.Sides cap start stop) : List Occurrence :=
  sides.regular.filter (fun o => start ≤ o.start ∧ o.start ≤ stop) ++
    g.exceptions.values.filterMap sides.moved

theorem exists_sides (h : g.found cap start stop = .ok os) (hle : ¬ stop < start) :
    ∃ sides : g.Sides cap start stop, os = sides.both := by
  unfold found at h
  rw [if_neg hle] at h
  obtain ⟨last, hlast, h⟩ := bind_eq_ok_iff.1 h
  obtain ⟨regular, hregular, h⟩ := bind_eq_ok_iff.1 h
  obtain ⟨moved, hmoved, h⟩ := bind_eq_ok_iff.1 h
  cases h
  obtain ⟨value, rfl, hvalue⟩ := exists_map_of_mapM_eq_ok hmoved
  refine ⟨⟨last, regular, value, hlast, hregular, hvalue⟩, ?_⟩
  rw [List.filterMap_map]
  rfl

theorem exists_sides_of_resolve (h : g.resolve cap start stop max = .ok os) :
    os = [] ∨ ∃ sides : g.Sides cap start stop, os = (sort sides.both).take max := by
  rcases eq_or_ne max 0 with rfl | hmax
  · rw [resolve_zero] at h
    cases h
    exact Or.inl rfl
  · rw [resolve_eq hmax] at h
    obtain ⟨all, hall, rfl⟩ := map_eq_ok_iff.1 h
    by_cases hlt : stop < start
    · rw [found_of_lt hlt] at hall
      cases hall
      exact Or.inl (by simp [sort])
    · obtain ⟨sides, rfl⟩ := exists_sides hall hlt
      exact Or.inr ⟨sides, rfl⟩

end Segment

namespace Chain

variable {c : Chain} {cap max : Nat} {start stop : Instant} {os : List Occurrence}

theorem walk_zero (c : Chain) (cap : Nat) (start stop : Instant) :
    c.walk cap start stop 0 = .ok [] := rfl

theorem walk_of_resolved {value : Segment → List Occurrence} (hmax : max ≠ 0)
    (h : ∀ g ∈ c.inOrder, g.resolve cap start stop max = .ok (value g)) :
    c.walk cap start stop max = .ok ((sort (c.inOrder.map value).flatten).take max) := by
  unfold walk
  rw [if_neg hmax, mapM_eq_ok_map h]
  rfl

theorem exists_resolved_of_walk (h : c.walk cap start stop max = .ok os) (hmax : max ≠ 0) :
    ∃ value : Segment → List Occurrence,
      (∀ g ∈ c.inOrder, g.resolve cap start stop max = .ok (value g)) ∧
      os = (sort (c.inOrder.map value).flatten).take max := by
  unfold walk at h
  rw [if_neg hmax] at h
  obtain ⟨resolved, hresolved, hos⟩ := bind_eq_ok_iff.1 h
  obtain ⟨value, rfl, hvalue⟩ := exists_map_of_mapM_eq_ok hresolved
  exact ⟨value, hvalue, (Except.ok.inj hos).symm⟩

end Chain

namespace Store

variable {s : Store} {limits : Limits} {start stop : Instant}

theorem occurrences_of_inverted (hlt : stop < start) (root : ObjectId) (max : Option Nat) :
    s.occurrences limits root start stop max = .ok [] := by
  unfold occurrences
  rw [if_pos hlt]
  rfl

theorem occurrences_eq_walk (hle : ¬ stop < start) (root : ObjectId) (max : Option Nat) :
    s.occurrences limits root start stop max =
      (s.chain root).walk limits.safetyCap start stop (max.getD limits.maxOccurrences) := by
  unfold occurrences
  rw [if_neg hle]

end Store

end Recurrence
