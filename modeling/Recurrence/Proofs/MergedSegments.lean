import Recurrence.Proofs.QueryCompleteness

set_option autoImplicit false
set_option relaxedAutoImplicit false

/-!
Walks that report more or fewer occurrences. A walk cuts what each segment resolves to before it
merges the segments, and cuts again behind the merge. Nothing is lost by the first cut, so a walk
reports the first ones of all that its segments find, and a shorter report is the beginning of a
longer one. This holds of every arena, however its segments overlap and whatever their exceptions.
-/

namespace Recurrence

namespace Occurrence

private theorem sort_flatten_map_sort (oss : List (List Occurrence)) :
    sort (oss.map sort).flatten = sort oss.flatten := by
  induction oss with
  | nil => rfl
  | cons os oss ih =>
    rw [List.map_cons, List.flatten_cons, List.flatten_cons, sort_append, sort_append, ih,
      sort_of_pairwise (sort_pairwise os)]

private theorem take_sort_flatten_map (oss : List (List Occurrence)) (n : Nat) :
    (sort (oss.map fun os => (sort os).take n).flatten).take n = (sort oss.flatten).take n := by
  have hsorted : ∀ os ∈ oss.map sort, os.Pairwise fun a b => a.precedes b = true := by
    intro os hos
    obtain ⟨found, -, rfl⟩ := List.mem_map.1 hos
    exact sort_pairwise found
  have hcut := take_sort_flatten n hsorted
  rw [List.map_map, sort_flatten_map_sort] at hcut
  exact hcut

end Occurrence

open Occurrence

private theorem Segment.resolve_of_found {g : Segment} {cap : Nat} {start stop : Instant}
    {os : List Occurrence} (h : g.found cap start stop = .ok os) (max : Nat) :
    g.resolve cap start stop max = .ok ((sort os).take max) := by
  by_cases hmax : max = 0
  · rw [hmax, List.take_zero]
    exact g.resolve_zero cap start stop
  · rw [g.resolve_eq hmax, h]
    rfl

namespace Chain

variable {c : Chain} {cap m n : Nat} {start stop : Instant} {oss : List (List Occurrence)}

def found (c : Chain) (cap : Nat) (start stop : Instant) :
    Except CalendarError (List (List Occurrence)) :=
  c.inOrder.mapM fun g => g.found cap start stop

private theorem mapM_resolve_of_found (h : c.found cap start stop = .ok oss) (max : Nat) :
    (c.inOrder.mapM fun g => g.resolve cap start stop max) =
      .ok (oss.map fun os => (sort os).take max) := by
  obtain ⟨value, rfl, hvalue⟩ := exists_map_of_mapM_eq_ok h
  rw [List.map_map]
  exact mapM_eq_ok_map fun g hg => Segment.resolve_of_found (hvalue g hg) max

/-- A walk merges all that its segments find, and cuts it once. It fails as they do. -/
private theorem walk_eq_found (hmax : n ≠ 0) : c.walk cap start stop n =
    (fun oss => (sort oss.flatten).take n) <$> c.found cap start stop := by
  have hcut : (c.inOrder.mapM fun g => g.resolve cap start stop n) =
      List.map (fun os => (sort os).take n) <$> c.found cap start stop := by
    simp only [Segment.resolve_eq hmax]
    exact mapM_map_eq _ _ _
  unfold walk
  rw [if_neg hmax, hcut]
  cases c.found cap start stop with
  | error e => rfl
  | ok oss => exact congrArg Except.ok (take_sort_flatten_map oss n)

private theorem walk_of_found (h : c.found cap start stop = .ok oss) (max : Nat) :
    c.walk cap start stop max = .ok ((sort oss.flatten).take max) := by
  by_cases hmax : max = 0
  · rw [hmax, List.take_zero]
    exact c.walk_zero cap start stop
  · rw [walk_eq_found hmax, h]
    rfl

private theorem walk_eq_take (hm : m ≠ 0) (hle : m ≤ n) :
    c.walk cap start stop m = List.take m <$> c.walk cap start stop n := by
  have hn : n ≠ 0 := Nat.ne_of_gt (Nat.lt_of_lt_of_le (Nat.pos_of_ne_zero hm) hle)
  rw [walk_eq_found hm, walk_eq_found hn]
  cases c.found cap start stop with
  | error e => rfl
  | ok oss =>
    apply congrArg Except.ok
    rw [List.take_take, min_eq_left hle]

/-- A walk for fewer occurrences reports the first ones of a walk for more, and fails exactly if
that one does, unless none are asked for. Both report the first ones of all that the segments find,
merged so that ties stand in the order of the chain, as if nothing were cut before the merge. -/
theorem walk_takes_first (c : Chain) (cap : Nat) (start stop : Instant) {m n : Nat} (hle : m ≤ n) :
    (∀ os, c.walk cap start stop n = .ok os → c.walk cap start stop m = .ok (os.take m)) ∧
    (m ≠ 0 → c.walk cap start stop m = List.take m <$> c.walk cap start stop n) ∧
    ∀ oss, c.found cap start stop = .ok oss →
      (c.inOrder.mapM fun g => g.resolve cap start stop m) =
        .ok (oss.map fun os => (sort os).take m) ∧
      (sort (oss.map fun os => (sort os).take m).flatten).take m = (sort oss.flatten).take m ∧
      ∃ merged : List PlacedOccurrence, merged.Perm (PlacedOccurrence.placeFrom 0 oss) ∧
        merged.Pairwise (fun p q => ¬ q.Before p) ∧
        merged.map PlacedOccurrence.occurrence = sort oss.flatten ∧
        c.walk cap start stop m = .ok ((merged.take m).map PlacedOccurrence.occurrence) := by
  refine ⟨fun os hos => ?_, fun hm => walk_eq_take hm hle, fun oss hoss =>
    ⟨mapM_resolve_of_found hoss m, take_sort_flatten_map oss m, ?_⟩⟩
  · by_cases hm : m = 0
    · rw [hm, List.take_zero]
      exact c.walk_zero cap start stop
    · rw [walk_eq_take hm hle, hos]
      rfl
  · let merged := PlacedOccurrence.sort (PlacedOccurrence.placeFrom 0 oss)
    have hmap : merged.map PlacedOccurrence.occurrence = sort oss.flatten := by
      rw [PlacedOccurrence.map_sort, PlacedOccurrence.map_placeFrom]
    refine ⟨merged, List.mergeSort_perm _ _, PlacedOccurrence.sort_placeFrom_pairwise 0 oss, hmap,
      ?_⟩
    rw [walk_of_found hoss, List.map_take, hmap]

def doubledDays : Chain where
  segments :=
    let store := Store.run [.insert Store.fiveDays, .upsertException Store.fifthToThird]
    let daily := store.segment ⟨"daily"⟩ Store.fiveDays Store.fiveDays.start
    [daily (some 1), { daily none with id := ⟨"again"⟩, exceptions := ∅ }]

/-- On the third day three occurrences meet, of which the moved one comes last. -/
theorem walk_doubledDays :
    let walk := doubledDays.walk 9 (.nine 2026 1 2) (.nine 2026 1 3)
    3 ≤ 5 ∧ ∃ os, walk 5 = .ok os ∧ walk 3 = .ok (os.take 3) ∧
      os.map (fun o => (o.start, o.segment.text, o.replacement.isSome)) =
        [(.nine 2026 1 2, "daily", false), (.nine 2026 1 2, "again", false),
          (.nine 2026 1 3, "daily", false), (.nine 2026 1 3, "again", false),
          (.nine 2026 1 3, "daily", true)] := by
  intro walk
  have hstarts : (walk 5).map (List.map fun o => (o.start, o.segment.text, o.replacement.isSome)) =
      .ok [(.nine 2026 1 2, "daily", false), (.nine 2026 1 2, "again", false),
        (.nine 2026 1 3, "daily", false), (.nine 2026 1 3, "again", false),
        (.nine 2026 1 3, "daily", true)] := by
    simp only [walk, Chain.walk, Segment.resolve, sort_eq_insertionSort]
    decide +kernel
  obtain ⟨os, hos, hmap⟩ := map_eq_ok_iff.1 hstarts
  have hle : 3 ≤ 5 := by decide
  exact ⟨hle, os, hos, (doubledDays.walk_takes_first 9 _ _ hle).1 os hos, hmap⟩

end Chain

end Recurrence
