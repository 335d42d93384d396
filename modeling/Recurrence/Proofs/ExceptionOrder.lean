import Recurrence.Proofs.SingleExceptions

set_option autoImplicit false
set_option relaxedAutoImplicit false

/-!
The order in which exceptions are recorded and visited. A resolution visits them in the order in
which their table happens to hold them, and puts what it finds in order by start and candidate. As
each candidate is found once, no two of the occurrences share both, so nothing is left to that order,
not even where several of them start at once.
-/

namespace Recurrence

open Occurrence

instance : Subsingleton CalendarError := ⟨fun ⟨⟩ ⟨⟩ => rfl⟩

private theorem eq_of_ok_iff {ε α : Type} [Subsingleton ε] {x y : Except ε α}
    (h : ∀ a, x = .ok a ↔ y = .ok a) : x = y := by
  cases x with
  | ok a => exact ((h a).1 rfl).symm
  | error e =>
    cases y with
    | ok b => exact (h b).2 rfl
    | error e' => rw [Subsingleton.elim e e']

namespace Table

variable {κ α : Type} [DecidableEq κ] {t t' : Table κ α} {xs : List (κ × α)}

private theorem find?_eq_of_perm (h : t.entries.Perm t'.entries) (key : κ) :
    t.find? key = t'.find? key := by
  ext value
  rw [← mem_entries_iff, ← mem_entries_iff, h.mem_iff]

private theorem entries_foldl_insert (hxs : (xs.map Prod.fst).Nodup)
    (hnew : ∀ x ∈ xs, t.find? x.1 = none) :
    (xs.foldl (fun t x => t.insert x.1 x.2) t).entries = xs.reverse ++ t.entries := by
  induction xs generalizing t with
  | nil => rfl
  | cons x xs ih =>
    obtain ⟨hx, hrest⟩ := List.nodup_cons.1 hxs
    have hput : (t.insert x.1 x.2).entries = x :: t.entries := by
      change x :: (t.erase x.1).entries = x :: t.entries
      rw [erase_eq_self (hnew x List.mem_cons_self)]
    have hlater : ∀ y ∈ xs, (t.insert x.1 x.2).find? y.1 = none := by
      intro y hy
      have hne : y.1 ≠ x.1 := fun heq => hx (List.mem_map.2 ⟨y, hy, heq⟩)
      rw [find?_insert, if_neg hne]
      exact hnew y (List.mem_cons_of_mem x hy)
    rw [List.foldl_cons, ih hrest hlater, hput, List.reverse_cons, List.append_assoc]
    rfl

private theorem entries_ofList_perm (hxs : (xs.map Prod.fst).Nodup) :
    (ofList xs).entries.Perm xs := by
  have hentries : (ofList xs).entries = xs.reverse ++ [] :=
    entries_foldl_insert hxs fun x _ => find?_empty x.1
  rw [hentries, List.append_nil]
  exact xs.reverse_perm

end Table

private theorem ExceptionTable.ofList_eq (records : List Exception) :
    ofList records = Table.ofList (records.map fun e => (e.date.truncate, e)) := by
  unfold ofList Table.ofList
  rw [List.foldl_map]
  rfl

private theorem Occurrence.sort_eq_of_perm {os os' : List Occurrence} (hperm : os'.Perm os)
    (hos : os.Pairwise fun a b => a.candidate ≠ b.candidate) : sort os' = sort os := by
  have hos' := hperm.symm.pairwise hos fun hab => hab.symm
  refine Ascending.eq_of_mem_iff (sort_pairwise_of_candidates hos')
    (sort_pairwise_of_candidates hos) fun o => ?_
  rw [mem_sort, mem_sort, hperm.mem_iff]

namespace Segment

variable {g : Segment} {cap max : Nat} {start stop first last : Instant} {os : List Occurrence}
  {t : ExceptionTable}

private theorem occurrencesOf_withExceptions (ht : t.entries.Perm g.exceptions.entries) :
    (g.withExceptions t).occurrencesOf cap first last = g.occurrencesOf cap first last := by
  have happly : (g.withExceptions t).overlay.apply = g.overlay.apply := by
    funext c
    unfold Overlay.apply
    have hlookup : (g.withExceptions t).overlay.exceptions.exceptionTo? c =
        g.overlay.exceptions.exceptionTo? c := Table.find?_eq_of_perm ht c.truncate
    rw [hlookup]
    rfl
  unfold occurrencesOf Overlay.applyAll
  rw [happly]
  rfl

/-- Visiting the exceptions in another order finds the same occurrences in another order. -/
private theorem exists_found_withExceptions (ht : t.entries.Perm g.exceptions.entries)
    (hdates : g.exceptions.values.Pairwise fun a b => a.date.truncate ≠ b.date.truncate)
    (h : g.found cap start stop = .ok os) :
    ∃ os', (g.withExceptions t).found cap start stop = .ok os' ∧ sort os' = sort os := by
  by_cases hlt : stop < start
  · rw [found_of_lt hlt] at h
    cases h
    exact ⟨[], found_of_lt hlt, rfl⟩
  · obtain ⟨sides, rfl⟩ := exists_sides h hlt
    have hvalues : t.values.Perm g.exceptions.values := ht.map Prod.snd
    have hmoved : ∀ e ∈ t.values, (g.withExceptions t).movedIn? cap start stop
        (start.latest g.startBoundary) sides.last e = .ok (sides.moved e) :=
      fun e he => sides.movedIn?_eq e (hvalues.mem_iff.1 he)
    refine ⟨sides.regular.filter (fun o => start ≤ o.start ∧ o.start ≤ stop) ++
      t.values.filterMap sides.moved, ?_, ?_⟩
    · unfold found
      rw [if_neg hlt]
      refine bind_eq_ok_iff.2 ⟨sides.last, sides.lastInstant_eq, bind_eq_ok_iff.2
        ⟨sides.regular, (occurrencesOf_withExceptions ht).trans sides.occurrencesOf_eq,
          bind_eq_ok_iff.2 ⟨_, mapM_eq_ok_map hmoved, ?_⟩⟩⟩
      rw [List.filterMap_map]
      rfl
    · exact sort_eq_of_perm ((List.Perm.refl _).append (hvalues.filterMap sides.moved))
        (sides.pairwise_candidate hdates)

private theorem resolve_withExceptions_eq_ok (ht : t.entries.Perm g.exceptions.entries)
    (hdates : g.exceptions.values.Pairwise fun a b => a.date.truncate ≠ b.date.truncate)
    (h : g.resolve cap start stop max = .ok os) :
    (g.withExceptions t).resolve cap start stop max = .ok os := by
  rcases eq_or_ne max 0 with rfl | hmax
  · exact h
  · rw [resolve_eq hmax] at h ⊢
    obtain ⟨all, hall, rfl⟩ := map_eq_ok_iff.1 h
    obtain ⟨all', hall', hsame⟩ := exists_found_withExceptions ht hdates hall
    exact map_eq_ok_iff.2 ⟨all', hall', congrArg (List.take max) hsame⟩

private theorem resolve_withExceptions (ht : t.entries.Perm g.exceptions.entries)
    (hdates : g.exceptions.values.Pairwise fun a b => a.date.truncate ≠ b.date.truncate) :
    (g.withExceptions t).resolve cap start stop max = g.resolve cap start stop max := by
  have hvalues : g.exceptions.values.Perm t.values := (ht.map Prod.snd).symm
  have hother : t.values.Pairwise fun a b => a.date.truncate ≠ b.date.truncate :=
    hvalues.pairwise hdates fun hab => hab.symm
  refine eq_of_ok_iff fun os => ⟨fun h => ?_, resolve_withExceptions_eq_ok ht hdates⟩
  exact resolve_withExceptions_eq_ok (g := g.withExceptions t) (t := g.exceptions) ht.symm hother h

private theorem pairwise_candidate_of_resolve
    (hdates : g.exceptions.values.Pairwise fun a b => a.date.truncate ≠ b.date.truncate)
    (h : g.resolve cap start stop max = .ok os) :
    os.Pairwise fun a b => a.candidate ≠ b.candidate := by
  rcases exists_sides_of_resolve h with rfl | ⟨sides, rfl⟩
  · exact .nil
  · exact pairwise_take_sort Ne.symm (sides.pairwise_candidate hdates) max

/-- Where no two exceptions of a segment have the same second, neither the order in which its table
holds and visits them nor that in which they were put in, by themselves or under any keys, has a say
in what the segment resolves to, and no two occurrences that it resolves to share start and
candidate. -/
theorem resolve_free_of_order (g : Segment)
    (hdates : g.exceptions.values.Pairwise fun a b => a.date.truncate ≠ b.date.truncate)
    (cap : Nat) (start stop : Instant) (max : Nat) :
    (∀ t : ExceptionTable, t.entries.Perm g.exceptions.entries →
      (g.withExceptions t).resolve cap start stop max = g.resolve cap start stop max) ∧
    (∀ entries, entries.Perm g.exceptions.entries →
      (g.withExceptions (Table.ofList entries)).resolve cap start stop max =
        g.resolve cap start stop max) ∧
    (∀ records, (records.map fun e => (e.date.truncate, e)).Perm g.exceptions.entries →
      (g.withExceptions (.ofList records)).resolve cap start stop max =
        g.resolve cap start stop max) ∧
    ∀ os, g.resolve cap start stop max = .ok os →
      os.Pairwise fun a b => (a.start, a.candidate) ≠ (b.start, b.candidate) := by
  have hput : ∀ entries, entries.Perm g.exceptions.entries →
      (Table.ofList entries).entries.Perm g.exceptions.entries := fun entries hentries =>
    (Table.entries_ofList_perm
      ((hentries.map Prod.fst).nodup_iff.2 g.exceptions.keys_nodup)).trans hentries
  refine ⟨fun t ht => resolve_withExceptions ht hdates,
    fun entries hentries => resolve_withExceptions (hput entries hentries) hdates,
    fun records hrecords => ?_, fun os hos => ?_⟩
  · rw [ExceptionTable.ofList_eq]
    exact resolve_withExceptions (hput _ hrecords) hdates
  · exact (pairwise_candidate_of_resolve hdates hos).imp fun hne heq =>
      hne (congrArg Prod.snd heq)

def firstToThird : Exception :=
  ⟨⟨"daily"⟩, .nine 2026 1 1, .replaced ⟨⟨"early"⟩, .nine 2026 1 3, .nine 2026 1 4⟩⟩

/-- Two of five days are moved to the one between them. All three start at once and are reported in
the order of their candidates, whichever was recorded first. -/
theorem resolve_meeting_on_third :
    let daily := (Store.run [.insert Store.fiveDays]).segment ⟨"daily"⟩ Store.fiveDays
      Store.fiveDays.start none
    let resolve (records : List Exception) :=
      (daily.withExceptions (.ofList records)).resolve 9 (.nine 2026 1 3) (.nine 2026 1 3) 9
    [firstToThird, Store.fifthToThird].Pairwise (fun a b => a.date.truncate ≠ b.date.truncate) ∧
      resolve [Store.fifthToThird, firstToThird] = resolve [firstToThird, Store.fifthToThird] ∧
      (resolve [firstToThird, Store.fifthToThird]).map (List.map Occurrence.candidate) =
        .ok [.nine 2026 1 1, .nine 2026 1 3, .nine 2026 1 5] := by
  intro daily resolve
  have hdates : [firstToThird, Store.fifthToThird].Pairwise
      fun a b => a.date.truncate ≠ b.date.truncate := by decide
  have hvalues : (daily.withExceptions
      (.ofList [firstToThird, Store.fifthToThird])).exceptions.values.Pairwise
        fun a b => a.date.truncate ≠ b.date.truncate := by decide
  have hentries : ([Store.fifthToThird, firstToThird].map fun e => (e.date.truncate, e)).Perm
      (daily.withExceptions (.ofList [firstToThird, Store.fifthToThird])).exceptions.entries := by
    decide
  obtain ⟨-, -, hrecords, -⟩ := resolve_free_of_order
    (daily.withExceptions (.ofList [firstToThird, Store.fifthToThird])) hvalues 9
    (.nine 2026 1 3) (.nine 2026 1 3) 9
  refine ⟨hdates, hrecords _ hentries, ?_⟩
  simp only [resolve, Segment.resolve, sort_eq_insertionSort]
  decide +kernel

end Segment

end Recurrence
