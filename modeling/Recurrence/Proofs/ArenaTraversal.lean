import Mathlib.Data.List.Nodup
import Recurrence.Proofs.ChainSegments

set_option autoImplicit false
set_option relaxedAutoImplicit false

/-!
The way through an arena whose segments point anywhere: forward, backward, to themselves or outside.
Both the iteration and the search for a cycle keep a mark for every segment and stop at the first
step that comes to nothing, outside, or to a marked segment. As every other step sets a mark, each
ends after as many steps as there are segments, and one more.
-/

namespace Recurrence

/-- Where a traversal stands: the marks of the segments it has come to, and the place it goes to
next. -/
structure Traversal where
  marks : List Bool
  current : Option Nat

namespace Chain

variable {c : Chain} {k n : Nat}

def traversal (c : Chain) : Traversal := ⟨List.replicate c.segments.length false, c.root?⟩

/-- The segment that the iteration yields, and where it stands then; none if it is over. -/
def advance? (c : Chain) (t : Traversal) : Option (Segment × Traversal) :=
  t.current.bind fun place => match t.marks[place]? with
    | some false => c.segments[place]?.map fun g => (g, ⟨t.marks.set place true, g.next⟩)
    | _ => none

/-- What the iteration yields within a number of calls: nothing if it is not over by then. -/
def iterate (c : Chain) : Nat → Traversal → Option (List Segment)
  | 0, _ => none
  | calls + 1, t => match c.advance? t with
    | none => some []
    | some (g, t') => (c.iterate calls t').map (g :: ·)

def searchCycle (c : Chain) : Nat → Traversal → Option Bool
  | 0, _ => none
  | rounds + 1, t => match t.current with
    | none => some false
    | some place => match t.marks[place]? with
      | none => some false
      | some true => some true
      | some false => c.searchCycle rounds ⟨t.marks.set place true, c.next? place⟩

structure Unmarked (c : Chain) (marks : List Bool) (places : List Nat) : Prop where
  length_eq : marks.length = c.segments.length
  nodup : places.Nodup
  mem_iff : ∀ place, place ∈ places ↔ marks[place]? = some false

private theorem unmarked_traversal (c : Chain) : c.Unmarked c.traversal.marks c.places where
  length_eq := List.length_replicate
  nodup := List.nodup_range
  mem_iff place := by
    unfold places traversal
    rw [List.mem_range, List.getElem?_replicate]
    simp

namespace Unmarked

variable {marks : List Bool} {places : List Nat} {place : Nat}

private theorem set (h : c.Unmarked marks places) (place : Nat) :
    c.Unmarked (marks.set place true) (places.erase place) where
  length_eq := by rw [List.length_set, h.length_eq]
  nodup := h.nodup.erase place
  mem_iff other := by
    rw [h.nodup.mem_erase_iff, h.mem_iff, List.getElem?_set]
    by_cases hother : place = other
    · simp [hother]
    · simp [hother, Ne.symm hother]

theorem exists_segment (h : c.Unmarked marks places) (hplace : place ∈ places) :
    ∃ g, c.segments[place]? = some g := by
  obtain ⟨hlt, -⟩ := List.getElem?_eq_some_iff.1 ((h.mem_iff place).1 hplace)
  exact ⟨_, List.getElem?_eq_getElem (h.length_eq ▸ hlt)⟩

/-- The iteration ends when all marks are set at the latest, and yields the segments of a trail. -/
private theorem iterate_eq (h : c.Unmarked marks places) (current : Option Nat) {calls : Nat}
    (hcalls : places.length < calls) : c.iterate calls ⟨marks, current⟩ =
      some ((trail c.next? places current).filterMap fun place => c.segments[place]?) := by
  induction calls generalizing marks places current with
  | zero => exact absurd hcalls (Nat.not_lt_zero _)
  | succ calls ih =>
    cases current with
    | none =>
      unfold trail
      rfl
    | some place =>
      unfold iterate advance? trail
      by_cases hplace : place ∈ places
      · obtain ⟨g, hg⟩ := h.exists_segment hplace
        have hnext : c.next? place = g.next := by
          unfold next?
          rw [hg, Option.bind_some]
        have hshorter := List.length_erase_of_mem hplace
        have hpositive := List.length_pos_of_mem hplace
        have hrest := ih (h.set place) g.next (by omega)
        simp only [Option.bind_some, (h.mem_iff place).1 hplace, hg, Option.map_some, hrest,
          if_pos hplace, hnext, List.filterMap_cons]
      · have hmark : marks[place]? ≠ some false := mt (h.mem_iff place).2 hplace
        rw [if_neg hplace, Option.bind_some]
        split
        · rename_i hstep
          rfl
        · rename_i hstep
          split at hstep
          · exact absurd ‹_› hmark
          · cases hstep

private theorem searchCycle_eq (h : c.Unmarked marks places) (current : Option Nat) {rounds : Nat}
    (hrounds : places.length < rounds) : c.searchCycle rounds ⟨marks, current⟩ =
      some (leadsBack c.next? c.places places current) := by
  induction rounds generalizing marks places current with
  | zero => exact absurd hrounds (Nat.not_lt_zero _)
  | succ rounds ih =>
    cases current with
    | none =>
      unfold leadsBack
      rfl
    | some place =>
      unfold searchCycle leadsBack
      by_cases hplace : place ∈ places
      · have hshorter := List.length_erase_of_mem hplace
        have hpositive := List.length_pos_of_mem hplace
        simp only [(h.mem_iff place).1 hplace, if_pos hplace]
        exact ih (h.set place) (c.next? place) (by omega)
      · have hmark : marks[place]? ≠ some false := mt (h.mem_iff place).2 hplace
        have hinside : place ∈ c.places ↔ place < marks.length := by
          rw [Chain.places, List.mem_range, h.length_eq]
        rw [if_neg hplace]
        cases hfound : marks[place]? with
        | none =>
          have hout : place ∉ c.places := fun hin =>
            absurd (List.getElem?_eq_none_iff.1 hfound) (Nat.not_le.2 (hinside.1 hin))
          simp [hfound, hout]
        | some mark =>
          obtain ⟨hlt, -⟩ := List.getElem?_eq_some_iff.1 hfound
          cases mark with
          | true => simp [hfound, hinside.2 hlt]
          | false => exact absurd hfound hmark

end Unmarked

def placeAfter? (c : Chain) (steps : Nat) : Option Nat := wayAfter c.next? (some 0) steps

def way (c : Chain) : List Nat := trail c.next? c.places (some 0)

private theorem way_eq_root (c : Chain) : trail c.next? c.places c.root? = c.way := by
  unfold way
  rw [root?_eq]
  split
  · rfl
  · rename_i hempty
    rw [trail, trail, if_neg]
    unfold places
    rwa [List.mem_range]

private theorem getElem?_way (hk : k < c.way.length) :
    c.way[k]? = c.placeAfter? k := getElem?_trail hk

private theorem mem_way_iff {place : Nat} :
    place ∈ c.way ↔ ∃ k < c.way.length, c.placeAfter? k = some place := by
  rw [List.mem_iff_getElem?]
  constructor
  · rintro ⟨k, hk⟩
    obtain ⟨hlt, -⟩ := List.getElem?_eq_some_iff.1 hk
    exact ⟨k, hlt, getElem?_way hlt ▸ hk⟩
  · rintro ⟨k, hlt, hk⟩
    exact ⟨k, (getElem?_way hlt).trans hk⟩

private theorem length_way_le (c : Chain) : c.way.length ≤ c.segments.length :=
  (length_trail_le _ _ _).trans_eq List.length_range

private theorem lt_of_mem_way {place : Nat} (hplace : place ∈ c.way) : place < c.segments.length :=
  List.mem_range.1 (mem_of_mem_trail hplace)

def ComesToNew (c : Chain) (steps : Nat) : Prop :=
  ∃ place < c.segments.length, c.placeAfter? steps = some place ∧
    ∀ earlier < steps, c.placeAfter? earlier ≠ some place

private theorem comesToNew_of_lt (hk : k < c.way.length) : c.ComesToNew k := by
  obtain ⟨place, hplace⟩ : ∃ place, c.way[k]? = some place := ⟨_, List.getElem?_eq_getElem hk⟩
  refine ⟨place, lt_of_mem_way (List.mem_of_getElem? hplace), getElem?_way hk ▸ hplace, ?_⟩
  intro earlier hearlier hagain
  have hlt : earlier < c.way.length := hearlier.trans hk
  have hsame : c.way[earlier]? = c.way[k]? := by rw [getElem?_way hlt, hagain, hplace]
  have heq : earlier = k := (List.getElem?_inj hlt (nodup_trail List.nodup_range)).1 hsame
  exact absurd heq (Nat.ne_of_lt hearlier)

private theorem mem_way_of_placeAfter? {place : Nat}
    (hplace : c.placeAfter? c.way.length = some place)
    (hlt : place < c.segments.length) : place ∈ c.way := by
  rcases wayAfter_length_trail hplace with hout | hin
  · exact absurd (List.mem_range.2 hlt) hout
  · exact hin

private theorem not_comesToNew_length_way (c : Chain) : ¬ c.ComesToNew c.way.length := by
  rintro ⟨place, hlt, hplace, hnew⟩
  obtain ⟨k, hk, hagain⟩ := mem_way_iff.1 (mem_way_of_placeAfter? hplace hlt)
  exact hnew k hk hagain

private theorem map_some_inOrder (c : Chain) : c.inOrder.map some =
    (List.range c.way.length).map fun k =>
      (c.placeAfter? k).bind fun place => c.segments[place]? := by
  have hsome : c.inOrder.map some = c.way.map fun place => c.segments[place]? := by
    unfold inOrder
    rw [way_eq_root, List.map_filterMap, ← List.filterMap_eq_map]
    refine List.filterMap_congr fun place hplace => ?_
    rw [Function.comp_apply, List.getElem?_eq_getElem (lt_of_mem_way hplace), Option.map_some]
  rw [hsome]
  ext k : 1
  rw [List.getElem?_map, List.getElem?_map]
  by_cases hk : k < c.way.length
  · obtain ⟨place, hplace⟩ : ∃ place, c.way[k]? = some place := ⟨_, List.getElem?_eq_getElem hk⟩
    rw [List.getElem?_range hk, Option.map_some, ← getElem?_way hk, hplace]
    rfl
  · rw [List.getElem?_eq_none (Nat.not_lt.1 hk), List.getElem?_eq_none]
    · rfl
    · rwa [List.length_range, ← Nat.not_lt]

private theorem hasCycle_eq_any (c : Chain) :
    c.hasCycle = (c.placeAfter? c.way.length).any (· < c.segments.length) := by
  unfold hasCycle
  rw [leadsBack_eq_any, way_eq_root]
  simp only [places, List.mem_range]
  by_cases hempty : c.segments.length = 0
  · have hway : c.way.length = 0 := Nat.eq_zero_of_le_zero (hempty ▸ c.length_way_le)
    rw [hway, wayAfter, placeAfter?, wayAfter, root?_eq, hempty]
    rfl
  · rw [root?_eq, if_pos (Nat.pos_of_ne_zero hempty)]
    rfl

/-- Whatever the places that the segments of an arena point to, iteration and search for a cycle end
after one step more than there are segments at the latest. The iteration yields the segments that
the way from the first one comes to, up to the first step that comes to none, outside, or to one
that was yielded; a cycle is reported exactly if the step comes to one that was yielded, and none
exactly if it comes to nothing or outside. -/
theorem inOrder_follows_next (c : Chain) :
    (∀ more, c.iterate (c.segments.length + 1 + more) c.traversal = some c.inOrder ∧
      c.searchCycle (c.segments.length + 1 + more) c.traversal = some c.hasCycle) ∧
    ∃ n ≤ c.segments.length, (∀ k < n, c.ComesToNew k) ∧ ¬ c.ComesToNew n ∧
      c.inOrder.map some = (List.range n).map (fun k =>
        (c.placeAfter? k).bind fun place => c.segments[place]?) ∧
      (c.hasCycle = true ↔ ∃ k < n, c.placeAfter? n = c.placeAfter? k) ∧
      (c.hasCycle = false ↔
        ∀ place, c.placeAfter? n = some place → c.segments.length ≤ place) := by
  constructor
  · intro more
    have hmany : c.places.length < c.segments.length + 1 + more := by
      rw [places, List.length_range]
      omega
    exact ⟨c.unmarked_traversal.iterate_eq c.root? hmany,
      c.unmarked_traversal.searchCycle_eq c.root? hmany⟩
  · refine ⟨c.way.length, c.length_way_le, fun k => comesToNew_of_lt, c.not_comesToNew_length_way,
      c.map_some_inOrder, ?_, ?_⟩
    · rw [hasCycle_eq_any, Option.any_eq_true]
      constructor
      · rintro ⟨place, hplace, hlt⟩
        obtain ⟨k, hk, hagain⟩ :=
          mem_way_iff.1 (mem_way_of_placeAfter? hplace (of_decide_eq_true hlt))
        exact ⟨k, hk, hplace.trans hagain.symm⟩
      · rintro ⟨k, hk, hagain⟩
        obtain ⟨place, hlt, hplace, -⟩ := comesToNew_of_lt hk
        exact ⟨place, hagain.trans hplace, decide_eq_true hlt⟩
    · rw [hasCycle_eq_any, Option.any_eq_false]
      simp

end Chain

end Recurrence
