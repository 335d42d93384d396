import Recurrence.Proofs.SegmentResolution
import Recurrence.Proofs.StoreRuns
import Recurrence.Trail.Lemmas

set_option autoImplicit false
set_option relaxedAutoImplicit false

/-!
The chain that a store loads for an object, whatever its links: its segments belong to different
objects, each points to the one behind it, and so the way from the root visits them all in order.
-/

namespace Recurrence

private theorem trail_eq_range' (next : Nat → Option Nat) (k n : Nat)
    (hnext : ∀ i < n, next (k + i) = if i + 1 < n then some (k + i + 1) else none) :
    trail next (List.range' k n) (if 0 < n then some k else none) = List.range' k n := by
  induction n generalizing k with
  | zero => simp [trail]
  | succ n ih =>
    rw [if_pos (Nat.zero_lt_succ n), List.range'_succ]
    unfold trail
    rw [if_pos List.mem_cons_self, List.erase_cons_head]
    have hhead := hnext 0 (Nat.zero_lt_succ n)
    have hrest := ih (k + 1) fun i hi => by
      have hi' := hnext (i + 1) (by omega)
      rw [show k + (i + 1) = k + 1 + i by omega] at hi'
      rw [hi']
      exact if_congr (by omega) rfl rfl
    rw [Nat.add_zero] at hhead
    rw [hhead]
    congr 1
    rw [← hrest]
    congr 1
    exact if_congr (by omega) rfl rfl

private theorem filterMap_getElem?_range {α : Type} (xs : List α) :
    ((List.range xs.length).filterMap fun i => xs[i]?) = xs := by
  induction xs with
  | nil => rfl
  | cons x xs ih =>
    rw [List.length_cons, List.range_succ_eq_map, List.filterMap_cons, List.filterMap_map]
    simp only [List.getElem?_cons_zero]
    exact congrArg (x :: ·) ih

namespace Chain

variable {c : Chain}

def Linked (c : Chain) : Prop :=
  ∀ i g, c.segments[i]? = some g → g.next = if i + 1 < c.segments.length then some (i + 1) else none

theorem next?_of_linked (hc : c.Linked) {i : Nat} (hi : i < c.segments.length) :
    c.next? i = if i + 1 < c.segments.length then some (i + 1) else none := by
  have hget := List.getElem?_eq_getElem hi
  unfold next?
  rw [hget]
  exact hc i _ hget

theorem root?_eq (c : Chain) : c.root? = if 0 < c.segments.length then some 0 else none := by
  unfold root? isEmpty
  cases c.segments <;> rfl

theorem trail_of_linked (hc : c.Linked) : trail c.next? c.places c.root? = c.places := by
  have hnext : ∀ i < c.segments.length, c.next? (0 + i) =
      if i + 1 < c.segments.length then some (0 + i + 1) else none := by
    intro i hi
    rw [Nat.zero_add, next?_of_linked hc hi]
  unfold places
  rw [root?_eq, List.range_eq_range', trail_eq_range' _ _ _ hnext]

theorem inOrder_of_linked (hc : c.Linked) : c.inOrder = c.segments := by
  unfold inOrder
  rw [trail_of_linked hc]
  exact filterMap_getElem?_range c.segments

end Chain

namespace Store

variable {s : Store}

/-- The times of a store from which a query computes others are ordinary. -/
structure Ordinary (s : Store) : Prop where
  entity : ∀ id e, s.entity? id = some e → e.start.Ordinary ∧ e.stop.Ordinary
  exception : ∀ id, ∀ e ∈ (s.exceptionsOf id).values, e.date.Ordinary
  link : ∀ id link, s.link? id = some link → link.splitDate.Ordinary

theorem Ordinary.of_entries
    (hentities : ∀ x ∈ s.entities.entries, x.2.start.Ordinary ∧ x.2.stop.Ordinary)
    (hexceptions : ∀ x ∈ s.exceptions.entries, ∀ y ∈ x.2.entries, y.2.date.Ordinary)
    (hlinks : ∀ x ∈ s.links.entries, x.2.splitDate.Ordinary) : s.Ordinary where
  entity id e he := hentities (id, e) (Table.mem_entries_iff.2 he)
  exception id e he := by
    unfold exceptionsOf at he
    obtain ⟨second, hfind⟩ := Table.mem_values_iff.1 he
    cases htable : s.exceptions.find? id with
    | none =>
      rw [htable] at hfind
      cases hfind
    | some table =>
      rw [htable] at hfind
      exact hexceptions (id, table) (Table.mem_entries_iff.2 htable) (second, e)
        (Table.mem_entries_iff.2 hfind)
  link id link hlink := hlinks (id, link) (Table.mem_entries_iff.2 hlink)

private theorem segment_resolvable (hs : s.Ordinary) (hkeyed : s.Keyed) {id : ObjectId} {e : Entity}
    (he : s.entity? id = some e) {startBoundary start stop : Instant}
    (hboundary : startBoundary.Ordinary) (hstart : start.Ordinary) (hstop : stop.Ordinary)
    (cap : Nat) (next : Option Nat) :
    (s.segment id e startBoundary next).Resolvable cap start stop := by
  obtain ⟨hanchor, hends⟩ := hs.entity id e he
  refine .of_fourDigit hstart.fourDigit hstop.fourDigit hanchor.fourDigit hboundary.fourDigit
    ?_ (hkeyed.exceptionsOf id) (fun x hx => (hs.exception id x hx).fourDigit) ?_
    hends.fourDigit hanchor.fourDigit rfl
  · intro t ht
    obtain ⟨link, hlink, rfl⟩ := Option.map_eq_some_iff.1 ht
    exact (hs.link id link hlink).fourDigit
  · intro hleap
    exact absurd hleap (Bool.eq_false_iff.1 hanchor.not_leap)

theorem mem_keys_iff_entity? {id : ObjectId} : id ∈ s.entities.keys ↔ s.entity? id ≠ none := by
  rw [Table.mem_keys_iff, Option.ne_none_iff_exists']
  rfl

theorem exists_link_of_next {id c : ObjectId} {splitDate : Instant}
    (h : ((s.link? id).bind fun link => link.continuation.map fun c => (c, link.splitDate)) =
      some (c, splitDate)) :
    ∃ link, s.link? id = some link ∧ link.continuation = some c ∧ link.splitDate = splitDate := by
  obtain ⟨link, hlink, hpair⟩ := Option.bind_eq_some_iff.1 h
  obtain ⟨c', hcontinuation, heq⟩ := Option.map_eq_some_iff.1 hpair
  obtain ⟨rfl, hdate⟩ := Prod.mk.inj heq
  exact ⟨link, hlink, hcontinuation, hdate⟩

section Loading

variable (s) (unloaded : List ObjectId) (id : ObjectId) (e : Entity) (startBoundary : Instant)
  (place : Nat)

private theorem exists_ids_segmentsFrom (hunloaded : unloaded.Nodup) :
    ∃ rest : List ObjectId,
      (s.segmentsFrom unloaded id e startBoundary place).map Segment.id = id :: rest ∧
      rest.Nodup ∧ ∀ other ∈ rest, other ∈ unloaded := by
  fun_induction Store.segmentsFrom s unloaded id e startBoundary place with
  | case2 unloaded id e startBoundary place continuation splitDate hlink hmem following hfollowing
      ih =>
    obtain ⟨rest, hids, hnodup, hrest⟩ := ih (hunloaded.erase continuation)
    refine ⟨continuation :: rest, by rw [List.map_cons, hids]; rfl, ?_, ?_⟩
    · refine List.nodup_cons.2 ⟨fun hagain => ?_, hnodup⟩
      exact (hunloaded.mem_erase_iff.1 (hrest continuation hagain)).1 rfl
    · intro other hother
      rcases List.mem_cons.1 hother with rfl | hother
      · exact hmem
      · exact List.mem_of_mem_erase (hrest other hother)
  | _ => exact ⟨[], rfl, List.nodup_nil, by simp⟩

private theorem length_segmentsFrom_pos :
    0 < (s.segmentsFrom unloaded id e startBoundary place).length := by
  fun_induction Store.segmentsFrom s unloaded id e startBoundary place with
  | _ => exact Nat.zero_lt_succ _

private theorem next_segmentsFrom (i : Nat) (g : Segment)
    (hg : (s.segmentsFrom unloaded id e startBoundary place)[i]? = some g) :
    g.next = if i + 1 < (s.segmentsFrom unloaded id e startBoundary place).length
      then some (place + i + 1) else none := by
  fun_induction Store.segmentsFrom s unloaded id e startBoundary place generalizing i with
  | case2 unloaded id e startBoundary place continuation splitDate hlink hmem following hfollowing
      ih =>
    cases i with
    | zero =>
      obtain rfl := Option.some.inj hg
      have hpos := s.length_segmentsFrom_pos (unloaded.erase continuation) continuation following
        splitDate (place + 1)
      rw [List.length_cons, if_pos (by omega)]
      rfl
    | succ i =>
      rw [ih i hg, List.length_cons, show place + 1 + i + 1 = place + (i + 1) + 1 by omega]
      exact if_congr (by omega) rfl rfl
  | _ =>
    cases i with
    | zero =>
      obtain rfl := Option.some.inj hg
      rfl
    | succ i => simp at hg

private theorem segmentsFrom_resolvable {start stop : Instant} (hs : s.Ordinary) (hkeyed : s.Keyed)
    (he : s.entity? id = some e) (hboundary : startBoundary.Ordinary) (hstart : start.Ordinary)
    (hstop : stop.Ordinary) (cap : Nat) :
    ∀ g ∈ s.segmentsFrom unloaded id e startBoundary place, g.Resolvable cap start stop := by
  fun_induction Store.segmentsFrom s unloaded id e startBoundary place with
  | case2 unloaded id e startBoundary place continuation splitDate hlink hmem following hfollowing
      ih =>
    intro g hg
    rcases List.mem_cons.1 hg with rfl | hg
    · exact segment_resolvable hs hkeyed he hboundary hstart hstop cap _
    · obtain ⟨link, hfind, -, rfl⟩ := exists_link_of_next hlink
      exact ih hfollowing (hs.link id link hfind) g hg
  | _ =>
    intro g hg
    obtain rfl := List.mem_singleton.1 hg
    exact segment_resolvable hs hkeyed he hboundary hstart hstop cap _

end Loading

variable (s) (root : ObjectId)

theorem chain_of_link?_eq_none {s : Store} {root : ObjectId} {e : Entity}
    (he : s.entity? root = some e) (hlink : s.link? root = none) :
    (s.chain root).segments = [s.segment root e e.start none] := by
  unfold chain segmentsFrom
  rw [he]
  simp only [hlink, Option.bind_none]

theorem chainIds_of_link?_eq_none {s : Store} {root : ObjectId} {e : Entity}
    (he : s.entity? root = some e) (hlink : s.link? root = none) : s.chainIds root = [root] := by
  have hkey : root ∈ s.entities.keys := Table.mem_keys_iff.2 ⟨e, he⟩
  have hend : s.continuation? root = none := by
    unfold continuation?
    rw [hlink, Option.bind_none]
  unfold chainIds trail
  rw [if_pos hkey, hend]
  unfold trail
  rfl

theorem chain_ids_nodup : ((s.chain root).segments.map Segment.id).Nodup := by
  unfold chain
  cases s.entity? root with
  | none => exact List.nodup_nil
  | some e =>
    obtain ⟨rest, hids, hnodup, hrest⟩ := s.exists_ids_segmentsFrom (s.entities.keys.erase root)
      root e e.start 0 (s.entities.keys_nodup.erase root)
    simp only [hids]
    refine List.nodup_cons.2 ⟨fun hagain => ?_, hnodup⟩
    exact (s.entities.keys_nodup.mem_erase_iff.1 (hrest root hagain)).1 rfl

theorem chain_linked : (s.chain root).Linked := by
  unfold chain
  cases s.entity? root with
  | none =>
    intro i g hg
    simp [Chain.empty] at hg
  | some e =>
    intro i g hg
    have hnext := s.next_segmentsFrom _ root e e.start 0 i g hg
    rw [Nat.zero_add] at hnext
    exact hnext

theorem chain_resolvable {s : Store} {start stop : Instant} (hs : s.Ordinary) (hkeyed : s.Keyed)
    (root : ObjectId) (hstart : start.Ordinary) (hstop : stop.Ordinary) (cap : Nat) :
    ∀ g ∈ (s.chain root).segments, g.Resolvable cap start stop := by
  unfold chain
  cases he : s.entity? root with
  | none => simp [Chain.empty]
  | some e =>
    exact s.segmentsFrom_resolvable _ root e e.start 0 hs hkeyed he (hs.entity root e he).1 hstart
      hstop cap

end Store

end Recurrence
