import Recurrence.Proofs.SeriesIsolation

set_option autoImplicit false
set_option relaxedAutoImplicit false

/-!
Deleting a chain, whatever the links of the store. All objects on the way along the links are gone,
with their exceptions and links, and nothing else is; so the object has no chain any more, a second
deletion finds nothing to delete, and a series without any of these objects is what it was.
-/

namespace Recurrence

private theorem Chain.walk_empty (cap : Nat) (start stop : Instant) (max : Nat) :
    Chain.empty.walk cap start stop max = .ok [] := by
  have hway : Chain.empty.inOrder = [] := by
    unfold Chain.inOrder trail
    rfl
  by_cases hmax : max = 0
  · rw [hmax, Chain.walk_zero]
  · unfold Chain.walk
    rw [if_neg hmax, hway, List.mapM_nil]
    change Except.ok ((Occurrence.sort []).take max) = .ok []
    rw [Occurrence.sort, List.mergeSort_nil, List.take_nil]

namespace Store

variable {s s' : Store} {id root : ObjectId} {ids : List ObjectId}

private theorem chain_of_missing (h : s.entity? root = none) : s.chain root = .empty := by
  unfold chain
  rw [h]

private theorem chainIds_of_missing (h : s.entity? root = none) : s.chainIds root = [] := by
  rw [← map_id_chain, chain_of_missing h]
  rfl

private theorem occurrences_of_missing (h : s.entity? root = none) (limits : Limits)
    (start stop : Instant) (max : Option Nat) :
    s.occurrences limits root start stop max = .ok [] := by
  by_cases hlt : stop < start
  · exact occurrences_of_inverted hlt root max
  · rw [occurrences_eq_walk hlt, chain_of_missing h, Chain.walk_empty]

private theorem deleteChain_of_missing (h : s.entity? root = none) :
    s.deleteChain root = (s, 0) := by
  unfold deleteChain
  rw [chainIds_of_missing h]
  rfl

structure Without (s : Store) (ids : List ObjectId) (s' : Store) : Prop where
  entity : ∀ key, s'.entity? key = if key ∈ ids then none else s.entity? key
  exceptions : ∀ key,
    s'.exceptions.find? key = if key ∈ ids then none else s.exceptions.find? key
  link : ∀ key, s'.link? key = if key ∈ ids then none else s.link? key

private theorem without_deleteChain (s : Store) (root : ObjectId) :
    s.Without (s.chainIds root) (s.deleteChain root).1 where
  entity key := (find?_eraseAll _ s key).1
  exceptions key := (find?_eraseAll _ s key).2.1
  link key := (find?_eraseAll _ s key).2.2

private theorem entity?_deleteChain_self (s : Store) (root : ObjectId) :
    (s.deleteChain root).1.entity? root = none := by
  rw [(s.without_deleteChain root).entity]
  split
  · rfl
  · rename_i hout
    by_contra hexists
    exact hout (mem_chainIds_self hexists)

private theorem sameSeries_of_missing (h : s.entity? root = none) (h' : s'.entity? root = none) :
    s.SameSeries s' root :=
  .of_chain_eq (by rw [chain_of_missing h, chain_of_missing h'])

/-- Whatever links a store holds, cyclic and dangling ones included, deleting a chain counts its
objects, and takes these, their exceptions and their links out of the store and nothing else. Then
the chain is empty, so a query of it reports nothing and deleting it again changes nothing. Every
series without a deleted object keeps its objects and all that queries report of it. -/
theorem deleteChain_exact (s : Store) (id : ObjectId) :
    (s.deleteChain id).2 = (s.chainIds id).length ∧
    s.Without (s.chainIds id) (s.deleteChain id).1 ∧
    (s.deleteChain id).1.chainIds id = [] ∧
    (∀ (limits : Limits) (start stop : Instant) (max : Option Nat),
      (s.deleteChain id).1.occurrences limits id start stop max = .ok []) ∧
    (s.deleteChain id).1.deleteChain id = ((s.deleteChain id).1, 0) ∧
    ∀ root, (∀ other ∈ s.chainIds id, other ∉ s.chainIds root) →
      s.SameSeries (s.deleteChain id).1 root := by
  have hgone := s.entity?_deleteChain_self id
  refine ⟨rfl, s.without_deleteChain id, chainIds_of_missing hgone, occurrences_of_missing hgone,
    deleteChain_of_missing hgone, fun root hdisjoint => ?_⟩
  by_cases hroot : s.entity? root = none
  · apply sameSeries_of_missing hroot
    rw [(s.without_deleteChain id).entity, hroot, ite_self]
  · exact sameSeries_deleteChain hroot hdisjoint

def circleAndOther : Store :=
  run (circle ++ [.insert { fiveDays with id := ⟨"other"⟩ },
    .insertLink ⟨⟨"other"⟩, some ⟨"gone"⟩, .nine 2026 1 4⟩])

/-- Both objects of the circle are deleted, and the third one keeps its three days. -/
theorem deleteChain_circle :
    let s := circleAndOther
    let s' := (s.deleteChain ⟨"second"⟩).1
    s.chainIds ⟨"second"⟩ = [⟨"second"⟩, ⟨"daily"⟩] ∧
      (∀ other ∈ s.chainIds ⟨"second"⟩, other ∉ s.chainIds ⟨"other"⟩) ∧
      (s.deleteChain ⟨"second"⟩).2 = 2 ∧ s'.entities.keys = [⟨"other"⟩] ∧
      s'.chainIds ⟨"daily"⟩ = [] ∧ s.SameSeries s' ⟨"other"⟩ ∧
      (s'.occurrences {} ⟨"other"⟩ (.nine 2026 1 1) (.nine 2026 1 9) none).map (·.length) =
        .ok 3 := by
  intro s s'
  have hids : s.chainIds ⟨"second"⟩ = [⟨"second"⟩, ⟨"daily"⟩] := by decide +kernel
  have hother : s.chainIds ⟨"other"⟩ = [⟨"other"⟩] := by decide +kernel
  have hdisjoint : ∀ other ∈ s.chainIds ⟨"second"⟩, other ∉ s.chainIds ⟨"other"⟩ := by
    rw [hids, hother]
    decide
  obtain ⟨hcount, -, -, -, -, hsame⟩ := s.deleteChain_exact ⟨"second"⟩
  rw [hids] at hcount
  refine ⟨hids, hdisjoint, hcount, by decide +kernel, by decide +kernel, hsame _ hdisjoint, ?_⟩
  rw [(hsame _ hdisjoint).occurrences]
  simp only [occurrences, Chain.walk, Segment.resolve, Occurrence.sort_eq_insertionSort]
  decide +kernel

end Store

end Recurrence
