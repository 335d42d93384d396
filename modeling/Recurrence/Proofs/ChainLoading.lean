import Recurrence.Proofs.QuerySoundness

set_option autoImplicit false
set_option relaxedAutoImplicit false

/-!
Loading a chain, whatever the links of the store. The loop goes from object to object and stops at
the first whose link leads nowhere, to a missing object or back to one that is loaded already, so it
ends after as many rounds as there are objects at the latest. What it loads is the way along the
links from the root, each object once, the boundaries of neighbours being the same split date.
-/

namespace Recurrence

namespace Chain

variable {c : Chain}

private theorem wayAfter_of_linked (hc : c.Linked) {k : Nat} (hk : k ≤ c.segments.length) :
    wayAfter c.next? c.root? k = if k < c.segments.length then some k else none := by
  induction k with
  | zero => exact c.root?_eq
  | succ k ih =>
    have hplace : k < c.segments.length := hk
    rw [wayAfter, ih hplace.le, if_pos hplace, Option.bind_some, next?_of_linked hc hplace]

private theorem hasCycle_of_linked (hc : c.Linked) : c.hasCycle = false := by
  unfold hasCycle
  rw [leadsBack_eq_any, trail_of_linked hc, places, List.length_range,
    wayAfter_of_linked hc le_rfl, if_neg (Nat.lt_irrefl _)]
  rfl

end Chain

/-- Where the loading of a chain stands: the segments so far and the ids of their objects, the
object to be loaded now, and where its segment begins. -/
structure Loading where
  segments : List Segment
  loaded : List ObjectId
  id : ObjectId
  object : Entity
  startBoundary : Instant

namespace Store

variable {s : Store} {root : ObjectId}

/-- The object that comes after one, and the date at which it takes over: that of the link, unless
it is missing or loaded already. -/
def following? (s : Store) (loaded : List ObjectId) (id : ObjectId) :
    Option (ObjectId × Entity × Instant) :=
  (s.link? id).bind fun link => link.continuation.bind fun c =>
    if c ∈ loaded then none else (s.entity? c).map fun e => (c, e, link.splitDate)

/-- The loop that loads a chain, for a number of rounds: none if it does not end within them. -/
def load (s : Store) : Nat → Loading → Option (List Segment)
  | 0, _ => none
  | rounds + 1, l =>
    let loaded := l.id :: l.loaded
    match s.following? loaded l.id with
    | none => some (l.segments ++ [s.segment l.id l.object l.startBoundary none])
    | some (c, e, splitDate) =>
      let segment := s.segment l.id l.object l.startBoundary (some (l.segments.length + 1))
      s.load rounds ⟨l.segments ++ [segment], loaded, c, e, splitDate⟩

def loadingOf (root : ObjectId) (e : Entity) : Loading := ⟨[], [], root, e, e.start⟩

private theorem following?_eq (s : Store) (loaded : List ObjectId) (id : ObjectId) :
    s.following? loaded id =
      ((s.link? id).bind fun link => link.continuation.map fun c => (c, link.splitDate)).bind
        fun next => if next.1 ∈ loaded then none
          else (s.entity? next.1).map fun e => (next.1, e, next.2) := by
  unfold following?
  cases s.link? id with
  | none => rfl
  | some link =>
    simp only [Option.bind_some]
    cases link.continuation <;> rfl

/-- From any state on, as long as more rounds are left than objects, the loop ends and has added the
segments along the links. -/
private theorem load_eq_segmentsFrom {rounds : Nat} {segments : List Segment}
    {unloaded loaded : List ObjectId} {id : ObjectId} {e : Entity} {startBoundary : Instant}
    (hnodup : unloaded.Nodup)
    (hunloaded : ∀ other, other ∈ unloaded ↔ s.entity? other ≠ none ∧ other ∉ id :: loaded)
    (hrounds : unloaded.length < rounds) :
    s.load rounds ⟨segments, loaded, id, e, startBoundary⟩ =
      some (segments ++ s.segmentsFrom unloaded id e startBoundary segments.length) := by
  induction rounds generalizing segments unloaded loaded id e startBoundary with
  | zero => omega
  | succ rounds ih =>
    unfold load segmentsFrom
    simp only [following?_eq]
    cases hnext : (s.link? id).bind fun link =>
        link.continuation.map fun c => (c, link.splitDate) with
    | none => rfl
    | some next =>
      obtain ⟨c, splitDate⟩ := next
      by_cases hmem : c ∈ unloaded
      · obtain ⟨hexists, hfresh⟩ := (hunloaded c).1 hmem
        obtain ⟨following, hfollowing⟩ := Option.ne_none_iff_exists'.1 hexists
        have hshorter := List.length_erase_of_mem hmem
        have hpositive := List.length_pos_of_mem hmem
        have hleft : ∀ other, other ∈ unloaded.erase c ↔
            s.entity? other ≠ none ∧ other ∉ c :: id :: loaded := by
          intro other
          rw [hnodup.mem_erase_iff, hunloaded, List.mem_cons (a := other) (b := c), not_or]
          exact and_left_comm
        simp only [Option.bind_some, if_neg hfresh, hfollowing, Option.map_some, if_pos hmem]
        rw [ih (hnodup.erase c) hleft (by omega), List.append_assoc, List.length_append]
        rfl
      · have hstop : (if c ∈ id :: loaded then none
            else (s.entity? c).map fun e => (c, e, splitDate)) = none := by
          split
          · rfl
          · rename_i hfresh
            rw [Option.map_eq_none_iff]
            by_contra hexists
            exact hmem ((hunloaded c).2 ⟨hexists, hfresh⟩)
        simp only [Option.bind_some, hstop, if_neg hmem]

private theorem load_loadingOf {e : Entity} (he : s.entity? root = some e) {rounds : Nat}
    (hrounds : s.entities.keys.length ≤ rounds) :
    s.load rounds (loadingOf root e) = some (s.chain root).segments := by
  have hkey : root ∈ s.entities.keys := Table.mem_keys_iff.2 ⟨e, he⟩
  have hshorter := List.length_erase_of_mem hkey
  have hpositive := List.length_pos_of_mem hkey
  have hnodup : s.entities.keys.Nodup := s.entities.keys_nodup
  have hunloaded : ∀ other, other ∈ s.entities.keys.erase root ↔
      s.entity? other ≠ none ∧ other ∉ [root] := by
    intro other
    rw [hnodup.mem_erase_iff, mem_keys_iff_entity?, List.mem_singleton]
    exact and_comm
  unfold loadingOf chain
  rw [load_eq_segmentsFrom (hnodup.erase root) hunloaded (by omega), he]
  rfl

/-- What the loading of a chain has to come to: the objects on the way along the links from the
root, each once and each leading to the next, with boundaries that leave no gap. -/
structure Loads (s : Store) (root : ObjectId) (c : Chain) : Prop where
  way : s.Way [] root (c.segments.map Segment.id)
  ids : c.segments.map Segment.id = s.chainIds root
  nodup : (c.segments.map Segment.id).Nodup
  linked : c.Linked
  not_cyclic : c.hasCycle = false
  inOrder : c.inOrder = c.segments
  first : ∀ e, s.entities.find? root = some e →
    ∃ g, c.segments.head? = some g ∧ g.id = root ∧ g.startBoundary = e.start
  adjoin : ∀ i g g', c.segments[i]? = some g → c.segments[i + 1]? = some g' →
    g.endBoundary = some g'.startBoundary
  unsplit : ∀ g ∈ c.segments, s.links.find? g.id = none → g.endBoundary = none
  split : ∀ g ∈ c.segments, ∀ link, s.links.find? g.id = some link →
    g.endBoundary = some link.splitDate

private theorem loads_chain (s : Store) (root : ObjectId) : s.Loads root (s.chain root) where
  way := way_iff.2 (s.map_id_chain root)
  ids := s.map_id_chain root
  nodup := s.chain_ids_nodup root
  linked := s.chain_linked root
  not_cyclic := Chain.hasCycle_of_linked (s.chain_linked root)
  inOrder := Chain.inOrder_of_linked (s.chain_linked root)
  first e he := by
    obtain ⟨next, hhead⟩ := head?_chain he
    exact ⟨_, hhead, rfl, rfl⟩
  adjoin i g g' hg hg' := adjoin_chain hg hg'
  unsplit g hg hlink := by
    rw [endBoundary_of_mem_chain hg, hlink, Option.map_none]
  split g hg link hlink := by
    rw [endBoundary_of_mem_chain hg, hlink, Option.map_some]

/-- Whatever links a store holds, cyclic, self-pointing and dangling ones included, loading the
chain of an object ends within as many rounds as there are objects, and loads it as it should be.
Nothing is loaded for an object that does not exist. -/
theorem load_wellFormed (s : Store) (root : ObjectId) :
    (∀ e, s.entities.find? root = some e → ∀ rounds, s.entities.keys.length ≤ rounds →
      s.load rounds (loadingOf root e) = some (s.chain root).segments) ∧
      (s.entities.find? root = none → (s.chain root).segments = []) ∧
      s.Loads root (s.chain root) := by
  refine ⟨fun e he rounds hrounds => load_loadingOf he hrounds, fun hnone => ?_, s.loads_chain root⟩
  have hroot : s.entity? root = none := hnone
  unfold chain
  rw [hroot]
  rfl

def goesOn (id : String) (continuation : String) (dayOfMonth : Nat) : Edit :=
  .insertLink ⟨⟨id⟩, some ⟨continuation⟩, .nine 2026 1 dayOfMonth⟩

/-- Three objects that go on as one another, the third as the second again; and one that goes on as
an object that is missing. -/
def entangled : List Edit :=
  [.insert fiveDays, .insert (successor "second" 3), .insert (successor "third" 6),
    .insert (successor "lonely" 8), goesOn "daily" "second" 3, goesOn "second" "third" 6,
    goesOn "third" "second" 9, goesOn "lonely" "missing" 12]

def outline (g : Segment) : ObjectId × Instant × Option Instant × Option Nat :=
  (g.id, g.startBoundary, g.endBoundary, g.next)

/-- The three objects are loaded once each, in as many rounds, and the third keeps the date at which
it would go on; so does the one whose continuation is missing. -/
theorem load_entangled :
    let s := run entangled
    (∃ segments, s.load 4 (loadingOf ⟨"daily"⟩ fiveDays) = some segments ∧
      segments = (s.chain ⟨"daily"⟩).segments ∧
      segments.map outline =
        [(⟨"daily"⟩, .nine 2026 1 1, some (.nine 2026 1 3), some 1),
          (⟨"second"⟩, .nine 2026 1 3, some (.nine 2026 1 6), some 2),
          (⟨"third"⟩, .nine 2026 1 6, some (.nine 2026 1 9), none)] ∧
      s.Way [] ⟨"daily"⟩ [⟨"daily"⟩, ⟨"second"⟩, ⟨"third"⟩] ∧
      (s.chain ⟨"daily"⟩).hasCycle = false ∧
      (s.chain ⟨"daily"⟩).inOrder = segments) ∧
    (∃ segments, s.load 4 (loadingOf ⟨"lonely"⟩ (successor "lonely" 8)) = some segments ∧
      segments.map outline = [(⟨"lonely"⟩, .nine 2026 1 8, some (.nine 2026 1 12), none)] ∧
      s.Way [] ⟨"lonely"⟩ [⟨"lonely"⟩]) ∧
    (s.chain ⟨"missing"⟩).segments = [] := by
  intro s
  have hkeys : s.entities.keys.length ≤ 4 := by decide
  obtain ⟨hload, -, hloads⟩ := load_wellFormed s ⟨"daily"⟩
  obtain ⟨hload', -, hloads'⟩ := load_wellFormed s ⟨"lonely"⟩
  have houtline : (s.chain ⟨"daily"⟩).segments.map outline =
      [(⟨"daily"⟩, .nine 2026 1 1, some (.nine 2026 1 3), some 1),
        (⟨"second"⟩, .nine 2026 1 3, some (.nine 2026 1 6), some 2),
        (⟨"third"⟩, .nine 2026 1 6, some (.nine 2026 1 9), none)] := by decide +kernel
  have houtline' : (s.chain ⟨"lonely"⟩).segments.map outline =
      [(⟨"lonely"⟩, .nine 2026 1 8, some (.nine 2026 1 12), none)] := by decide +kernel
  have hids : (s.chain ⟨"daily"⟩).segments.map Segment.id =
      [⟨"daily"⟩, ⟨"second"⟩, ⟨"third"⟩] := by decide +kernel
  have hids' : (s.chain ⟨"lonely"⟩).segments.map Segment.id = [⟨"lonely"⟩] := by decide +kernel
  exact ⟨⟨_, hload fiveDays rfl 4 hkeys, rfl, houtline, hids ▸ hloads.way, hloads.not_cyclic,
      hloads.inOrder⟩,
    ⟨_, hload' _ rfl 4 hkeys, houtline', hids' ▸ hloads'.way⟩,
    (load_wellFormed s ⟨"missing"⟩).2.1 rfl⟩

end Store

end Recurrence
