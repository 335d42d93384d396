import Recurrence.Proofs.QuerySoundness

set_option autoImplicit false
set_option relaxedAutoImplicit false

/-!
What a chain depends on: its objects, their exceptions and links, and whether the objects exist that
the links lead to. Series without common objects are therefore edited apart, with one exception. A
link may lead to an object that was deleted, and an edit of another series may make a new object of
that id, which then goes on with both.
-/

namespace Recurrence

open Occurrence

namespace Store

variable {s s' : Store} {root id : ObjectId}

private theorem entity?_of_mem_chainIds (hid : id ∈ s.chainIds root) : s.entity? id ≠ none :=
  mem_keys_iff_entity?.1 (mem_of_mem_trail hid)

private theorem mem_chainIds_of_continuation? {c : ObjectId} (hid : id ∈ s.chainIds root)
    (hc : s.continuation? id = some c) : c ∈ s.chainIds root ∨ s.entity? c = none := by
  by_cases hnone : s.entity? c = none
  · exact Or.inr hnone
  · exact Or.inl (mem_trail_of_next hid hc (mem_keys_iff_entity?.2 hnone))

theorem mem_chainIds_self (hroot : s.entity? root ≠ none) : root ∈ s.chainIds root := by
  unfold chainIds trail
  rw [if_pos (mem_keys_iff_entity?.2 hroot)]
  exact List.mem_cons_self

/-- Two stores hold the same of some objects, but for a change of their segments. The objects are
closed under links, as far as these lead to objects that exist. -/
structure Agrees (s s' : Store) (objects : ObjectId → Prop) (change : Segment → Segment) : Prop where
  entity : ∀ id, objects id → s'.entity? id = s.entity? id
  link : ∀ id, objects id → s'.link? id = s.link? id
  segment : ∀ id, objects id → ∀ e startBoundary next,
    s'.segment id e startBoundary next = change (s.segment id e startBoundary next)
  continuation : ∀ id c, objects id → s.continuation? id = some c →
    objects c ∨ (s.entity? c = none ∧ s'.entity? c = none)

namespace Agrees

variable {objects : ObjectId → Prop} {change : Segment → Segment}

private theorem segmentsFrom_eq (h : s.Agrees s' objects change)
    {unloaded unloaded' : List ObjectId} (hnodup : unloaded.Nodup) (hnodup' : unloaded'.Nodup)
    (hmem : ∀ c, objects c → (c ∈ unloaded' ↔ c ∈ unloaded)) (hid : objects id) (e : Entity)
    (startBoundary : Instant) (place : Nat) :
    s'.segmentsFrom unloaded' id e startBoundary place =
      (s.segmentsFrom unloaded id e startBoundary place).map change := by
  fun_induction Store.segmentsFrom s unloaded id e startBoundary place generalizing unloaded' with
  | case1 unloaded id e startBoundary place hnext =>
    rw [segmentsFrom]
    simp only [h.link id hid, hnext, h.segment id hid, List.map_singleton]
  | case2 unloaded id e startBoundary place continuation splitDate hnext hloaded following
      hfollowing ih =>
    rcases h.continuation id continuation hid (continuation?_of_next hnext) with
      hobject | ⟨hnone, -⟩
    · rw [segmentsFrom]
      simp only [h.link id hid, hnext, if_pos ((hmem continuation hobject).2 hloaded),
        h.entity continuation hobject, hfollowing, h.segment id hid, List.map_cons]
      rw [ih (hnodup.erase continuation) (hnodup'.erase continuation) ?_ hobject]
      intro c hc
      rw [hnodup.mem_erase_iff, hnodup'.mem_erase_iff, hmem c hc]
    · cases hnone.symm.trans hfollowing
  | case3 unloaded id e startBoundary place continuation splitDate hnext hloaded hnone =>
    have hnone' : s'.entity? continuation = none := by
      rcases h.continuation id continuation hid (continuation?_of_next hnext) with
        hobject | ⟨-, hnone'⟩
      · rw [h.entity continuation hobject, hnone]
      · exact hnone'
    rw [segmentsFrom]
    simp only [h.link id hid, hnext, hnone', h.segment id hid, List.map_singleton, ite_self]
  | case4 unloaded id e startBoundary place continuation splitDate hnext hloaded =>
    rw [segmentsFrom]
    rcases h.continuation id continuation hid (continuation?_of_next hnext) with
      hobject | ⟨-, hnone⟩
    · have hloaded' : continuation ∉ unloaded' := fun hin => hloaded ((hmem _ hobject).1 hin)
      simp only [h.link id hid, hnext, if_neg hloaded', h.segment id hid, List.map_singleton]
    · simp only [h.link id hid, hnext, hnone, h.segment id hid, List.map_singleton, ite_self]

theorem segments_chain_eq (h : s.Agrees s' objects change) (hroot : objects root) :
    (s'.chain root).segments = (s.chain root).segments.map change := by
  unfold chain
  rw [h.entity root hroot]
  cases s.entity? root with
  | none => rfl
  | some e =>
    have hnodup : s.entities.keys.Nodup := s.entities.keys_nodup
    have hnodup' : s'.entities.keys.Nodup := s'.entities.keys_nodup
    refine h.segmentsFrom_eq (hnodup.erase root) (hnodup'.erase root) (fun c hc => ?_) hroot e
      e.start 0
    rw [hnodup.mem_erase_iff, hnodup'.mem_erase_iff, mem_keys_iff_entity?, mem_keys_iff_entity?,
      h.entity c hc]

end Agrees

/-- Two stores hold the same series of an object: the same objects, which take place at the same
times whatever is asked for. -/
structure SameSeries (s s' : Store) (root : ObjectId) : Prop where
  chainIds : s'.chainIds root = s.chainIds root
  occurrences : ∀ (limits : Limits) (start stop : Instant) (max : Option Nat),
    s'.occurrences limits root start stop max = s.occurrences limits root start stop max

theorem SameSeries.refl (s : Store) (root : ObjectId) : s.SameSeries s root :=
  ⟨rfl, fun _ _ _ _ => rfl⟩

theorem SameSeries.of_chain_eq (h : s'.chain root = s.chain root) : s.SameSeries s' root where
  chainIds := by rw [← map_id_chain, ← map_id_chain, h]
  occurrences limits start stop max := by
    unfold Store.occurrences
    rw [h]

private theorem Agrees.sameSeries {objects : ObjectId → Prop} (h : s.Agrees s' objects fun g => g)
    (hroot : objects root) : s.SameSeries s' root := by
  apply SameSeries.of_chain_eq
  have hsegments := h.segments_chain_eq hroot
  rw [List.map_id'] at hsegments
  exact congrArg Chain.mk hsegments

private theorem segment_eq {e : Entity} {startBoundary : Instant} {next : Option Nat}
    (hlink : s'.link? id = s.link? id)
    (hexceptions : s'.exceptions.find? id = s.exceptions.find? id) :
    s'.segment id e startBoundary next = s.segment id e startBoundary next := by
  unfold segment exceptionsOf
  rw [hlink, hexceptions]

/-- A store that holds the same of a chain's objects, and in which the links of the chain lead to no
new object, holds the same series. -/
private theorem sameSeries_of_kept {b : ObjectId} (hb : s.entity? b ≠ none)
    (hentity : ∀ id ∈ s.chainIds b, s'.entity? id = s.entity? id)
    (hlink : ∀ id ∈ s.chainIds b, s'.link? id = s.link? id)
    (hexceptions : ∀ id ∈ s.chainIds b, s'.exceptions.find? id = s.exceptions.find? id)
    (hdangling : ∀ id ∈ s.chainIds b, ∀ c, s.continuation? id = some c → s.entity? c = none →
      s'.entity? c = none) :
    s.SameSeries s' b := by
  have hagrees : s.Agrees s' (· ∈ s.chainIds b) fun g => g := by
    refine ⟨hentity, hlink, fun id hid _ _ _ => ?_, fun id c hid hc => ?_⟩
    · exact segment_eq (hlink id hid) (hexceptions id hid)
    · rcases mem_chainIds_of_continuation? hid hc with hmem | hnone
      · exact Or.inl hmem
      · exact Or.inr ⟨hnone, hdangling id hid c hc hnone⟩
  exact hagrees.sameSeries (mem_chainIds_self hb)

theorem sameSeries_deleteChain {a b : ObjectId} (hb : s.entity? b ≠ none)
    (hdisjoint : ∀ id ∈ s.chainIds a, id ∉ s.chainIds b) :
    s.SameSeries (s.deleteChain a).1 b := by
  have herased := find?_eraseAll (s.chainIds a) s
  have hkept : ∀ id ∈ s.chainIds b, id ∉ s.chainIds a := fun id hid ha => hdisjoint id ha hid
  apply sameSeries_of_kept hb
  · intro id hid
    exact (herased id).1.trans (if_neg (hkept id hid))
  · intro id hid
    exact (herased id).2.2.trans (if_neg (hkept id hid))
  · intro id hid
    exact (herased id).2.1.trans (if_neg (hkept id hid))
  · intro id _ c _ hnone
    refine (herased c).1.trans ?_
    rw [hnone, ite_self]

namespace Split

variable {edit : BulkEdit} {link : Link}

/-- A split leaves every series without the object that was split as it is, unless one of its links
leads to the id of the object that goes on. -/
private theorem sameSeries (h : s.Split id edit s' link) {b : ObjectId} (hb : s.entity? b ≠ none)
    (hid : id ∉ s.chainIds b)
    (hadopt : ∀ c, link.continuation = some c → ∀ other ∈ s.chainIds b,
      s.continuation? other ≠ some c) :
    s.SameSeries s' b := by
  have hnew : ∀ e, h.continuation = some e → link.continuation = some e.id := by
    intro e he
    rw [h.link_eq, he]
    rfl
  have hne : ∀ other ∈ s.chainIds b, other ≠ id := fun other hother heq => hid (heq ▸ hother)
  apply sameSeries_of_kept hb
  · intro other hother
    refine h.entity?_of_ne (hne other hother) fun e he heq => ?_
    exact entity?_of_mem_chainIds hother (heq ▸ (h.fresh e he).2)
  · intro other hother
    rw [h.link?_eq, if_neg (hne other hother)]
  · intro other _
    rw [h.exceptions_eq]
  · intro other hother c hc hnone
    rw [h.entity?_of_ne, hnone]
    · rintro rfl
      rw [h.root_eq] at hnone
      cases hnone
    · rintro e he rfl
      exact hadopt e.id (hnew e he) other hother hc

private theorem chainIds_of_adopted (h : s.Split id edit s' link) (howned : s.Owned) {b : ObjectId}
    (hid : id ∉ s.chainIds b) {e : Entity} (he : h.continuation = some e)
    (hadopts : ∃ other ∈ s.chainIds b, s.continuation? other = some e.id) :
    s'.chainIds b = s.chainIds b ++ [e.id] := by
  have hnone : s.entity? e.id = none := (h.fresh e he).2
  have hlink : ∀ other, other ≠ id → s'.continuation? other = s.continuation? other := by
    intro other hother
    unfold continuation?
    rw [h.link?_eq, if_neg hother]
  apply trail_append_dead_end s.entities.keys_nodup s'.entities.keys_nodup
  · intro other hother
    change other ∈ s'.entities.keys ↔ other ∈ s.entities.keys
    rw [mem_keys_iff_entity?, mem_keys_iff_entity?]
    by_cases hroot : other = id
    · rw [hroot, h.entity?_root, h.root_eq]
      simp
    · rw [h.entity?_of_ne hroot]
      intro new hnew
      rw [he] at hnew
      exact Option.some.inj hnew ▸ hother
  · apply mem_keys_iff_entity?.2
    rw [h.entity?_continuation he]
    exact Option.some_ne_none e
  · exact fun hmem => mem_keys_iff_entity?.1 hmem hnone
  · intro other hother
    exact hlink other fun heq => hid (heq ▸ hother)
  · exact hadopts
  · rw [hlink e.id (h.id_ne he)]
    unfold continuation?
    rw [(howned e.id hnone).2, Option.bind_none]

end Split

private theorem perform_bulk_of_eq_ok {edit : BulkEdit} {link : Link}
    (hok : s.applyBulkEdit id edit = .ok (s', link)) : s.perform (.bulk id edit) = s' := by
  simp only [perform, hok]

private theorem perform_bulk_of_eq_error {edit : BulkEdit} {error : EditError}
    (hrefused : s.applyBulkEdit id edit = .error error) : s.perform (.bulk id edit) = s := by
  simp only [perform, hrefused]

private theorem link_continuation_of_applyBulkEdit {edit : BulkEdit} {link : Link}
    (hok : s.applyBulkEdit id edit = .ok (s', link)) :
    link.continuation = edit.continuation.map Entity.id := by
  obtain ⟨h, -, hids, -⟩ := exists_split_of_eq_ok hok
  rw [h.link_eq, ← hids]

/-- Whatever edits made the store, deleting a series, or splitting it, leaves a series without common
objects as it is, unless the split makes an object to which the other series has kept a link. Then
the other series goes on with the new object. -/
theorem series_kept_unless_adopted (edits : List Edit) (a b : ObjectId)
    (hedits : ∀ edit ∈ edits, edit.keepsLinks = true) (hb : (run edits).entity? b ≠ none)
    (hdisjoint : ∀ id ∈ (run edits).chainIds a, id ∉ (run edits).chainIds b) :
    (run edits).SameSeries ((run edits).perform (.deleteChain a)) b ∧
    (∀ edit : BulkEdit,
      (∀ e, edit.continuation = some e →
        ∀ id ∈ (run edits).chainIds b, (run edits).continuation? id ≠ some e.id) →
      (run edits).SameSeries ((run edits).perform (.bulk a edit)) b) ∧
    ∀ (edit : BulkEdit) (e : Entity) (s' : Store) (link : Link),
      (run edits).applyBulkEdit a edit = .ok (s', link) → edit.continuation = some e →
      (∃ id ∈ (run edits).chainIds b, (run edits).continuation? id = some e.id) →
      s'.chainIds b = (run edits).chainIds b ++ [e.id] := by
  have howned := owned_run edits hedits
  generalize run edits = s at hb hdisjoint howned ⊢
  have hroot : s.entity? a ≠ none → a ∉ s.chainIds b := fun ha =>
    hdisjoint a (mem_chainIds_self ha)
  refine ⟨sameSeries_deleteChain hb hdisjoint, fun edit hadopt => ?_, ?_⟩
  · cases hresult : s.applyBulkEdit a edit with
    | error =>
      rw [perform_bulk_of_eq_error hresult]
      exact .refl s b
    | ok made =>
      obtain ⟨s', link⟩ := made
      rw [perform_bulk_of_eq_ok hresult]
      obtain ⟨h⟩ := exists_split hresult
      have ha : s.entity? a ≠ none := by simp [h.root_eq]
      refine h.sameSeries hb (hroot ha) fun c hc => ?_
      rw [link_continuation_of_applyBulkEdit hresult] at hc
      obtain ⟨e, he, rfl⟩ := Option.map_eq_some_iff.1 hc
      exact hadopt e he
  · intro edit e s' link hresult he hadopts
    obtain ⟨h⟩ := exists_split hresult
    have ha : s.entity? a ≠ none := by simp [h.root_eq]
    have hlink := link_continuation_of_applyBulkEdit hresult
    rw [he, h.link_eq] at hlink
    obtain ⟨new, hnew, hid⟩ := Option.map_eq_some_iff.1 hlink
    rw [← hid] at hadopts ⊢
    exact h.chainIds_of_adopted howned (hroot ha) hnew hadopts

/-- The first two of five days go on as a second object, which is deleted, so that a link to it is
left. Another object recurs on the same five days. -/
def leftLink : List Edit :=
  [.insert fiveDays,
    .bulk ⟨"daily"⟩ ⟨.nine 2026 1 3, some (successor "second" 3), none⟩,
    .deleteChain ⟨"second"⟩,
    .insert { fiveDays with id := ⟨"other"⟩ }]

def splitOther (name : String) : Edit :=
  .bulk ⟨"other"⟩ ⟨.nine 2026 1 3, some (successor name 3), none⟩

/-- A new name leaves the first series as it is; the name that its link has kept makes it go on. -/
theorem series_kept_from_new_name :
    let s := run leftLink
    (∀ edit ∈ leftLink, edit.keepsLinks = true) ∧ s.entity? ⟨"daily"⟩ ≠ none ∧
      (∀ id ∈ s.chainIds ⟨"other"⟩, id ∉ s.chainIds ⟨"daily"⟩) ∧
      s.SameSeries (s.perform (.deleteChain ⟨"other"⟩)) ⟨"daily"⟩ ∧
      s.SameSeries (s.perform (splitOther "third")) ⟨"daily"⟩ ∧
      (s.perform (splitOther "second")).chainIds ⟨"daily"⟩ = [⟨"daily"⟩, ⟨"second"⟩] := by
  intro s
  have hdaily : s.chainIds ⟨"daily"⟩ = [⟨"daily"⟩] := by decide +kernel
  have hother : s.chainIds ⟨"other"⟩ = [⟨"other"⟩] := by decide +kernel
  have hkept : s.continuation? ⟨"daily"⟩ = some ⟨"second"⟩ := by decide +kernel
  have hedits : ∀ edit ∈ leftLink, edit.keepsLinks = true := by decide
  have hexists : s.entity? ⟨"daily"⟩ ≠ none := by decide +kernel
  have hdisjoint : ∀ id ∈ s.chainIds ⟨"other"⟩, id ∉ s.chainIds ⟨"daily"⟩ := by
    rw [hdaily, hother]
    decide
  obtain ⟨hdelete, hsplit, hadopted⟩ :=
    series_kept_unless_adopted leftLink ⟨"other"⟩ ⟨"daily"⟩ hedits hexists hdisjoint
  refine ⟨hedits, hexists, hdisjoint, hdelete, hsplit _ ?_, ?_⟩
  · rintro e he id hid hcontinuation
    obtain rfl := Option.some.inj he
    rw [hdaily, List.mem_singleton] at hid
    rw [hid, hkept] at hcontinuation
    exact absurd hcontinuation (by decide)
  · let edit : BulkEdit := ⟨.nine 2026 1 3, some (successor "second" 3), none⟩
    have hmade : (s.applyBulkEdit ⟨"other"⟩ edit).isOk = true := by decide +kernel
    cases hresult : s.applyBulkEdit ⟨"other"⟩ edit with
    | error =>
      rw [hresult] at hmade
      cases hmade
    | ok made =>
      have hperform : s.perform (splitOther "second") = made.1 := perform_bulk_of_eq_ok hresult
      rw [hperform, hadopted edit _ made.1 made.2 hresult rfl ⟨⟨"daily"⟩, ?_, hkept⟩, hdaily]
      · rfl
      · rw [hdaily]
        exact List.mem_singleton_self _

/-- A split of one series may make another one longer that had no object in common with it. -/
theorem longer_by_split_of_other :
    let s := run leftLink
    let s' := s.perform (splitOther "second")
    (∀ edit ∈ leftLink, edit.keepsLinks = true) ∧
      s.entity? ⟨"other"⟩ ≠ none ∧ s.entity? ⟨"daily"⟩ ≠ none ∧
      (∀ id ∈ s.chainIds ⟨"other"⟩, id ∉ s.chainIds ⟨"daily"⟩) ∧
      s.chainIds ⟨"daily"⟩ = [⟨"daily"⟩] ∧
      s'.chainIds ⟨"daily"⟩ = [⟨"daily"⟩, ⟨"second"⟩] ∧
      (s.occurrences {} ⟨"daily"⟩ (.nine 2026 1 1) (.nine 2026 1 9) none).map (·.length) = .ok 2 ∧
      (s'.occurrences {} ⟨"daily"⟩ (.nine 2026 1 1) (.nine 2026 1 9) none).map (·.length) = .ok 5 := by
  intro s s'
  refine ⟨by decide, by decide +kernel, by decide +kernel, by decide +kernel, by decide +kernel,
    by decide +kernel, ?_, ?_⟩
  · simp only [occurrences, Chain.walk, Segment.resolve, sort_eq_insertionSort]
    decide +kernel
  · simp only [occurrences, Chain.walk, Segment.resolve, sort_eq_insertionSort]
    decide +kernel

end Store
end Recurrence
