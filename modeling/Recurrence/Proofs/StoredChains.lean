import Recurrence.Proofs.ChainSegments

set_option autoImplicit false
set_option relaxedAutoImplicit false

/-!
The chain of an object, said by the entries of the store: the objects along the links, where the
part of each begins and ends, and what becomes of its candidates. The segments that are loaded for
the object are these parts in this order, and their occurrences are these.
-/

namespace Recurrence

namespace Store

variable {s : Store} {root id : ObjectId} {seen ids : List ObjectId}

/-- The objects along the links from one on, up to the first that is missing or was seen before. -/
inductive Way (s : Store) : List ObjectId → ObjectId → List ObjectId → Prop
  | missing {seen : List ObjectId} {id : ObjectId} (hid : s.entities.find? id = none) :
      Way s seen id []
  | again {seen : List ObjectId} {id : ObjectId} (hid : id ∈ seen) : Way s seen id []
  | last {seen : List ObjectId} {id : ObjectId} {e : Entity} (he : s.entities.find? id = some e)
      (hid : id ∉ seen)
      (hlink : ∀ link, s.links.find? id = some link → link.continuation = none) :
      Way s seen id [id]
  | on {seen ids : List ObjectId} {id next : ObjectId} {e : Entity} {link : Link}
      (he : s.entities.find? id = some e) (hid : id ∉ seen)
      (hlink : s.links.find? id = some link) (hnext : link.continuation = some next)
      (hway : Way s (id :: seen) next ids) : Way s seen id (id :: ids)

def OnWay (s : Store) (root id : ObjectId) : Prop := ∃ ids, s.Way [] root ids ∧ id ∈ ids

private theorem Way.unique {ids' : List ObjectId} (h : s.Way seen id ids)
    (h' : s.Way seen id ids') : ids = ids' := by
  induction h generalizing ids' with
  | missing hid =>
    cases h' with
    | missing | again => rfl
    | last he | on he => cases hid.symm.trans he
  | again hid =>
    cases h' with
    | missing | again => rfl
    | last _ hfresh | on _ hfresh => exact absurd hid hfresh
  | last he hid hlink =>
    cases h' with
    | missing hnone => cases hnone.symm.trans he
    | again hseen => exact absurd hseen hid
    | last => rfl
    | on _ _ hlink' hnext => cases (hlink _ hlink').symm.trans hnext
  | on he hid hlink hnext _ ih =>
    cases h' with
    | missing hnone => cases hnone.symm.trans he
    | again hseen => exact absurd hseen hid
    | last _ _ hend => cases (hend _ hlink).symm.trans hnext
    | on _ _ hlink' hnext' hway =>
      obtain rfl := Option.some.inj (hlink.symm.trans hlink')
      obtain rfl := Option.some.inj (hnext.symm.trans hnext')
      rw [ih hway]

private theorem way_trail {unvisited : List ObjectId} (hnodup : unvisited.Nodup)
    (hunvisited : ∀ a, a ∈ unvisited ↔ s.entities.find? a ≠ none ∧ a ∉ seen) :
    s.Way seen id (trail s.continuation? unvisited (some id)) := by
  generalize hstart : some id = start
  fun_induction trail s.continuation? unvisited start generalizing seen id with
  | case1 => cases hstart
  | case2 unvisited current hcurrent ih =>
    obtain rfl := Option.some.inj hstart
    obtain ⟨hstored, hfresh⟩ := (hunvisited id).1 hcurrent
    obtain ⟨e, he⟩ := Option.ne_none_iff_exists'.1 hstored
    cases hnext : s.continuation? id with
    | none =>
      rw [trail]
      refine .last he hfresh fun link hlink => ?_
      unfold continuation? link? at hnext
      rwa [hlink] at hnext
    | some next =>
      obtain ⟨link, hlink, hcontinuation⟩ := Option.bind_eq_some_iff.1 hnext
      refine .on he hfresh hlink hcontinuation ?_
      rw [hnext] at ih
      refine ih (hnodup.erase id) (fun a => ?_) rfl
      rw [hnodup.mem_erase_iff, hunvisited, List.mem_cons, not_or]
      exact and_left_comm
  | case3 unvisited current hcurrent =>
    obtain rfl := Option.some.inj hstart
    by_cases hid : s.entities.find? id = none
    · exact .missing hid
    · refine .again ?_
      by_contra hfresh
      exact hcurrent ((hunvisited id).2 ⟨hid, hfresh⟩)

/-- The objects of a chain are those on the way from its root. -/
theorem way_iff : s.Way [] root ids ↔ ids = s.chainIds root := by
  have hway : s.Way [] root (s.chainIds root) := by
    refine way_trail s.entities.keys_nodup fun a => ?_
    rw [mem_keys_iff_entity?]
    exact (and_iff_left List.not_mem_nil).symm
  constructor
  · exact fun h => h.unique hway
  · rintro rfl
    exact hway

theorem onWay_iff : s.OnWay root id ↔ id ∈ s.chainIds root := by
  unfold OnWay
  simp only [way_iff, exists_eq_left]

theorem continuation?_of_next {id : ObjectId} {next : Option (ObjectId × Instant)}
    (h : ((s.link? id).bind fun link =>
      link.continuation.map fun c => (c, link.splitDate)) = next) :
    s.continuation? id = next.map Prod.fst := by
  unfold continuation?
  rw [← h]
  cases s.link? id with
  | none => rfl
  | some link =>
    simp only [Option.bind_some]
    cases link.continuation <;> rfl

section Loading

variable (s) (unloaded : List ObjectId) (id : ObjectId) (e : Entity) (startBoundary : Instant)
  (place : Nat)

private theorem map_id_segmentsFrom (hunloaded : ∀ other ∈ unloaded, other ∈ s.entities.keys) :
    (s.segmentsFrom unloaded id e startBoundary place).map Segment.id =
      id :: trail s.continuation? unloaded (s.continuation? id) := by
  fun_induction Store.segmentsFrom s unloaded id e startBoundary place with
  | case1 unloaded id e startBoundary place hnext =>
    rw [continuation?_of_next hnext]
    simp [trail, segment]
  | case2 unloaded id e startBoundary place continuation splitDate hnext hmem following hfollowing
      ih =>
    rw [List.map_cons, ih fun other hother => hunloaded other (List.mem_of_mem_erase hother),
      continuation?_of_next hnext, Option.map_some]
    conv_rhs => unfold trail
    rw [if_pos hmem]
    rfl
  | case3 unloaded id e startBoundary place continuation splitDate hnext hmem hnone =>
    obtain ⟨following, hfollowing⟩ := Table.mem_keys_iff.1 (hunloaded continuation hmem)
    cases hnone.symm.trans hfollowing
  | case4 unloaded id e startBoundary place continuation splitDate hnext hmem =>
    rw [continuation?_of_next hnext, Option.map_some]
    unfold trail
    rw [if_neg hmem]
    rfl

private theorem exists_entity_of_mem_segmentsFrom (he : s.entity? id = some e) :
    ∀ g ∈ s.segmentsFrom unloaded id e startBoundary place, ∃ own boundary next,
      s.entity? g.id = some own ∧ g = s.segment g.id own boundary next := by
  fun_induction Store.segmentsFrom s unloaded id e startBoundary place with
  | case2 unloaded id e startBoundary place continuation splitDate hnext hmem following hfollowing
      ih =>
    intro g hg
    rcases List.mem_cons.1 hg with rfl | hg
    · exact ⟨e, _, _, he, rfl⟩
    · exact ih hfollowing g hg
  | _ =>
    intro g hg
    obtain rfl := List.mem_singleton.1 hg
    exact ⟨_, _, _, he, rfl⟩

private theorem head?_segmentsFrom : ∃ next,
    (s.segmentsFrom unloaded id e startBoundary place).head? =
      some (s.segment id e startBoundary next) := by
  fun_induction Store.segmentsFrom s unloaded id e startBoundary place with
  | _ => exact ⟨_, rfl⟩

private theorem adjoin_segmentsFrom (i : Nat) (g g' : Segment)
    (hg : (s.segmentsFrom unloaded id e startBoundary place)[i]? = some g)
    (hg' : (s.segmentsFrom unloaded id e startBoundary place)[i + 1]? = some g') :
    g.endBoundary = some g'.startBoundary := by
  fun_induction Store.segmentsFrom s unloaded id e startBoundary place generalizing i with
  | case2 unloaded id e startBoundary place continuation splitDate hnext hmem following hfollowing
      ih =>
    cases i with
    | zero =>
      obtain ⟨link, hfind, -, rfl⟩ := exists_link_of_next hnext
      obtain ⟨next, hhead⟩ := s.head?_segmentsFrom (unloaded.erase continuation) continuation
        following link.splitDate (place + 1)
      rw [List.getElem?_cons_succ, ← List.head?_eq_getElem?, hhead] at hg'
      obtain rfl := Option.some.inj hg
      obtain rfl := Option.some.inj hg'
      change (s.link? id).map Link.splitDate = some link.splitDate
      rw [hfind, Option.map_some]
    | succ i => exact ih i hg hg'
  | _ => simp at hg'

end Loading

theorem map_id_chain (s : Store) (root : ObjectId) :
    (s.chain root).segments.map Segment.id = s.chainIds root := by
  unfold chain chainIds trail
  cases he : s.entity? root with
  | none =>
    rw [if_neg fun hmem => ?_]
    · rfl
    · obtain ⟨e, hfind⟩ := Table.mem_keys_iff.1 hmem
      cases he.symm.trans hfind
  | some e =>
    rw [if_pos (Table.mem_keys_iff.2 ⟨e, he⟩)]
    exact s.map_id_segmentsFrom _ root e e.start 0 fun other => List.mem_of_mem_erase

theorem exists_entity_of_mem_chain {g : Segment} (hg : g ∈ (s.chain root).segments) :
    ∃ own boundary next, s.entity? g.id = some own ∧ g = s.segment g.id own boundary next := by
  unfold chain at hg
  cases he : s.entity? root with
  | none =>
    rw [he] at hg
    cases hg
  | some e =>
    rw [he] at hg
    exact s.exists_entity_of_mem_segmentsFrom _ root e e.start 0 he g hg

section Parts

variable {place : Nat} {e : Entity} {c : Instant} {x : Exception} {o : Occurrence}
  {g g' : Segment}

theorem head?_chain (he : s.entity? root = some e) : ∃ next,
    (s.chain root).segments.head? = some (s.segment root e e.start next) := by
  unfold chain
  rw [he]
  exact s.head?_segmentsFrom (s.entities.keys.erase root) root e e.start 0

theorem adjoin_chain (hg : (s.chain root).segments[place]? = some g)
    (hg' : (s.chain root).segments[place + 1]? = some g') :
    g.endBoundary = some g'.startBoundary := by
  unfold chain at hg hg'
  cases he : s.entity? root with
  | none =>
    rw [he] at hg
    cases hg
  | some e =>
    rw [he] at hg hg'
    exact s.adjoin_segmentsFrom _ root e e.start 0 place g g' hg hg'

theorem endBoundary_of_mem_chain (hg : g ∈ (s.chain root).segments) :
    g.endBoundary = (s.links.find? g.id).map Link.splitDate := by
  obtain ⟨own, boundary, next, -, hg⟩ := exists_entity_of_mem_chain hg
  rw [hg]
  rfl

private theorem getElem?_chainIds (hg : (s.chain root).segments[place]? = some g) :
    (s.chainIds root)[place]? = some g.id := by
  rw [← map_id_chain, List.getElem?_map, hg, Option.map_some]

private theorem exists_segment_at (hid : (s.chainIds root)[place]? = some id) :
    ∃ g, (s.chain root).segments[place]? = some g ∧ g.id = id := by
  rw [← map_id_chain, List.getElem?_map] at hid
  exact Option.map_eq_some_iff.1 hid

/-- Where the part of an object in a chain begins: that of the root at its own start, and any other
where the object before it is split. -/
inductive BeginsAt (s : Store) (ids : List ObjectId) : Nat → Instant → Prop
  | root {id : ObjectId} {e : Entity} (hid : ids[0]? = some id)
      (he : s.entities.find? id = some e) : BeginsAt s ids 0 e.start
  | split {place : Nat} {id : ObjectId} {link : Link} (hid : ids[place]? = some id)
      (hlink : s.links.find? id = some link) : BeginsAt s ids (place + 1) link.splitDate

private theorem BeginsAt.unique {t t' : Instant} (h : s.BeginsAt ids place t)
    (h' : s.BeginsAt ids place t') : t = t' := by
  cases h with
  | root hid he =>
    obtain ⟨hid', he'⟩ := h'
    obtain rfl := Option.some.inj (hid.symm.trans hid')
    rw [Option.some.inj (he.symm.trans he')]
  | split hid hlink =>
    cases h' with
    | split hid' hlink' =>
      obtain rfl := Option.some.inj (hid.symm.trans hid')
      rw [Option.some.inj (hlink.symm.trans hlink')]

private theorem beginsAt_startBoundary (hg : (s.chain root).segments[place]? = some g) :
    s.BeginsAt (s.chainIds root) place g.startBoundary := by
  cases place with
  | zero =>
    obtain ⟨own, -, -, he, -⟩ := exists_entity_of_mem_chain (List.mem_of_getElem? hg)
    have hroot : s.entity? root ≠ none := by
      intro hnone
      unfold chain at hg
      rw [hnone] at hg
      cases hg
    obtain ⟨e, he⟩ := Option.ne_none_iff_exists'.1 hroot
    obtain ⟨next, hhead⟩ := head?_chain he
    rw [List.head?_eq_getElem?, hg] at hhead
    have hid := getElem?_chainIds hg
    rw [Option.some.inj hhead] at hid ⊢
    exact .root hid he
  | succ place =>
    have hlength := (List.getElem?_eq_some_iff.1 hg).1
    have hbefore := List.getElem?_eq_getElem (show place < (s.chain root).segments.length by omega)
    have hend := endBoundary_of_mem_chain (List.mem_of_getElem? hbefore)
    rw [adjoin_chain hbefore hg] at hend
    obtain ⟨link, hlink, hdate⟩ := Option.map_eq_some_iff.1 hend.symm
    rw [← hdate]
    exact .split (getElem?_chainIds hbefore) hlink

/-- A raw candidate of an object at a place of a chain: an instant of the object's series in its
part of the chain. -/
structure RawAt (s : Store) (ids : List ObjectId) (place : Nat) (id : ObjectId) (e : Entity)
    (c : Instant) : Prop where
  placed : ids[place]? = some id
  stored : s.entities.find? id = some e
  yields : (⟨e.rule, e.start⟩ : Series).Yields c
  begun : ∃ t, s.BeginsAt ids place t ∧ t ≤ c
  unsplit : ∀ link, s.links.find? id = some link → c < link.splitDate

theorem exists_rawAt (hg : (s.chain root).segments[place]? = some g) :
    ∃ e, g.duration = e.stop.since e.start ∧
      ∀ c, g.Raw c → s.RawAt (s.chainIds root) place g.id e c := by
  have hmem := List.mem_of_getElem? hg
  obtain ⟨own, boundary, next, he, hshape⟩ := exists_entity_of_mem_chain hmem
  refine ⟨own, congrArg Segment.duration hshape, fun c hc => ?_⟩
  have hyields := hc.yields
  rw [hshape] at hyields
  refine ⟨getElem?_chainIds hg, he, hyields, ⟨_, beginsAt_startBoundary hg, hc.from_start⟩,
    fun link hlink => hc.before_end _ ?_⟩
  rw [endBoundary_of_mem_chain hmem, hlink, Option.map_some]

private theorem RawAt.exists_segment (h : s.RawAt (s.chainIds root) place id e c) :
    ∃ g, (s.chain root).segments[place]? = some g ∧ g.id = id ∧ g.Raw c ∧
      g.duration = e.stop.since e.start ∧ g.exceptions = s.exceptionsOf id := by
  obtain ⟨g, hg, rfl⟩ := exists_segment_at h.placed
  have hmem := List.mem_of_getElem? hg
  obtain ⟨own, boundary, next, he, hshape⟩ := exists_entity_of_mem_chain hmem
  obtain rfl := Option.some.inj (he.symm.trans h.stored)
  obtain ⟨t, hbegins, hle⟩ := h.begun
  have hyields : g.series.Yields c := by
    rw [hshape]
    exact h.yields
  refine ⟨g, hg, rfl, ⟨hyields, ?_, fun t ht => ?_⟩, congrArg Segment.duration hshape,
    congrArg Segment.exceptions hshape⟩
  · rw [(beginsAt_startBoundary hg).unique hbegins]
    exact hle
  · rw [endBoundary_of_mem_chain hmem] at ht
    obtain ⟨link, hlink, rfl⟩ := Option.map_eq_some_iff.1 ht
    exact h.unsplit link hlink

/-- The store has an exception to the candidate of an object: one for the candidate's second. -/
def Excepts (s : Store) (id : ObjectId) (c : Instant) (x : Exception) : Prop :=
  ∃ table second, s.exceptions.find? id = some table ∧ table.find? second = some x ∧
    x.date.SameSecond c

private theorem excepts_iff (hs : s.Keyed) :
    s.Excepts id c x ↔ (s.exceptionsOf id).exceptionTo? c = some x := by
  unfold Excepts exceptionsOf ExceptionTable.exceptionTo?
  constructor
  · rintro ⟨table, second, htable, hfind, hsame⟩
    rw [htable, Option.getD_some, ← Instant.truncate_eq_truncate_iff.2 hsame,
      hs id table htable second x hfind]
    exact hfind
  · cases htable : s.exceptions.find? id with
    | none => exact nofun
    | some table =>
      intro hfind
      have hsecond := hs id table htable _ x hfind
      exact ⟨table, _, rfl, hfind, Instant.truncate_eq_truncate_iff.1 hsecond⟩

/-- An occurrence of a chain: what becomes of a raw candidate of one of its objects, unless it is
cancelled. -/
inductive Occurs (s : Store) (ids : List ObjectId) : Occurrence → Prop
  | regular {place : Nat} {id : ObjectId} {e : Entity} {c : Instant}
      (hraw : s.RawAt ids place id e c) (hnone : ∀ x, ¬ s.Excepts id c x) :
      Occurs s ids ⟨c, c.shifted (e.stop.since e.start), id, none, c⟩
  | replaced {place : Nat} {id : ObjectId} {e : Entity} {c : Instant} {x : Exception}
      {r : Replacement} (hraw : s.RawAt ids place id e c) (hx : s.Excepts id c x)
      (hchange : x.change = .replaced r) : Occurs s ids ⟨r.start, r.stop, id, some r.id, c⟩

/-- The occurrences of a chain are those of the segments that are loaded. -/
theorem occurs_iff (hs : s.Keyed) :
    s.Occurs (s.chainIds root) o ↔ ∃ g ∈ (s.chain root).segments, g.Effective o := by
  constructor
  · intro ho
    cases ho with
    | regular hraw hnone =>
      obtain ⟨g, hg, rfl, hc, hduration, hexceptions⟩ := hraw.exists_segment
      rw [← hduration]
      refine ⟨g, List.mem_of_getElem? hg, Segment.effective_regular hc ?_⟩
      rw [hexceptions, Option.eq_none_iff_forall_ne_some]
      exact fun x hx => hnone x ((excepts_iff hs).2 hx)
    | @replaced place id e c x r hraw hx hchange =>
      obtain ⟨g, hg, rfl, hc, -, hexceptions⟩ := hraw.exists_segment
      refine ⟨g, List.mem_of_getElem? hg, Segment.effective_replaced (e := x) hc ?_ hchange⟩
      rw [hexceptions]
      exact (excepts_iff hs).1 hx
  · rintro ⟨g, hg, ho⟩
    obtain ⟨place, hplace⟩ := List.mem_iff_getElem?.1 hg
    obtain ⟨e, hduration, hrawAt⟩ := exists_rawAt hplace
    have hraw := hrawAt _ ho.raw
    obtain ⟨own, boundary, next, -, hshape⟩ := exists_entity_of_mem_chain hg
    have hexceptions : g.exceptions = s.exceptionsOf g.id := congrArg Segment.exceptions hshape
    have hform := ho.form
    obtain ⟨start, stop, segment, replacement, candidate⟩ := o
    obtain rfl : segment = g.id := ho.segment
    simp only [hexceptions, hduration] at hform hraw
    split at hform
    · rename_i hnone
      obtain ⟨rfl, rfl, rfl⟩ := hform
      refine .regular hraw fun x hx => ?_
      cases hnone.symm.trans ((excepts_iff hs).1 hx)
    · rename_i x hx
      obtain ⟨r, hchange, rfl, rfl, rfl⟩ := hform
      exact .replaced hraw ((excepts_iff hs).2 hx) hchange

end Parts

end Store

end Recurrence
