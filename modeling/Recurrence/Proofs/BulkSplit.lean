import Recurrence.Proofs.QueryCompleteness
import Recurrence.Proofs.SplitRules

set_option autoImplicit false
set_option relaxedAutoImplicit false

/-!
What a query reports after an edit of this and all following occurrences: the occurrences whose
candidates lie before the edit, as they were, and from the edit on those of the object that takes
over.
-/

namespace Recurrence

open Occurrence

def Entity.regular (e : Entity) (c : Instant) : Occurrence :=
  ⟨c, c.shifted e.duration, e.id, none, c⟩

namespace Segment

variable {g g' : Segment} {o : Occurrence}

private theorem Effective.of_raw (ho : g.Effective o) (hraw : g'.Raw o.candidate)
    (hid : g'.id = g.id)
    (hduration : g'.duration = g.duration) (hexceptions : g'.exceptions = g.exceptions) :
    g'.Effective o where
  raw := hraw
  segment := ho.segment.trans hid.symm
  form := by
    rw [hexceptions, hduration]
    exact ho.form

private theorem encard_effective_le (g : Segment) :
    {o | g.Effective o}.encard ≤ {t | g.Raw t}.encard := by
  have hmaps : Set.MapsTo Occurrence.candidate {o | g.Effective o} {t | g.Raw t} :=
    fun o ho => ho.raw
  exact Set.encard_le_encard_of_injOn hmaps fun a ha b hb heq => ha.eq_of_candidate_eq hb heq

theorem encard_raw_le_of_expand {rule : Rule} {ends : Instant} {n : Nat} {cs : List Instant}
    (hrule : g.series.rule = some rule) (hends : rule.ends = some ends)
    (hanchor : g.series.anchor.Inner) (hinner : ends.Inner)
    (hexpand : (g.series.expand (n + 1) g.series.anchor ends).map Expansion.candidates = .ok cs)
    (hlength : cs.length ≤ n) : {t | g.Raw t}.encard ≤ n := by
  refine (Set.encard_le_encard ?_).trans
    (Series.encard_le_of_expand hanchor hanchor hinner hexpand hlength)
  intro t ht
  have hin : rule.InSeries g.series.anchor t := by
    have hyields := ht.yields
    unfold Series.Yields at hyields
    rwa [hrule] at hyields
  exact ⟨ht.yields, ht.yields.anchor_le, hin.ends ends hends⟩

theorem effective_iff_of_no_exceptions (hnone : g.exceptions = ∅) :
    g.Effective o ↔ g.Raw o.candidate ∧ o = g.regular o.candidate := by
  have hfind : g.exceptions.exceptionTo? o.candidate = none := by
    rw [hnone]
    rfl
  rw [effective_iff]
  unfold outcome
  rw [hfind]
  refine and_congr_right fun _ => ?_
  exact ⟨fun ho => (Option.some.inj ho).symm, fun ho => congrArg some ho.symm⟩

end Segment

namespace Store

variable {s s' : Store} {id : ObjectId} {edit : BulkEdit} {link : Link} {c start stop : Instant}
  {o : Occurrence}

namespace Split

theorem stored_start (h : s.Split id edit s' link) : h.stored.start = h.root.start := by
  unfold stored
  cases h.rules.truncated <;> rfl

theorem stored_duration (h : s.Split id edit s' link) : h.stored.duration = h.root.duration := by
  unfold stored
  cases h.rules.truncated <;> rfl

/-- Before the split the object under the root's id has the instants that it had. Without a rule to
put in place it keeps others as well, which the link cuts off. -/
private theorem yields_stored_iff (h : s.Split id edit s' link) (hanchor : h.root.start.Inner)
    (hdate : edit.splitDate.Inner) (hc : c < edit.splitDate) :
    h.stored.series.Yields c ↔ h.root.series.Yields c := by
  have hdivide := Rule.divide_of_splitAt_eq_ok hanchor hdate h.splits
  have hroot : h.root.series.Yields c ↔ h.rule.InSeries h.root.start c := by
    unfold Entity.series
    rw [h.rule_eq]
    exact Iff.rfl
  unfold stored
  cases htruncated : h.rules.truncated with
  | none => exact Iff.rfl
  | some rule =>
    rw [hroot]
    exact (hdivide.before rule htruncated c).trans (and_iff_left hc)

theorem link_splitDate (h : s.Split id edit s' link) : link.splitDate = edit.splitDate :=
  congrArg Link.splitDate h.link_eq

theorem exceptionsOf_eq (h : s.Split id edit s' link) (other : ObjectId) :
    s'.exceptionsOf other = s.exceptionsOf other := by
  unfold exceptionsOf
  rw [h.exceptions_eq]

theorem exceptionsOf_continuation (h : s.Split id edit s' link) (howned : s.Owned) {e : Entity}
    (he : h.continuation = some e) : s'.exceptionsOf e.id = ∅ := by
  rw [h.exceptionsOf_eq]
  unfold exceptionsOf
  rw [(howned e.id (h.fresh e he).2).1]
  rfl

theorem boundary_root (h : s.Split id edit s' link) :
    (s'.link? id).map Link.splitDate = some edit.splitDate := by
  rw [h.link?_eq, if_pos rfl, Option.map_some, h.link_splitDate]

theorem boundary_continuation (h : s.Split id edit s' link) (howned : s.Owned) {e : Entity}
    (he : h.continuation = some e) : (s'.link? e.id).map Link.splitDate = none := by
  rw [h.link?_eq, if_neg (h.id_ne he), (howned e.id (h.fresh e he).2).2, Option.map_none]

theorem segments_eq (h : s.Split id edit s' link) (howned : s.Owned) :
    (s'.chain id).segments =
      s'.segment id h.stored h.stored.start (h.continuation.map fun _ => 1) ::
        h.continuation.toList.map fun e => s'.segment e.id e edit.splitDate none := by
  have hlink : s'.link? id = some link := by rw [h.link?_eq, if_pos rfl]
  have hnext : link.continuation = h.continuation.map Entity.id :=
    congrArg Link.continuation h.link_eq
  unfold chain segmentsFrom
  rw [h.entity?_root]
  simp only [hlink, Option.bind_some, hnext, h.link_splitDate]
  cases hcontinuation : h.continuation with
  | none => rfl
  | some e =>
    have hfound := h.entity?_continuation hcontinuation
    have hkey : e.id ∈ s'.entities.keys.erase id :=
      (List.mem_erase_of_ne (h.id_ne hcontinuation)).2 (Table.mem_keys_iff.2 ⟨e, hfound⟩)
    have hlast : s'.link? e.id = none := by
      rw [h.link?_eq, if_neg (h.id_ne hcontinuation)]
      exact (howned e.id (h.fresh e hcontinuation).2).2
    simp only [Option.map_some, if_pos hkey, hfound]
    unfold segmentsFrom
    simp only [hlast, Option.bind_none]
    rfl

private theorem effective_root_iff (h : s.Split id edit s' link) (hlink : s.link? id = none)
    (hanchor : h.root.start.Inner) (hdate : edit.splitDate.Inner) (next : Option Nat) :
    (s'.segment id h.stored h.stored.start next).Effective o ↔
      (s.segment id h.root h.root.start none).Effective o ∧ o.candidate < edit.splitDate := by
  have hend : (s'.segment id h.stored h.stored.start next).endBoundary = some edit.splitDate :=
    h.boundary_root
  have hopen : (s.segment id h.root h.root.start none).endBoundary = none := by
    change (s.link? id).map Link.splitDate = none
    rw [hlink, Option.map_none]
  have hexceptions : s'.exceptionsOf id = s.exceptionsOf id := h.exceptionsOf_eq id
  constructor
  · intro ho
    have hlt := ho.raw.before_end _ hend
    have hyields := (h.yields_stored_iff hanchor hdate hlt).1 ho.raw.yields
    have hfrom : h.root.start ≤ o.candidate := h.stored_start ▸ ho.raw.from_start
    refine ⟨ho.of_raw ⟨hyields, hfrom, ?_⟩ rfl h.stored_duration.symm hexceptions.symm, hlt⟩
    rw [hopen]
    rintro _ ⟨⟩
  · rintro ⟨ho, hlt⟩
    have hyields := (h.yields_stored_iff hanchor hdate hlt).2 ho.raw.yields
    have hfrom : h.stored.start ≤ o.candidate := h.stored_start.symm ▸ ho.raw.from_start
    refine ho.of_raw ⟨hyields, hfrom, ?_⟩ rfl h.stored_duration hexceptions
    rw [hend]
    rintro _ ⟨⟩
    exact hlt

private theorem effective_continuation_iff (h : s.Split id edit s' link) (howned : s.Owned)
    {e : Entity} (he : h.continuation = some e) :
    (s'.segment e.id e edit.splitDate none).Effective o ↔
      e.series.Yields o.candidate ∧ edit.splitDate ≤ o.candidate ∧ o = e.regular o.candidate := by
  have hempty : (s'.segment e.id e edit.splitDate none).exceptions = ∅ :=
    h.exceptionsOf_continuation howned he
  have hopen : (s'.segment e.id e edit.splitDate none).endBoundary = none :=
    h.boundary_continuation howned he
  rw [Segment.effective_iff_of_no_exceptions hempty]
  constructor
  · rintro ⟨hraw, ho⟩
    exact ⟨hraw.yields, hraw.from_start, ho⟩
  · rintro ⟨hyields, hfrom, ho⟩
    refine ⟨⟨hyields, hfrom, ?_⟩, ho⟩
    rw [hopen]
    rintro _ ⟨⟩

/-- The occurrences of the chain after a split: those before it, and the new object's own. -/
theorem effective_chain_iff (h : s.Split id edit s' link) (howned : s.Owned)
    (hlink : s.link? id = none) (hanchor : h.root.start.Inner) (hdate : edit.splitDate.Inner) :
    (s'.chain id).Effective o ↔
      ((s.chain id).Effective o ∧ o.candidate < edit.splitDate) ∨
        ∃ e, h.continuation = some e ∧ e.series.Yields o.candidate ∧
          edit.splitDate ≤ o.candidate ∧ o = e.regular o.candidate := by
  unfold Chain.Effective
  rw [h.segments_eq howned, chain_of_link?_eq_none h.root_eq hlink, List.exists_mem_cons_iff]
  simp only [List.mem_singleton, exists_eq_left, List.mem_map, Option.mem_toList]
  rw [h.effective_root_iff hlink hanchor hdate]
  refine or_congr_right ?_
  constructor
  · rintro ⟨_, ⟨e, he, rfl⟩, ho⟩
    exact ⟨e, he, (h.effective_continuation_iff howned he).1 ho⟩
  · rintro ⟨e, he, ho⟩
    exact ⟨_, ⟨e, he, rfl⟩, (h.effective_continuation_iff howned he).2 ho⟩

end Split

structure Fits (s : Store) (limits : Limits) (root : ObjectId) (start stop : Instant)
    (max : Option Nat) : Prop where
  candidates : (s.chain root).HasRoom limits.safetyCap start stop
  total : {o | (s.chain root).Effective o ∧ start ≤ o.start ∧ o.start ≤ stop}.encard ≤
    (max.getD limits.maxOccurrences : Nat)

theorem Fits.of_few {limits : Limits} {root : ObjectId} {max : Option Nat} {n : Nat}
    (hfew : ∀ g ∈ (s.chain root).segments, {t | g.Raw t}.encard ≤ n) (hcap : n ≤ limits.safetyCap)
    (hmax : (s.chain root).segments.length * n ≤ max.getD limits.maxOccurrences) :
    s.Fits limits root start stop max where
  candidates g hg := by
    have hsub : {t | g.Raw t ∧ start ≤ t ∧ t ≤ stop} ⊆ {t | g.Raw t} := fun t ht => ht.1
    exact (Set.encard_le_encard hsub).trans ((hfew g hg).trans (Nat.cast_le.2 hcap))
  total := by
    have hall : ∀ gs : List Segment, (∀ g ∈ gs, {t | g.Raw t}.encard ≤ n) →
        {o | ∃ g ∈ gs, g.Effective o}.encard ≤ (gs.length * n : Nat) := by
      intro gs hgs
      induction gs with
      | nil => simp
      | cons g gs ih =>
        have hset : {o | ∃ g' ∈ g :: gs, g'.Effective o} =
            {o | g.Effective o} ∪ {o | ∃ g' ∈ gs, g'.Effective o} := by
          ext o
          exact List.exists_mem_cons_iff _ _ _
        have hfirst := g.encard_effective_le.trans (hgs g List.mem_cons_self)
        have hrest := ih fun g' hg' => hgs g' (List.mem_cons_of_mem g hg')
        rw [hset, List.length_cons, Nat.add_mul, Nat.one_mul, Nat.add_comm, Nat.cast_add]
        exact (Set.encard_union_le _ _).trans (add_le_add hfirst hrest)
    have hsub : {o | (s.chain root).Effective o ∧ start ≤ o.start ∧ o.start ≤ stop} ⊆
        {o | ∃ g ∈ (s.chain root).segments, g.Effective o} := fun o ho => ho.1
    exact (Set.encard_le_encard hsub).trans ((hall _ hfew).trans (Nat.cast_le.2 hmax))

theorem Fits.exists_all {limits : Limits} {root : ObjectId} {max : Option Nat}
    (hfits : s.Fits limits root start stop max) (hs : s.Ordinary) (hkeyed : s.Keyed)
    (hstart : start.Ordinary) (hstop : stop.Ordinary) (hle : start ≤ stop)
    (hcap : 1 ≤ limits.safetyCap) :
    ∃ all : List Occurrence, all.Pairwise (Before (s.chain root).ids) ∧
      (∀ o, o ∈ all ↔ (s.chain root).Effective o ∧ start ≤ o.start ∧ o.start ≤ stop) ∧
      s.occurrences limits root start stop max = .ok all := by
  obtain ⟨all, hordered, hmem, hreport⟩ :=
    exists_report hs hkeyed root hstart hstop hle hcap hfits.candidates
  refine ⟨all, hordered, hmem, ?_⟩
  have hset : {o | (s.chain root).Effective o ∧ start ≤ o.start ∧ o.start ≤ stop} =
      {o | o ∈ all} := Set.ext fun o => (hmem o).symm
  have htotal := hfits.total
  rw [hset, Ascending.encard_eq_length hordered, Nat.cast_le] at htotal
  rw [hreport max, List.take_of_length_le htotal]

/-- What the new object adds to a window: its candidates from the split on, as they are. -/
def Adds (s' : Store) (link : Link) (start stop : Instant) (o : Occurrence) : Prop :=
  ∃ id e, link.continuation = some id ∧ s'.entity? id = some e ∧ e.series.Yields o.candidate ∧
    link.splitDate ≤ o.candidate ∧ start ≤ o.candidate ∧ o.candidate ≤ stop ∧
    o = e.regular o.candidate

private theorem Split.adds_iff (h : s.Split id edit s' link) :
    s'.Adds link start stop o ↔ (∃ e, h.continuation = some e ∧ e.series.Yields o.candidate ∧
      edit.splitDate ≤ o.candidate ∧ o = e.regular o.candidate) ∧
      start ≤ o.candidate ∧ o.candidate ≤ stop := by
  unfold Adds
  rw [h.link_splitDate, congrArg Link.continuation h.link_eq]
  constructor
  · rintro ⟨other, e, hother, he, hyields, hfrom, hlow, hhigh, ho⟩
    obtain ⟨e', he', rfl⟩ := Option.map_eq_some_iff.1 hother
    rw [h.entity?_continuation he'] at he
    obtain rfl : e' = e := Option.some.inj he
    exact ⟨⟨e', he', hyields, hfrom, ho⟩, hlow, hhigh⟩
  · rintro ⟨⟨e, he, hyields, hfrom, ho⟩, hlow, hhigh⟩
    exact ⟨e.id, e, by rw [he, Option.map_some], h.entity?_continuation he, hyields, hfrom, hlow,
      hhigh, ho⟩

private theorem Split.effective_in_window_iff (h : s.Split id edit s' link) (howned : s.Owned)
    (hlink : s.link? id = none) (hanchor : h.root.start.Inner) (hdate : edit.splitDate.Inner) :
    ((s'.chain id).Effective o ∧ start ≤ o.start ∧ o.start ≤ stop) ↔
      (((s.chain id).Effective o ∧ start ≤ o.start ∧ o.start ≤ stop) ∧
        o.candidate < edit.splitDate) ∨ s'.Adds link start stop o := by
  rw [h.effective_chain_iff howned hlink hanchor hdate, h.adds_iff]
  -- What the new object adds starts at its candidate.
  have hstart : (∃ e, h.continuation = some e ∧ e.series.Yields o.candidate ∧
      edit.splitDate ≤ o.candidate ∧ o = e.regular o.candidate) → o.start = o.candidate := by
    rintro ⟨e, -, -, -, ho⟩
    exact congrArg Occurrence.start ho
  constructor
  · rintro ⟨⟨ho, hlt⟩ | hnew, hwindow⟩
    · exact Or.inl ⟨⟨ho, hwindow⟩, hlt⟩
    · exact Or.inr ⟨hnew, hstart hnew ▸ hwindow⟩
  · rintro (⟨⟨ho, hwindow⟩, hlt⟩ | ⟨hnew, hwindow⟩)
    · exact ⟨Or.inl ⟨ho, hlt⟩, hwindow⟩
    · exact ⟨Or.inr hnew, (hstart hnew).symm ▸ hwindow⟩

private theorem Split.segment_eq_of_candidate_eq (h : s.Split id edit s' link) (howned : s.Owned)
    (hlink : s.link? id = none) (hanchor : h.root.start.Inner) (hdate : edit.splitDate.Inner)
    {a b : Occurrence} (ha : (s'.chain id).Effective a) (hb : (s'.chain id).Effective b)
    (hcandidate : a.candidate = b.candidate) : a.segment = b.segment := by
  have hroot : ∀ o, (s.chain id).Effective o → o.segment = id := by
    rintro o ⟨g, hg, ho⟩
    rw [chain_of_link?_eq_none h.root_eq hlink, List.mem_singleton] at hg
    rw [ho.segment, hg]
    rfl
  rw [h.effective_chain_iff howned hlink hanchor hdate] at ha hb
  rcases ha with ⟨ha, hlt⟩ | ⟨e, he, -, hle, ha⟩
  · rcases hb with ⟨hb, -⟩ | ⟨-, -, -, hle, -⟩
    · rw [hroot a ha, hroot b hb]
    · rw [hcandidate] at hlt
      exact absurd hlt (not_lt.2 hle)
  · rcases hb with ⟨-, hlt⟩ | ⟨e', he', -, -, hb⟩
    · rw [hcandidate] at hle
      exact absurd hlt (not_lt.2 hle)
    · obtain rfl : e = e' := Option.some.inj (he.symm.trans he')
      rw [ha, hb]
      rfl

private theorem Split.pairwise_earlier (h : s.Split id edit s' link) (howned : s.Owned)
    (hlink : s.link? id = none) (hanchor : h.root.start.Inner) (hdate : edit.splitDate.Inner)
    {ids : List ObjectId} {os : List Occurrence} (hos : os.Pairwise (Before ids))
    (heffective : ∀ o ∈ os, (s'.chain id).Effective o) : os.Pairwise Earlier := by
  refine hos.imp_of_mem ?_
  rintro a b ha hb (hlt | ⟨-, hcandidate, hplace⟩)
  · exact hlt
  · have hsame := h.segment_eq_of_candidate_eq howned hlink hanchor hdate (heffective a ha)
      (heffective b hb) hcandidate
    rw [hsame] at hplace
    exact absurd hplace (lt_irrefl _)

/-- After a split that is made, a query reports what it reported before of the candidates before the
split, and what the new object adds. Equal candidates do not occur twice, so that the list is given
by its members. -/
theorem occurrences_of_split (edits : List Edit) (limits : Limits) (root : ObjectId)
    (edit : BulkEdit) (s' : Store) (link : Link) (start stop : Instant) (max : Option Nat)
    (hedits : ∀ made ∈ edits, made.keepsLinks = true) (hlink : (run edits).link? root = none)
    (hok : (run edits).applyBulkEdit root edit = .ok (s', link))
    (hbefore : (run edits).Ordinary) (hafter : s'.Ordinary) (hstart : start.Ordinary)
    (hstop : stop.Ordinary) (hfits : (run edits).Fits limits root start stop max)
    (hfits' : s'.Fits limits root start stop max) :
    ∃ before after : List Occurrence,
      (run edits).occurrences limits root start stop max = .ok before ∧
      s'.occurrences limits root start stop max = .ok after ∧
      after.Pairwise Earlier ∧
      ∀ o, o ∈ after ↔
        (o ∈ before ∧ o.candidate < edit.splitDate) ∨ s'.Adds link start stop o := by
  obtain ⟨h⟩ := exists_split hok
  have howned := owned_run edits hedits
  have hkeyed := keyed_run edits
  have hkeyed' : s'.Keyed := hkeyed.of_step (.bulk root edit s' link h)
  have hanchor := (hbefore.entity root h.root h.root_eq).1.inner
  have hdate : edit.splitDate.Inner := by
    have hsplit := hafter.link root link (by rw [h.link?_eq, if_pos rfl])
    rw [h.link_splitDate] at hsplit
    exact hsplit.inner
  have hwindow : ∀ o, (s'.chain root).Effective o ∧ start ≤ o.start ∧ o.start ≤ stop ↔
      ((((run edits).chain root).Effective o ∧ start ≤ o.start ∧ o.start ≤ stop) ∧
        o.candidate < edit.splitDate) ∨ s'.Adds link start stop o :=
    fun _ => h.effective_in_window_iff howned hlink hanchor hdate
  rcases lt_or_ge stop start with hlt | hle
  · refine ⟨[], [], occurrences_of_inverted hlt root max, occurrences_of_inverted hlt root max,
      .nil, fun o => ?_⟩
    simp only [List.not_mem_nil, false_and, false_or, false_iff]
    rintro ⟨-, -, -, -, -, -, hlow, hhigh, -⟩
    exact absurd (hlow.trans hhigh) (not_le.2 hlt)
  · rcases Nat.eq_zero_or_pos limits.safetyCap with hcap | hcap
    · refine ⟨[], [], occurrences_of_cap_zero hbefore hkeyed root hstart hstop hcap max,
        occurrences_of_cap_zero hafter hkeyed' root hstart hstop hcap max, .nil, fun o => ?_⟩
      simp only [List.not_mem_nil, false_and, false_or, false_iff]
      intro hadds
      obtain ⟨⟨g, hg, ho⟩, -⟩ := (hwindow o).2 (Or.inr hadds)
      have hempty := hfits'.candidates g hg
      rw [hcap, Nat.cast_zero, nonpos_iff_eq_zero, Set.encard_eq_zero] at hempty
      exact Set.eq_empty_iff_forall_notMem.1 hempty _ ⟨ho.raw, (h.adds_iff.1 hadds).2⟩
    · obtain ⟨before, -, hmem, hreport⟩ := hfits.exists_all hbefore hkeyed hstart hstop hle hcap
      obtain ⟨after, hordered, hmem', hreport'⟩ :=
        hfits'.exists_all hafter hkeyed' hstart hstop hle hcap
      refine ⟨before, after, hreport, hreport', ?_, fun o => ?_⟩
      · exact h.pairwise_earlier howned hlink hanchor hdate hordered fun o ho => ((hmem' o).1 ho).1
      · rw [hmem', hmem, hwindow]

private theorem fiveDays_fits :
    (run [.insert fiveDays, .upsertException fifthToThird]).Fits {} ⟨"daily"⟩
    (.nine 2026 1 1) (.nine 2026 1 31) none := by
  have hroot : (run [.insert fiveDays, .upsertException fifthToThird]).entity? ⟨"daily"⟩ =
    some fiveDays := rfl
  have hsegments := chain_of_link?_eq_none hroot rfl
  refine .of_few (n := 5) ?_ (by decide) ?_
  · intro g hg
    rw [hsegments, List.mem_singleton] at hg
    subst hg
    have hexpand : (fiveDays.series.expand 6 (.nine 2026 1 1) (.nine 2026 1 5)).map
        Expansion.candidates = .ok [.nine 2026 1 1, .nine 2026 1 2, .nine 2026 1 3,
          .nine 2026 1 4, .nine 2026 1 5] := by rfl
    exact Segment.encard_raw_le_of_expand rfl rfl (by decide) (by decide) hexpand (by decide)
  · rw [hsegments]
    decide

private theorem Split.fits_of_fourth {link : Link} (howned : s.Owned)
    (h : s.Split ⟨"daily"⟩ ⟨.nine 2026 1 4, some fromFourth, none⟩ s' link)
    (hstored : h.stored = fiveDays.withRule (dailyUntil (.nine 2026 1 3)))
    (hcontinuation : h.continuation = some (fromFourth.withRule (dailyUntil (.nine 2026 1 5)))) :
    s'.Fits {} ⟨"daily"⟩ (.nine 2026 1 1) (.nine 2026 1 31) none := by
  have hfirst : (Instant.nine 2026 1 1).Inner := by decide
  have hfourth : (Instant.nine 2026 1 4).Inner := by decide
  have hsegments := h.segments_eq howned
  rw [hstored, hcontinuation] at hsegments
  refine .of_few (n := 3) ?_ (by decide) ?_
  · intro g hg
    rw [hsegments, Option.toList_some, List.map_singleton, List.mem_cons, List.mem_singleton] at hg
    rcases hg with rfl | rfl
    · have hexpand : (Series.expand ⟨dailyUntil (.nine 2026 1 3), .nine 2026 1 1⟩ 4
          (.nine 2026 1 1) (.nine 2026 1 3)).map Expansion.candidates =
            .ok [.nine 2026 1 1, .nine 2026 1 2, .nine 2026 1 3] := by rfl
      exact Segment.encard_raw_le_of_expand rfl rfl hfirst (by decide) hexpand (by decide)
    · have hexpand : (Series.expand ⟨dailyUntil (.nine 2026 1 5), .nine 2026 1 4⟩ 4
          (.nine 2026 1 4) (.nine 2026 1 5)).map Expansion.candidates =
            .ok [.nine 2026 1 4, .nine 2026 1 5] := by rfl
      exact Segment.encard_raw_le_of_expand rfl rfl hfourth (by decide) hexpand (by decide)
  · rw [hsegments]
    exact (by decide : 2 * 3 ≤ 1000)

private theorem exists_split_of_fiveDays :
    let s := run [.insert fiveDays, .upsertException fifthToThird]
    ∃ s' : Store, s.applyBulkEdit ⟨"daily"⟩ ⟨.nine 2026 1 4, some fromFourth, none⟩ =
        .ok (s', ⟨⟨"daily"⟩, some ⟨"later"⟩, .nine 2026 1 4⟩) ∧ s'.Ordinary ∧
      ∃ h : s.Split ⟨"daily"⟩ ⟨.nine 2026 1 4, some fromFourth, none⟩ s'
          ⟨⟨"daily"⟩, some ⟨"later"⟩, .nine 2026 1 4⟩,
        h.stored = fiveDays.withRule (dailyUntil (.nine 2026 1 3)) ∧
          h.continuation = some (fromFourth.withRule (dailyUntil (.nine 2026 1 5))) := by
  intro s
  have hroot : s.entity? ⟨"daily"⟩ = some fiveDays := rfl
  have hlink : s.link? ⟨"daily"⟩ = none := rfl
  have hsplit : Rule.splitAt { frequency := .daily, ends := some (.nine 2026 1 5) }
      fiveDays.start (.nine 2026 1 4) =
        .ok ⟨dailyUntil (.nine 2026 1 3), dailyUntil (.nine 2026 1 5)⟩ := by rfl
  have hfresh : fromFourth.id ∉ s.chainIds ⟨"daily"⟩ := by
    rw [chainIds_of_link?_eq_none hroot hlink]
    decide
  have hprepare : s.prepareContinuation ⟨"daily"⟩ none (dailyUntil (.nine 2026 1 5)) fromFourth =
      .ok (fromFourth.withRule (dailyUntil (.nine 2026 1 5))) := by
    unfold prepareContinuation
    rw [if_neg hfresh, if_neg (by decide)]
    rfl
  refine ⟨_, applyBulkEdit_eq_ok hroot rfl hlink hsplit hprepare,
    .of_entries (by decide) (by decide) (by decide),
    { root := fiveDays
      rule := { frequency := .daily, ends := some (.nine 2026 1 5) }
      rules := ⟨dailyUntil (.nine 2026 1 3), dailyUntil (.nine 2026 1 5)⟩
      continuation := some (fromFourth.withRule (dailyUntil (.nine 2026 1 5)))
      root_eq := hroot
      rule_eq := rfl
      splits := hsplit
      fresh := ?_
      link_eq := rfl
      result := rfl }, rfl, rfl⟩
  rintro _ ⟨⟩
  exact ⟨hfresh, rfl⟩

/-- The five days are split at the fourth. The replacement of the fifth day by the third is gone,
and the fifth day is the new object's. -/
theorem occurrences_from_fourth :
    let s := run [.insert fiveDays, .upsertException fifthToThird]
    s.link? ⟨"daily"⟩ = none ∧ ∃ (s' : Store) (link : Link),
      s.applyBulkEdit ⟨"daily"⟩ ⟨.nine 2026 1 4, some fromFourth, none⟩ = .ok (s', link) ∧
      s.Ordinary ∧ s'.Ordinary ∧
      s.Fits {} ⟨"daily"⟩ (.nine 2026 1 1) (.nine 2026 1 31) none ∧
      s'.Fits {} ⟨"daily"⟩ (.nine 2026 1 1) (.nine 2026 1 31) none ∧
      ∃ after : List Occurrence,
        s'.occurrences {} ⟨"daily"⟩ (.nine 2026 1 1) (.nine 2026 1 31) none = .ok after ∧
        (∀ o ∈ after, .nine 2026 1 4 ≤ o.candidate → o.segment = ⟨"later"⟩) ∧
        fromFourth.regular (.nine 2026 1 5) ∈ after := by
  intro s
  obtain ⟨s', hok, hs', split, hstored, hcontinuation⟩ := exists_split_of_fiveDays
  have hlink : s.link? ⟨"daily"⟩ = none := rfl
  have hedits : ∀ made ∈ [Edit.insert fiveDays, .upsertException fifthToThird],
      made.keepsLinks = true := by decide
  have hs : s.Ordinary := .of_entries (by decide) (by decide) (by decide)
  have hfits' := split.fits_of_fourth (owned_run _ hedits) hstored hcontinuation
  obtain ⟨before, after, -, hafter, -, hmem⟩ := occurrences_of_split _ {} ⟨"daily"⟩ _ s' _
    (.nine 2026 1 1) (.nine 2026 1 31) none hedits hlink hok hs hs' (by decide) (by decide)
    fiveDays_fits hfits'
  have hfound := split.entity?_continuation hcontinuation
  refine ⟨hlink, s', _, hok, hs, hs', fiveDays_fits, hfits', after, hafter, ?_,
    (hmem _).2 (Or.inr ?_)⟩
  · intro o ho hlate
    rcases (hmem o).1 ho with ⟨-, hlt⟩ | hadds
    · exact absurd hlt (not_lt.2 hlate)
    · obtain ⟨⟨e, he, -, -, hsame⟩, -⟩ := split.adds_iff.1 hadds
      obtain rfl := Option.some.inj (hcontinuation.symm.trans he)
      rw [hsame]
      rfl
  · have hfifth : (fromFourth.withRule (dailyUntil (.nine 2026 1 5))).series.Yields
        (.nine 2026 1 5) := (Series.isCandidate_eq_ok_true_iff (by decide) (by decide)).1 (by rfl)
    exact ⟨⟨"later"⟩, _, rfl, hfound, hfifth, by decide, by decide, by decide, rfl⟩

end Store

end Recurrence
