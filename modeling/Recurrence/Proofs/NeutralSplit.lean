import Recurrence.Proofs.BulkSplit
import Recurrence.Proofs.ChainOrder

set_option autoImplicit false
set_option relaxedAutoImplicit false

/-!
An edit of all following occurrences that changes nothing: another object takes over from an
occurrence, lasts as long and has the rule that is left. No query tells the difference as long as
the rule keeps its day of the month, which it loses at a month that is too short for it.
-/

namespace Recurrence

open Occurrence

def Occurrence.span (o : Occurrence) : Instant × Instant := (o.start, o.stop)

instance : IsStrictOrder (Instant × Instant) fun p q => p.1 < q.1 where
  irrefl p := lt_irrefl p.1
  trans _ _ _ := lt_trans

private theorem Segment.unreplaced_of_no_exceptions {g : Segment} (hnone : g.exceptions = ∅) :
    g.Unreplaced := by
  unfold Segment.Unreplaced
  rw [hnone]
  exact nofun

theorem Segment.Resolvable.of_no_exceptions {g : Segment} {cap : Nat} {start stop : Instant}
    (hnone : g.exceptions = ∅) (hstart : start.FourDigit) (hstop : stop.FourDigit)
    (hanchor : g.series.anchor.FourDigit) (hfrom : g.startBoundary.FourDigit)
    (hend : ∀ t, g.endBoundary = some t →
      t.FourDigit ∧ (g.series.anchor.time.isLeap = true → t.time.isLeap = true))
    {a b : Instant} (ha : a.FourDigit) (hb : b.FourDigit) (hduration : g.duration = a.since b) :
    g.Resolvable cap start stop := by
  refine .of_fourDigit hstart hstop hanchor hfrom (fun t ht => (hend t ht).1) ?_ ?_ ?_ ha hb
    hduration
  · rw [hnone]
    exact ExceptionTable.keyed_empty
  · rw [hnone]
    exact nofun
  · intro hleap
    refine ⟨fun t ht => (hend t ht).2 hleap, ?_⟩
    rw [hnone]
    exact nofun

namespace Chain

variable {c : Chain} {cap : Nat} {start stop : Instant}

def Takes (c : Chain) (p : Instant × Instant) : Prop := ∃ o, c.Effective o ∧ o.span = p

structure Plain (c : Chain) : Prop where
  no_exceptions : ∀ g ∈ c.segments, g.exceptions = ∅
  ends : c.segments.Pairwise Segment.EndsBefore

private theorem Plain.takes_of_raw {g : Segment} {t : Instant} (hplain : c.Plain)
    (hg : g ∈ c.segments) (ht : g.Raw t) : c.Takes (t, t.shifted g.duration) := by
  have hnone := hplain.no_exceptions g hg
  exact ⟨g.regular t, ⟨g, hg, (Segment.effective_iff_of_no_exceptions hnone).2 ⟨ht, rfl⟩⟩, rfl⟩

structure Holds (c : Chain) (start stop : Instant) (os : List Occurrence) : Prop where
  ascending : os.Pairwise fun a b => a.start < b.start
  mem_iff : ∀ o, o ∈ os ↔ c.Effective o ∧ start ≤ o.start ∧ o.start ≤ stop

theorem Plain.exists_report (hplain : c.Plain) (hlinked : c.Linked) (hids : c.ids.Nodup)
    (hc : ∀ g ∈ c.segments, g.Resolvable cap start stop) (hstart : start.Inner)
    (hstop : stop.Inner) (hroom : c.HasRoom cap start stop) :
    ∃ all : List Occurrence, c.Holds start stop all ∧
      ∀ max, c.walk cap start stop max = .ok (all.take max) := by
  have hinOrder := inOrder_of_linked hlinked
  rcases Nat.eq_zero_or_pos cap with rfl | hcap
  · refine ⟨[], ⟨.nil, fun o => iff_of_false List.not_mem_nil ?_⟩, fun max => ?_⟩
    · rintro ⟨⟨g, hg, ho⟩, hwindow⟩
      obtain ⟨hraw, hregular⟩ :=
        (Segment.effective_iff_of_no_exceptions (hplain.no_exceptions g hg)).1 ho
      rw [show o.start = o.candidate from congrArg Occurrence.start hregular] at hwindow
      have hempty := Set.encard_eq_zero.1 (nonpos_iff_eq_zero.1 (hroom g hg))
      exact Set.eq_empty_iff_forall_notMem.1 hempty _ ⟨hraw, hwindow⟩
    · rw [List.take_nil]
      exact c.walk_of_cap_zero (hinOrder.symm ▸ hc) hstart hstop max
  · obtain ⟨all, -, hmem, hwalk⟩ := c.exists_report hlinked hids hc hstart hstop hcap hroom
    refine ⟨all, ⟨?_, hmem⟩, hwalk⟩
    have hall := hwalk all.length
    rw [List.take_length] at hall
    refine walk_ascending (hinOrder.symm ▸ hplain.ends) ?_ hall
    rw [hinOrder]
    exact fun g hg => Segment.unreplaced_of_no_exceptions (hplain.no_exceptions g hg)

private theorem Holds.mem_map_span_iff {os : List Occurrence} (hos : c.Holds start stop os)
    {p : Instant × Instant} : p ∈ os.map span ↔ c.Takes p ∧ start ≤ p.1 ∧ p.1 ≤ stop := by
  rw [List.mem_map]
  constructor
  · rintro ⟨o, ho, rfl⟩
    obtain ⟨heffective, hwindow⟩ := (hos.mem_iff o).1 ho
    exact ⟨⟨o, heffective, rfl⟩, hwindow⟩
  · rintro ⟨⟨o, heffective, rfl⟩, hwindow⟩
    exact ⟨o, (hos.mem_iff o).2 ⟨heffective, hwindow⟩, rfl⟩

private theorem Holds.map_span_eq {c' : Chain} {os os' : List Occurrence}
    (hos : c.Holds start stop os)
    (hos' : c'.Holds start stop os') (htakes : ∀ p, c'.Takes p ↔ c.Takes p) :
    os'.map span = os.map span := by
  refine Ascending.eq_of_mem_iff (r := fun p q => p.1 < q.1) (List.pairwise_map.2 hos'.ascending)
    (List.pairwise_map.2 hos.ascending) fun p => ?_
  rw [hos'.mem_map_span_iff, hos.mem_map_span_iff, htakes]

theorem Holds.encard_eq_length {os : List Occurrence} (hos : c.Holds start stop os) :
    {o | c.Effective o ∧ start ≤ o.start ∧ o.start ≤ stop}.encard = os.length := by
  have hset : {o | c.Effective o ∧ start ≤ o.start ∧ o.start ≤ stop} = {o | o ∈ os} :=
    Set.ext fun o => (hos.mem_iff o).symm
  have hearlier : os.Pairwise Earlier := hos.ascending.imp Or.inl
  rw [hset, Ascending.encard_eq_length hearlier]

end Chain

namespace Store

variable {s s' : Store} {id : ObjectId} {root e : Entity} {rule : Rule} {date start stop : Instant}
  {link : Link} {limits : Limits} {p : Instant × Instant}

private theorem exists_report_of_plain (hplain : (s.chain id).Plain)
    (hc : ∀ g ∈ (s.chain id).segments, g.Resolvable limits.safetyCap start stop)
    (hstart : start.Inner) (hstop : stop.Inner)
    (hroom : (s.chain id).HasRoom limits.safetyCap start stop) :
    ∃ all : List Occurrence, (s.chain id).Holds start stop all ∧
      ∀ max : Option Nat, s.occurrences limits id start stop max =
        .ok (all.take (max.getD limits.maxOccurrences)) := by
  rcases lt_or_ge stop start with hlt | hle
  · refine ⟨[], ⟨.nil, fun o => iff_of_false List.not_mem_nil ?_⟩, fun max => ?_⟩
    · rintro ⟨-, hlow, hhigh⟩
      exact absurd (hlow.trans hhigh) (not_le.2 hlt)
    · rw [List.take_nil]
      exact occurrences_of_inverted hlt id max
  · obtain ⟨all, hall, hwalk⟩ :=
      hplain.exists_report (s.chain_linked id) (s.chain_ids_nodup id) hc hstart hstop hroom
    refine ⟨all, hall, fun max => ?_⟩
    rw [occurrences_eq_walk (not_lt.2 hle)]
    exact hwalk _

/-- Another object, which is new, is to take over from an occurrence of an object and to go on in
the same way: it starts there, lasts as long and brings no rule. -/
structure Handover (s : Store) (id : ObjectId) (root : Entity) (rule : Rule) (date : Instant)
    (e : Entity) : Prop where
  root_eq : s.entity? id = some root
  rule_eq : root.rule = some rule
  unlinked : s.link? id = none
  no_exceptions : s.exceptionsOf id = ∅
  occurs : rule.InSeries root.start date
  fresh : s.entity? e.id = none
  start_eq : e.start = date
  duration_eq : e.duration = root.duration
  ruleless : e.rule = none

namespace Handover

theorem exists_split (h : s.Handover id root rule date e) (hanchor : root.start.Inner)
    (hdate : date.Inner) :
    ∃ (s' : Store) (link : Link) (rest : Rule), s.applyBulkEdit id ⟨date, some e, none⟩ =
        .ok (s', link) ∧
      (rule.KeepsDayFrom root.start ⟨some rest, date⟩ ↔ ∀ c, rest.InSeries date c ↔
        rule.InSeries root.start c ∧ date ≤ c) ∧
      ∃ split : s.Split id ⟨date, some e, none⟩ s' link,
        split.continuation = some (e.withRule (some rest)) := by
  obtain ⟨rules, hsplits, -, rest, hrest, hafter⟩ :=
    Rule.splitAt_of_inSeries hanchor hdate h.occurs
  have hids := chainIds_of_link?_eq_none h.root_eq h.unlinked
  have hne : e.id ≠ id := by
    intro heq
    have hfresh := h.fresh
    rw [heq, h.root_eq] at hfresh
    cases hfresh
  have hchain : e.id ∉ s.chainIds id := by
    rw [hids]
    exact fun hmem => hne (List.mem_singleton.1 hmem)
  have hprepare : s.prepareContinuation id none rules.continuation e =
      .ok (e.withRule (some rest)) := by
    have hcontains : s.entities.contains e.id = false := Table.contains_eq_false_iff.2 h.fresh
    unfold prepareContinuation continuationRule
    rw [if_neg hchain, hcontains, h.ruleless, hrest]
    rfl
  refine ⟨_, _, rest, applyBulkEdit_eq_ok h.root_eq h.rule_eq h.unlinked hsplits hprepare, hafter,
    ⟨root, rule, rules, some (e.withRule (some rest)), h.root_eq, h.rule_eq, hsplits, ?_, rfl,
      rfl⟩, rfl⟩
  rintro _ ⟨⟩
  exact ⟨hchain, h.fresh⟩

theorem segments_eq (h : s.Handover id root rule date e) :
    (s.chain id).segments = [s.segment id root root.start none] :=
  chain_of_link?_eq_none h.root_eq h.unlinked

private theorem plain (h : s.Handover id root rule date e) : (s.chain id).Plain := by
  constructor
  · rw [h.segments_eq]
    exact List.forall_mem_singleton.2 h.no_exceptions
  · rw [h.segments_eq]
    exact List.pairwise_singleton _ _

theorem raw_iff (h : s.Handover id root rule date e) {t : Instant} :
    (s.segment id root root.start none).Raw t ↔ rule.InSeries root.start t := by
  have hyields : root.series.Yields t ↔ rule.InSeries root.start t := by
    unfold Entity.series Series.Yields
    rw [h.rule_eq]
  have hopen : (s.segment id root root.start none).endBoundary = none := by
    change (s.link? id).map Link.splitDate = none
    rw [h.unlinked, Option.map_none]
  constructor
  · exact fun ht => hyields.1 ht.yields
  · intro ht
    refine ⟨hyields.2 ht, ht.recurs.from_anchor, ?_⟩
    rw [hopen]
    exact nofun

theorem effective_iff (h : s.Handover id root rule date e) {o : Occurrence} :
    (s.chain id).Effective o ↔ rule.InSeries root.start o.candidate ∧
      o = (s.segment id root root.start none).regular o.candidate := by
  unfold Chain.Effective
  rw [h.segments_eq]
  simp only [List.mem_singleton, exists_eq_left]
  rw [Segment.effective_iff_of_no_exceptions h.no_exceptions, h.raw_iff]

private theorem takes_iff (h : s.Handover id root rule date e) :
    (s.chain id).Takes p ↔
      rule.InSeries root.start p.1 ∧ p.2 = p.1.shifted root.duration := by
  constructor
  · rintro ⟨o, ho, rfl⟩
    obtain ⟨hc, hregular⟩ := h.effective_iff.1 ho
    have hstart : o.start = o.candidate := congrArg Occurrence.start hregular
    have hstop : o.stop = o.candidate.shifted root.duration := congrArg Occurrence.stop hregular
    change rule.InSeries root.start o.start ∧ o.stop = o.start.shifted root.duration
    rw [hstart]
    exact ⟨hc, hstop⟩
  · rintro ⟨hc, hstop⟩
    exact ⟨(s.segment id root root.start none).regular p.1, h.effective_iff.2 ⟨hc, rfl⟩,
      Prod.ext rfl hstop.symm⟩

private theorem resolvable (h : s.Handover id root rule date e) {cap : Nat}
    (hstart : start.FourDigit)
    (hstop : stop.FourDigit) (hanchor : root.start.FourDigit) (hends : root.stop.FourDigit) :
    ∀ g ∈ (s.chain id).segments, g.Resolvable cap start stop := by
  rw [h.segments_eq, List.forall_mem_singleton]
  refine .of_no_exceptions h.no_exceptions hstart hstop hanchor hanchor (fun t ht => ?_) hends
    hanchor rfl
  obtain ⟨link, hlink, -⟩ := Option.map_eq_some_iff.1 ht
  cases h.unlinked.symm.trans hlink

private theorem hasRoom_of_takes_iff (h : s.Handover id root rule date e) {cap : Nat}
    (hplain : (s'.chain id).Plain) (htakes : ∀ p, (s'.chain id).Takes p ↔ (s.chain id).Takes p)
    (hroom : (s.chain id).HasRoom cap start stop) : (s'.chain id).HasRoom cap start stop := by
  unfold Chain.HasRoom at hroom
  rw [h.segments_eq, List.forall_mem_singleton] at hroom
  intro g hg
  have hsub : {t | g.Raw t ∧ start ≤ t ∧ t ≤ stop} ⊆
      {t | (s.segment id root root.start none).Raw t ∧ start ≤ t ∧ t ≤ stop} := by
    rintro t ⟨ht, hwindow⟩
    have htaken := (htakes _).1 (hplain.takes_of_raw hg ht)
    exact ⟨h.raw_iff.2 (h.takes_iff.1 htaken).1, hwindow⟩
  exact (Set.encard_le_encard hsub).trans hroom

section Made

variable {rest : Rule} (h : s.Handover id root rule date e) (howned : s.Owned)
  (split : s.Split id ⟨date, some e, none⟩ s' link)
  (hcontinuation : split.continuation = some (e.withRule (some rest)))

include h in
private theorem root_of_split : split.root = root :=
  Option.some.inj (split.root_eq.symm.trans h.root_eq)

include howned hcontinuation in
private theorem segments_of_split : (s'.chain id).segments =
    [s'.segment id split.stored split.stored.start (some 1),
      s'.segment e.id (e.withRule (some rest)) date none] := by
  rw [split.segments_eq howned, hcontinuation]
  rfl

include h howned hcontinuation in
private theorem plain_of_split : (s'.chain id).Plain := by
  constructor
  · rw [segments_of_split howned split hcontinuation, List.forall_mem_cons,
      List.forall_mem_singleton]
    have hnew : s'.exceptionsOf (e.withRule (some rest)).id = ∅ :=
      split.exceptionsOf_continuation howned hcontinuation
    exact ⟨(split.exceptionsOf_eq id).trans h.no_exceptions, hnew⟩
  · rw [segments_of_split howned split hcontinuation, List.pairwise_pair]
    refine ⟨date, split.boundary_root, le_rfl, fun t ht => ?_⟩
    cases (split.boundary_continuation howned hcontinuation).symm.trans ht

include h howned hcontinuation in
private theorem takes_iff_of_split (hanchor : root.start.Inner) (hdate : date.Inner) :
    (s'.chain id).Takes p ↔
      ((rule.InSeries root.start p.1 ∧ p.1 < date) ∨ (rest.InSeries date p.1 ∧ date ≤ p.1)) ∧
        p.2 = p.1.shifted root.duration := by
  have heffective : ∀ o, (s'.chain id).Effective o ↔
      ((s.chain id).Effective o ∧ o.candidate < date) ∨
        ∃ e', split.continuation = some e' ∧ e'.series.Yields o.candidate ∧ date ≤ o.candidate ∧
          o = e'.regular o.candidate := by
    intro o
    refine split.effective_chain_iff howned h.unlinked ?_ hdate
    rw [h.root_of_split split]
    exact hanchor
  have hyields : ∀ c, (e.withRule (some rest)).series.Yields c ↔ rest.InSeries date c := by
    intro c
    rw [← h.start_eq]
    rfl
  have hspan : ∀ c, ((e.withRule (some rest)).regular c).span = (c, c.shifted root.duration) := by
    intro c
    rw [← h.duration_eq]
    rfl
  constructor
  · rintro ⟨o, ho, rfl⟩
    rcases (heffective o).1 ho with ⟨ho, hlt⟩ | ⟨e', he', hc, hle, hregular⟩
    · obtain ⟨hc, hstop⟩ := h.takes_iff.1 ⟨o, ho, rfl⟩
      have hstart : o.start = o.candidate :=
        congrArg Occurrence.start (h.effective_iff.1 ho).2
      rw [← hstart] at hlt
      exact ⟨Or.inl ⟨hc, hlt⟩, hstop⟩
    · obtain rfl := Option.some.inj (hcontinuation.symm.trans he')
      rw [hregular, hspan]
      exact ⟨Or.inr ⟨(hyields _).1 hc, hle⟩, rfl⟩
  · rintro ⟨⟨hc, hlt⟩ | ⟨hc, hle⟩, hstop⟩
    · exact ⟨(s.segment id root root.start none).regular p.1, (heffective _).2
        (Or.inl ⟨h.effective_iff.2 ⟨hc, rfl⟩, hlt⟩), Prod.ext rfl hstop.symm⟩
    · refine ⟨(e.withRule (some rest)).regular p.1, (heffective _).2 (Or.inr
        ⟨_, hcontinuation, (hyields _).2 hc, hle, rfl⟩), ?_⟩
      rw [hspan]
      exact Prod.ext rfl hstop.symm

include h howned hcontinuation in
/-- The chain takes place at the same times as before exactly if what is left of the rule has the
series from the date on. -/
private theorem takes_same_iff_of_split (hanchor : root.start.Inner) (hdate : date.Inner) :
    (∀ p, (s'.chain id).Takes p ↔ (s.chain id).Takes p) ↔
      ∀ c, rest.InSeries date c ↔ rule.InSeries root.start c ∧ date ≤ c := by
  have hbefore := fun p => h.takes_iff (p := p)
  have hafter := fun p => h.takes_iff_of_split (p := p) howned split hcontinuation hanchor hdate
  constructor
  · intro hall c
    have hc := hall (c, c.shifted root.duration)
    rw [hbefore, hafter, and_iff_left rfl, and_iff_left rfl] at hc
    constructor
    · intro hrest
      have hle : date ≤ c := hrest.recurs.from_anchor
      exact ⟨hc.1 (Or.inr ⟨hrest, hle⟩), hle⟩
    · rintro ⟨hroot, hle⟩
      rcases hc.2 hroot with ⟨-, hlt⟩ | ⟨hrest, -⟩
      · exact absurd hlt (not_lt.2 hle)
      · exact hrest
  · intro hrest p
    rw [hbefore, hafter, hrest]
    refine and_congr_left fun _ => ⟨?_, fun hc => ?_⟩
    · rintro (⟨hc, -⟩ | ⟨⟨hc, -⟩, -⟩)
      · exact hc
      · exact hc
    · rcases lt_or_ge p.1 date with hlt | hle
      · exact Or.inl ⟨hc, hlt⟩
      · exact Or.inr ⟨⟨hc, hle⟩, hle⟩

include h howned hcontinuation in
private theorem resolvable_of_split {cap : Nat} (hstart : start.FourDigit) (hstop : stop.FourDigit)
    (hanchor : root.start.FourDigit) (hends : root.stop.FourDigit) (hdate : date.FourDigit) :
    ∀ g ∈ (s'.chain id).segments, g.Resolvable cap start stop := by
  have hplain := (h.plain_of_split howned split hcontinuation).no_exceptions
  have hroot := h.root_of_split split
  have hstored : split.stored.start = root.start := split.stored_start.trans (hroot ▸ rfl)
  have hduration : split.stored.duration = root.duration :=
    split.stored_duration.trans (hroot ▸ rfl)
  -- An object that starts in a leap second is split in one.
  have hleap : root.start.time.isLeap = true → date.time.isLeap = true := by
    unfold TimeOfDay.isLeap
    rw [h.occurs.recurs.time.nano]
    exact fun hleap => hleap
  rw [segments_of_split howned split hcontinuation] at hplain ⊢
  rw [List.forall_mem_cons, List.forall_mem_singleton] at hplain ⊢
  constructor
  · have hfrom : split.stored.start.FourDigit := by
      rw [hstored]
      exact hanchor
    refine .of_no_exceptions hplain.1 hstart hstop hfrom hfrom ?_ hends hanchor hduration
    intro t ht
    obtain rfl := Option.some.inj (split.boundary_root.symm.trans ht)
    exact ⟨hdate, fun hanchorLeap => hleap (hstored ▸ hanchorLeap)⟩
  · have hfrom : e.start.FourDigit := by
      rw [h.start_eq]
      exact hdate
    refine .of_no_exceptions hplain.2 hstart hstop hfrom hdate ?_ hends hanchor h.duration_eq
    intro t ht
    cases (split.boundary_continuation howned hcontinuation).symm.trans ht

end Made

end Handover

/-- Whatever run of edits made a store, another object can take over an object without exceptions
and go on in the same way. The chain takes place at the same times as before exactly if the new
object keeps the day of the month, and then no query that the limits leave room for tells the
difference. -/
theorem occurrences_of_handover (edits : List Edit) (id : ObjectId) (root e : Entity) (rule : Rule)
    (date : Instant) (hedits : ∀ made ∈ edits, made.keepsLinks = true)
    (h : (run edits).Handover id root rule date e) (hanchor : root.start.FourDigit)
    (hends : root.stop.FourDigit) (hdate : date.FourDigit) :
    ∃ (s' : Store) (link : Link) (rest : Rule),
      (run edits).applyBulkEdit id ⟨date, some e, none⟩ = .ok (s', link) ∧
      s'.entity? e.id = some (e.withRule (some rest)) ∧
      (rule.KeepsDayFrom root.start ⟨some rest, date⟩ ↔
        ∀ p, (s'.chain id).Takes p ↔ ((run edits).chain id).Takes p) ∧
      (rule.KeepsDayFrom root.start ⟨some rest, date⟩ →
        ∀ (limits : Limits) (start stop : Instant) (max : Option Nat), start.FourDigit →
          stop.FourDigit → (run edits).Fits limits id start stop max →
          ∃ before after : List Occurrence,
            (run edits).occurrences limits id start stop max = .ok before ∧
            s'.occurrences limits id start stop max = .ok after ∧
            after.map span = before.map span) := by
  have howned := owned_run edits hedits
  obtain ⟨s', link, rest, hok, hrest, split, hcontinuation⟩ :=
    h.exists_split hanchor.inner hdate.inner
  have hplain' := h.plain_of_split howned split hcontinuation
  have hsame : rule.KeepsDayFrom root.start ⟨some rest, date⟩ ↔
      ∀ p, (s'.chain id).Takes p ↔ ((run edits).chain id).Takes p :=
    hrest.trans
      (h.takes_same_iff_of_split howned split hcontinuation hanchor.inner hdate.inner).symm
  have hmade : s'.entity? e.id = some (e.withRule (some rest)) :=
    split.entity?_continuation hcontinuation
  refine ⟨s', link, rest, hok, hmade, hsame,
    fun hkeeps limits start stop max hstart hstop hfits => ?_⟩
  have htakes := hsame.1 hkeeps
  have hroom' := h.hasRoom_of_takes_iff hplain' htakes hfits.candidates
  obtain ⟨before, hbefore, hreport⟩ := exists_report_of_plain h.plain
    (h.resolvable hstart hstop hanchor hends) hstart.inner hstop.inner hfits.candidates
  obtain ⟨after, hafter, hreport'⟩ := exists_report_of_plain hplain'
    (h.resolvable_of_split howned split hcontinuation hstart hstop hanchor hends hdate)
    hstart.inner hstop.inner hroom'
  have hspans : after.map span = before.map span := hbefore.map_span_eq hafter htakes
  have htotal : before.length ≤ max.getD limits.maxOccurrences := by
    have htotal := hfits.total
    rwa [hbefore.encard_eq_length, Nat.cast_le] at htotal
  have hlength : after.length = before.length := by
    have hlengths := congrArg List.length hspans
    rwa [List.length_map, List.length_map] at hlengths
  refine ⟨before, after, ?_, ?_, hspans⟩
  · rw [hreport, List.take_of_length_le htotal]
  · rw [hreport', List.take_of_length_le (hlength ▸ htotal)]

/-- The rule to recur on the 31st of every month until the end of April 2026, or on the last day of
a shorter month. -/
def monthly : Rule := { frequency := .monthly, ends := some (.nine 2026 4 30) }

def monthEnds : Entity where
  id := ⟨"monthly"⟩
  organization := ⟨"office"⟩
  details := .available
  start := .nine 2026 1 31
  stop := .nine 2026 2 1
  rule := some monthly

def spanning (start stop : Instant) : Entity :=
  { monthEnds with id := ⟨"later"⟩, start, stop, rule := none }

private theorem handover_of_monthEnds {start stop : Instant} (hstart : start.Inner)
    (hoccurs : monthEnds.series.isCandidate start = .ok true)
    (hduration : stop.since start = monthEnds.duration) :
    (run [.insert monthEnds]).Handover ⟨"monthly"⟩ monthEnds monthly start
      (spanning start stop) where
  root_eq := rfl
  rule_eq := rfl
  unlinked := rfl
  no_exceptions := rfl
  occurs := (Series.isCandidate_eq_ok_true_iff (by decide) hstart).1 hoccurs
  fresh := rfl
  start_eq := rfl
  duration_eq := hduration
  ruleless := rfl

private theorem monthEnds_fits : (run [.insert monthEnds]).Fits {} ⟨"monthly"⟩ (.nine 2026 1 1)
    (.nine 2026 4 30) none := by
  have hroot : (run [.insert monthEnds]).entity? ⟨"monthly"⟩ = some monthEnds := rfl
  have hsegments := chain_of_link?_eq_none hroot rfl
  refine .of_few (n := 4) ?_ (by decide) ?_
  · intro g hg
    rw [hsegments, List.mem_singleton] at hg
    subst hg
    have hexpand : (monthEnds.series.expand 5 (.nine 2026 1 31) (.nine 2026 4 30)).map
        Expansion.candidates = .ok [.nine 2026 1 31, .nine 2026 2 28, .nine 2026 3 31,
          .nine 2026 4 30] := by decide +kernel
    exact Segment.encard_raw_le_of_expand rfl rfl (by decide) (by decide) hexpand (by decide)
  · rw [hsegments]
    decide

/-- Taken over at the end of March, the month ends go on, although April is shorter. -/
theorem occurrences_from_long_month :
    let s := run [.insert monthEnds]
    let e := spanning (.nine 2026 3 31) (.nine 2026 4 1)
    s.Handover ⟨"monthly"⟩ monthEnds monthly (.nine 2026 3 31) e ∧
      ∃ (s' : Store) (link : Link), s.applyBulkEdit ⟨"monthly"⟩ ⟨.nine 2026 3 31, some e, none⟩ =
          .ok (s', link) ∧
        ∃ before after : List Occurrence,
          s.occurrences {} ⟨"monthly"⟩ (.nine 2026 1 1) (.nine 2026 4 30) none = .ok before ∧
          s'.occurrences {} ⟨"monthly"⟩ (.nine 2026 1 1) (.nine 2026 4 30) none = .ok after ∧
          after.map span = before.map span := by
  intro s e
  have hedits : ∀ made ∈ [Edit.insert monthEnds], made.keepsLinks = true := by decide
  have hhandover : s.Handover ⟨"monthly"⟩ monthEnds monthly (.nine 2026 3 31) e :=
    handover_of_monthEnds (by decide) (by decide +kernel) (by decide)
  obtain ⟨s', link, rest, hok, -, -, hqueries⟩ := occurrences_of_handover _ ⟨"monthly"⟩ monthEnds e
    monthly (.nine 2026 3 31) hedits hhandover (by decide) (by decide) (by decide)
  have hday : (Calendar.date monthEnds.start.day).dayOfMonth ≤
      (Calendar.date (Instant.nine 2026 3 31).day).dayOfMonth := by decide
  have hkeeps : monthly.KeepsDayFrom monthEnds.start ⟨some rest, .nine 2026 3 31⟩ :=
    fun _ _ _ => (min_le_left _ _).trans hday
  exact ⟨hhandover, s', link, hok, hqueries hkeeps {} (.nine 2026 1 1) (.nine 2026 4 30) none
    (by decide) (by decide) monthEnds_fits⟩

/-- Taken over at the end of February they stay on the 28th. -/
theorem occurrences_from_short_month :
    let s := run [.insert monthEnds]
    let e := spanning (.nine 2026 2 28) (.nine 2026 3 1)
    let s' := run [.insert monthEnds, .bulk ⟨"monthly"⟩ ⟨.nine 2026 2 28, some e, none⟩]
    s.Handover ⟨"monthly"⟩ monthEnds monthly (.nine 2026 2 28) e ∧
      s.Fits {} ⟨"monthly"⟩ (.nine 2026 1 1) (.nine 2026 4 30) none ∧
      (s.occurrences {} ⟨"monthly"⟩ (.nine 2026 1 1) (.nine 2026 4 30) none).toOption.map
        (fun os => os.map Occurrence.start) = some [.nine 2026 1 31, .nine 2026 2 28,
          .nine 2026 3 31, .nine 2026 4 30] ∧
      (s'.occurrences {} ⟨"monthly"⟩ (.nine 2026 1 1) (.nine 2026 4 30) none).toOption.map
        (fun os => os.map Occurrence.start) = some [.nine 2026 1 31, .nine 2026 2 28,
          .nine 2026 3 28, .nine 2026 4 28] := by
  refine ⟨handover_of_monthEnds (by decide) (by decide +kernel) (by decide), monthEnds_fits,
    ?_, ?_⟩
  · simp only [occurrences, Chain.walk, Segment.resolve, sort_eq_insertionSort]
    decide +kernel
  · simp only [occurrences, Chain.walk, Segment.resolve, sort_eq_insertionSort]
    decide +kernel

end Store

end Recurrence
