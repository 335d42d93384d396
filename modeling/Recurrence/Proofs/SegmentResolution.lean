import Recurrence.Proofs.CheckedSteps
import Recurrence.Proofs.ExceptionTables
import Recurrence.Proofs.OccurrenceOrder
import Recurrence.Proofs.OrdinaryTime
import Recurrence.Segment

set_option autoImplicit false
set_option relaxedAutoImplicit false

/-!
The occurrences of a segment, said without a window: what becomes of each of its candidates. The
candidates in a window and the exceptions that move others into it yield, together, each occurrence
that starts in the window once.
-/

namespace Recurrence

namespace Series

variable {s : Series} {b c t : Instant}

private theorem Yields.nano_eq (hc : s.Yields c) : c.time.nano = s.anchor.time.nano := by
  obtain ⟨_ | r, anchor⟩ := s
  · exact congrArg (·.time.nano) (show c = anchor from hc)
  · exact hc.recurs.time.nano

theorem Yields.not_leap (hc : s.Yields c) (hs : s.anchor.time.isLeap = false) :
    c.time.isLeap = false := by
  rw [Instant.isLeap_eq_false_iff] at hs ⊢
  rw [hc.nano_eq]
  exact hs

theorem Yields.eq_of_truncate_eq (hb : s.Yields b) (hc : s.Yields c)
    (heq : b.truncate = c.truncate) : b = c := by
  have hnano : b.time.nano = c.time.nano := hb.nano_eq.trans hc.nano_eq.symm
  have hday : b.truncate.day = c.truncate.day := congrArg Instant.day heq
  rw [Instant.day_truncate, Instant.day_truncate] at hday
  have hsecond : b.time.second = c.time.second := by
    rw [← Instant.second_truncate b, heq, Instant.second_truncate]
  apply Instant.eq_of_position_eq
  unfold Instant.position TimeOfDay.position
  rw [hday, hsecond, hnano]

private theorem candidateInSecond?_spec (cap : Nat) (hs : s.anchor.Inner)
    (hleap : s.anchor.time.isLeap = false) (ht : t.Inner) :
    ∃ found, s.candidateInSecond? cap t = .ok found ∧
      ∀ c, found = some c ↔ 1 ≤ cap ∧ s.Yields c ∧ c.truncate = t.truncate := by
  obtain ⟨next, last, hnext, hlast, hlastInner, hspan⟩ := ht.second_span
  have hcut : t.truncate.Inner := ht
  obtain ⟨e, cs, hexpand, hlisting, htake⟩ := exists_listing hs hcut hlastInner (min cap 1)
  refine ⟨e.candidates.head?, ?_, fun c => ?_⟩
  · exact bind_eq_ok_iff.2 ⟨next, hnext, bind_eq_ok_iff.2 ⟨last, hlast,
      bind_eq_ok_iff.2 ⟨e, hexpand, rfl⟩⟩⟩
  · rw [htake, List.head?_take]
    by_cases hcap : 1 ≤ cap
    · have hin : ∀ c, c ∈ cs ↔ s.Yields c ∧ c.truncate = t.truncate := by
        intro c
        rw [hlisting.mem_iff]
        exact and_congr_right fun hc => hspan c (hc.not_leap hleap)
      rw [if_neg (by omega), and_iff_right hcap, ← hin]
      constructor
      · exact List.mem_of_mem_head?
      · intro hc
        obtain ⟨b, rest, rfl⟩ := List.exists_cons_of_ne_nil (List.ne_nil_of_mem hc)
        have hb := (hin b).1 List.mem_cons_self
        have hc := (hin c).1 hc
        rw [List.head?_cons, hb.1.eq_of_truncate_eq hc.1 (hb.2.trans hc.2.symm)]
    · rw [if_pos (by omega)]
      simp [hcap]

end Series

namespace Segment

variable {g : Segment} {c start stop : Instant} {o : Occurrence} {cap : Nat}

/-- A raw candidate of a segment: an instant of its series within its boundaries. -/
structure Raw (g : Segment) (c : Instant) : Prop where
  yields : g.series.Yields c
  from_start : g.startBoundary ≤ c
  before_end : ∀ t, g.endBoundary = some t → c < t

/-- An occurrence of a segment: what becomes of one of its raw candidates, unless it is cancelled.
A replacement stands in for its candidate, and any other candidate takes place as it is. -/
structure Effective (g : Segment) (o : Occurrence) : Prop where
  raw : g.Raw o.candidate
  segment : o.segment = g.id
  form : match g.exceptions.exceptionTo? o.candidate with
    | none => o.replacement = none ∧ o.start = o.candidate ∧
        o.stop = o.candidate.shifted g.duration
    | some e => ∃ r, e.change = .replaced r ∧ o.replacement = some r.id ∧
        o.start = r.start ∧ o.stop = r.stop

/-- A raw candidate in a window that stands there behind as many others as the cap lets an expansion
yield. -/
structure Hidden (g : Segment) (cap : Nat) (start stop c : Instant) : Prop where
  raw : g.Raw c
  inside : start ≤ c ∧ c ≤ stop
  behind : (cap : ℕ∞) ≤ {b | g.Raw b ∧ start ≤ b ∧ b < c}.encard

/-- The times of a segment keep away from the ends of the calendar, and so do those computed from
them; its exceptions stand under their seconds. Leap seconds are not searched, so that a segment
with an anchor in one has no replacements, and ends in one if it ends. -/
structure Resolvable (g : Segment) (cap : Nat) (start stop : Instant) : Prop where
  anchor : g.series.anchor.Inner
  from_start : g.startBoundary.Inner
  to_end : ∀ t, g.endBoundary = some t → t.Inner
  keyed : g.exceptions.Keyed
  exception : ∀ e ∈ g.exceptions.values, e.date.Inner
  leap : g.series.anchor.time.isLeap = true →
    (∀ t, g.endBoundary = some t → t.time.isLeap = true) ∧
      ∀ e ∈ g.exceptions.values, e.change = .cancelled
  stops : ∀ c, g.Raw c → start ≤ c → c ≤ stop → ¬ g.Hidden cap start stop c →
    g.exceptions.exceptionTo? c = none → c.add g.duration = .ok (c.shifted g.duration)

theorem Resolvable.of_fourDigit (hstart : start.FourDigit) (hstop : stop.FourDigit)
    (hanchor : g.series.anchor.FourDigit) (hfrom : g.startBoundary.FourDigit)
    (hend : ∀ t, g.endBoundary = some t → t.FourDigit) (hkeyed : g.exceptions.Keyed)
    (hexception : ∀ e ∈ g.exceptions.values, e.date.FourDigit)
    (hleap : g.series.anchor.time.isLeap = true →
      (∀ t, g.endBoundary = some t → t.time.isLeap = true) ∧
        ∀ e ∈ g.exceptions.values, e.change = .cancelled)
    {a b : Instant} (ha : a.FourDigit) (hb : b.FourDigit) (hduration : g.duration = a.since b) :
    g.Resolvable cap start stop where
  anchor := hanchor.inner
  from_start := hfrom.inner
  to_end t ht := (hend t ht).inner
  keyed := hkeyed
  exception e he := (hexception e he).inner
  leap := hleap
  stops c _ hlow hhigh _ _ := by
    rw [hduration]
    exact (hstart.of_between hstop hlow hhigh).add_since ha hb

theorem contains_iff : g.contains c = true ↔
    g.startBoundary ≤ c ∧ ∀ t, g.endBoundary = some t → c < t := by
  unfold contains
  rw [Bool.and_eq_true, decide_eq_true_eq]
  cases g.endBoundary <;> simp

theorem raw_iff : g.Raw c ↔ g.series.Yields c ∧ g.contains c = true := by
  rw [contains_iff]
  constructor
  · rintro ⟨hyields, hfrom, hbefore⟩
    exact ⟨hyields, hfrom, hbefore⟩
  · rintro ⟨hyields, hfrom, hbefore⟩
    exact ⟨hyields, hfrom, hbefore⟩

theorem Hidden.lt_encard (hc : g.Hidden cap start stop c) :
    (cap : ℕ∞) < {b | g.Raw b ∧ start ≤ b ∧ b ≤ c}.encard := by
  have hfinite : {b | g.Raw b ∧ start ≤ b ∧ b < c}.Finite :=
    (Instant.finite_between start c).subset fun b hb => hb.2
  have hsub : {b | g.Raw b ∧ start ≤ b ∧ b < c} ⊆ {b | g.Raw b ∧ start ≤ b ∧ b ≤ c} :=
    fun b hb => ⟨hb.1, hb.2.1, hb.2.2.le⟩
  have hsub := (Set.ssubset_iff_of_subset hsub).2
    ⟨c, ⟨hc.raw, hc.inside.1, le_rfl⟩, fun hb => lt_irrefl c hb.2.2⟩
  exact hc.behind.trans_lt (hfinite.encard_lt_encard hsub)

theorem not_hidden_of_room (hroom : {b | g.Raw b ∧ start ≤ b ∧ b ≤ stop}.encard ≤ cap) :
    ¬ g.Hidden cap start stop c := by
  intro hc
  have hsub : {b | g.Raw b ∧ start ≤ b ∧ b ≤ c} ⊆ {b | g.Raw b ∧ start ≤ b ∧ b ≤ stop} :=
    fun b hb => ⟨hb.1, hb.2.1, hb.2.2.trans hc.inside.2⟩
  exact absurd (hc.lt_encard.trans_le (Set.encard_le_encard hsub)) (not_lt.2 hroom)

def outcome (g : Segment) (c : Instant) : Option Occurrence :=
  match g.exceptions.exceptionTo? c with
  | none => some ⟨c, c.shifted g.duration, g.id, none, c⟩
  | some e => e.replacement?.map (g.overlay.replaced c)

theorem candidate_of_outcome (ho : g.outcome c = some o) : o.candidate = c := by
  unfold outcome at ho
  split at ho
  · exact (Option.some.inj ho) ▸ rfl
  · obtain ⟨r, -, rfl⟩ := Option.map_eq_some_iff.1 ho
    rfl

theorem effective_iff : g.Effective o ↔ g.Raw o.candidate ∧ g.outcome o.candidate = some o := by
  obtain ⟨start, stop, segment, replacement, candidate⟩ := o
  unfold outcome
  constructor
  · rintro ⟨hraw, hsegment, hform⟩
    refine ⟨hraw, ?_⟩
    change segment = g.id at hsegment
    split at hform
    · rename_i hnone
      obtain ⟨hreplacement, hstart, hstop⟩ := hform
      simp only at hreplacement hstart hstop
      simp only [hreplacement, hstart, hstop, hsegment]
    · rename_i e hsome
      obtain ⟨r, hchange, hreplacement, hstart, hstop⟩ := hform
      simp only at hreplacement hstart hstop
      simp only [Exception.replacement?, hchange, Option.map_some, Overlay.replaced, overlay,
        hreplacement, hstart, hstop, hsegment]
  · rintro ⟨hraw, ho⟩
    split at ho
    · rename_i hnone
      obtain ⟨hstart, hstop, hsegment, hreplacement, -⟩ := Occurrence.mk.inj (Option.some.inj ho)
      refine ⟨hraw, hsegment.symm, ?_⟩
      simp only [hnone]
      exact ⟨hreplacement.symm, hstart.symm, hstop.symm⟩
    · rename_i e hsome
      obtain ⟨r, hreplacement, hr⟩ := Option.map_eq_some_iff.1 ho
      have hchange : e.change = .replaced r := by
        unfold Exception.replacement? at hreplacement
        split at hreplacement
        · cases hreplacement
        · rename_i hchange
          rw [hchange, Option.some.inj hreplacement]
      obtain ⟨hstart, hstop, hsegment, hreplaced, -⟩ := Occurrence.mk.inj hr
      refine ⟨hraw, hsegment.symm, ?_⟩
      simp only [hsome]
      exact ⟨r, hchange, hreplaced.symm, hstart.symm, hstop.symm⟩

theorem Effective.eq_of_candidate_eq {a b : Occurrence} (ha : g.Effective a) (hb : g.Effective b)
    (hcandidate : a.candidate = b.candidate) : a = b := by
  have houtcome := (effective_iff.1 ha).2
  rw [hcandidate, (effective_iff.1 hb).2] at houtcome
  exact (Option.some.inj houtcome).symm

theorem Effective.start_eq (ho : g.Effective o)
    (hnone : g.exceptions.exceptionTo? o.candidate = none) : o.start = o.candidate := by
  have hform := ho.form
  rw [hnone] at hform
  exact hform.2.1

def regular (g : Segment) (c : Instant) : Occurrence := ⟨c, c.shifted g.duration, g.id, none, c⟩

theorem effective_regular (hraw : g.Raw c)
    (hnone : g.exceptions.exceptionTo? c = none) : g.Effective (g.regular c) := by
  refine ⟨hraw, rfl, ?_⟩
  simp only [regular, hnone, and_self]

theorem apply_eq_outcome (hadd : g.exceptions.exceptionTo? c = none →
    c.add g.duration = .ok (c.shifted g.duration)) : g.overlay.apply c = .ok (g.outcome c) := by
  have htable : g.overlay.exceptions = g.exceptions := rfl
  unfold Overlay.apply outcome
  rw [htable]
  cases hexception : g.exceptions.exceptionTo? c with
  | none =>
    have hregular : g.overlay.regular c = .ok ⟨c, c.shifted g.duration, g.id, none, c⟩ :=
      bind_eq_ok_iff.2 ⟨_, hadd hexception, rfl⟩
    simp only [Option.map_none]
    rw [hregular]
    rfl
  | some e =>
    simp only [Option.map_some]
    unfold Exception.replacement?
    cases e.change <;> rfl

structure Spans (g : Segment) (start stop first last : Instant) : Prop where
  first_inner : first.Inner
  last_inner : first ≤ last → last.Inner
  between_iff : ∀ c, g.series.Yields c →
    (first ≤ c ∧ c ≤ last ↔ g.contains c = true ∧ start ≤ c ∧ c ≤ stop)

theorem lastInstant_of_none (hend : g.endBoundary = none) : g.lastInstant stop = .ok stop := by
  unfold lastInstant
  rw [hend]

theorem lastInstant_of_some {boundary before : Instant} (hend : g.endBoundary = some boundary)
    (hbefore : boundary.add (.neg .nanosecond) = .ok before) :
    g.lastInstant stop = .ok (stop.earliest before) := by
  unfold lastInstant
  simp only [hend, hbefore]
  rfl

private theorem exists_spans (hg : g.Resolvable cap start stop) (hstart : start.Inner)
    (hstop : stop.Inner) :
    ∃ last, g.lastInstant stop = .ok last ∧
      g.Spans start stop (start.latest g.startBoundary) last := by
  have hfirst : (start.latest g.startBoundary).Inner := by
    unfold Instant.latest
    split
    · exact hg.from_start
    · exact hstart
  cases hend : g.endBoundary with
  | none =>
    refine ⟨stop, lastInstant_of_none hend, hfirst, fun _ => hstop, fun c _ => ?_⟩
    simp only [contains_iff, hend, Instant.latest_le_iff, reduceCtorEq, false_implies,
      implies_true, and_true]
    tauto
  | some boundary =>
    obtain ⟨before, hbefore, hiff⟩ := (hg.to_end boundary hend).add_neg_nanosecond
    refine ⟨_, lastInstant_of_some hend hbefore, hfirst, ?_, fun c hc => ?_⟩
    · intro hle
      exact hfirst.of_between hstop hle (Instant.le_earliest_iff.1 le_rfl).1
    · have hleap : c.time.isLeap = false ∨ boundary.time.isLeap = true := by
        cases hanchor : g.series.anchor.time.isLeap with
        | false => exact Or.inl (hc.not_leap hanchor)
        | true => exact Or.inr ((hg.leap hanchor).1 boundary hend)
      simp only [contains_iff, hend, Instant.latest_le_iff, Instant.le_earliest_iff, hiff c hleap,
        Option.some.injEq, forall_eq']
      tauto

theorem Effective.eq_replaced {e : Exception} (ho : g.Effective o)
    (hexception : g.exceptions.exceptionTo? o.candidate = some e) :
    ∃ r, e.change = .replaced r ∧ o = g.overlay.replaced o.candidate r := by
  have houtcome := (effective_iff.1 ho).2
  unfold outcome Exception.replacement? at houtcome
  simp only [hexception] at houtcome
  cases hchange : e.change with
  | cancelled => simp [hchange] at houtcome
  | replaced r =>
    simp only [hchange] at houtcome
    exact ⟨r, rfl, (Option.some.inj houtcome).symm⟩

theorem effective_replaced {e : Exception} {r : Replacement} (hraw : g.Raw c)
    (hexception : g.exceptions.exceptionTo? c = some e) (hchange : e.change = .replaced r) :
    g.Effective (g.overlay.replaced c r) := by
  have houtcome : g.outcome c = some (g.overlay.replaced c r) := by
    unfold outcome Exception.replacement?
    simp only [hexception, hchange]
    rfl
  exact effective_iff.2 ⟨hraw, houtcome⟩

/-- An exception moves an occurrence into a window in which its candidate does not lie. -/
structure MovesIn (g : Segment) (start stop : Instant) (e : Exception) (o : Occurrence) : Prop where
  effective : g.Effective o
  exception : g.exceptions.exceptionTo? o.candidate = some e
  inside : start ≤ o.start ∧ o.start ≤ stop
  outside : ¬ (start ≤ o.candidate ∧ o.candidate ≤ stop)

/-- What the search among the exceptions yields for one of them is the occurrence that it moves into
the window, if the cap allows a search. -/
private theorem movedIn?_spec (hg : g.Resolvable cap start stop) {first last : Instant}
    (hspan : g.Spans start stop first last) {e : Exception} (he : e ∈ g.exceptions.values) :
    ∃ moved, g.movedIn? cap start stop first last e = .ok moved ∧
      ∀ o, moved = some o ↔ 1 ≤ cap ∧ g.MovesIn start stop e o := by
  have hgoverns := fun c => hg.keyed.exceptionTo?_eq_some_iff (c := c) he
  unfold movedIn?
  cases hchange : e.change with
  | cancelled =>
    refine ⟨none, rfl, fun o => iff_of_false (by simp) ?_⟩
    rintro ⟨-, ho⟩
    obtain ⟨r, hr, -⟩ := ho.effective.eq_replaced ho.exception
    rw [hchange] at hr
    cases hr
  | replaced r =>
    have hleap : g.series.anchor.time.isLeap = false := by
      by_contra hleap
      have hcancelled := (hg.leap (Bool.eq_true_of_not_eq_false hleap)).2 e he
      rw [hchange] at hcancelled
      cases hcancelled
    have hreplaced : ∀ o, g.MovesIn start stop e o → o = g.overlay.replaced o.candidate r := by
      intro o ho
      obtain ⟨r', hr, hsame⟩ := ho.effective.eq_replaced ho.exception
      cases hchange.symm.trans hr
      exact hsame
    by_cases hwindow : start ≤ r.start ∧ r.start ≤ stop
    · obtain ⟨found, hfound, hiff⟩ :=
        g.series.candidateInSecond?_spec cap hg.anchor hleap (hg.exception e he)
      -- The candidate that the exception governs is the one that the search finds.
      have hmatch : ∀ o, 1 ≤ cap ∧ g.MovesIn start stop e o → found = some o.candidate :=
        fun o ho => (hiff o.candidate).2
          ⟨ho.1, ho.2.effective.raw.yields, (hgoverns _).1 ho.2.exception⟩
      simp only [if_pos hwindow, hfound]
      cases found with
      | none =>
        refine ⟨none, rfl, fun o => iff_of_false (by simp) fun ho => ?_⟩
        cases hmatch o ho
      | some candidate =>
        obtain ⟨hcap, hyields, hsecond⟩ := (hiff candidate).1 rfl
        have hspan := hspan.between_iff candidate hyields
        by_cases hskip : (first ≤ candidate ∧ candidate ≤ last) ∨ g.contains candidate = false
        · refine ⟨none, ?_, fun o => iff_of_false (by simp) fun ho => ?_⟩
          · change (if _ then _ else _) = _
            rw [if_pos (by simpa using hskip)]
            rfl
          · obtain rfl : candidate = o.candidate := Option.some.inj (hmatch o ho)
            rcases hskip with hin | hnot
            · exact ho.2.outside (hspan.1 hin).2
            · rw [(raw_iff.1 ho.2.effective.raw).2] at hnot
              cases hnot
        · refine ⟨some (g.overlay.replaced candidate r), ?_, fun o => ?_⟩
          · change (if _ then _ else _) = _
            rw [if_neg (by simpa using hskip)]
            rfl
          · have hexception := (hgoverns candidate).2 hsecond
            rw [not_or, Bool.not_eq_false] at hskip
            obtain ⟨hout, hcontains⟩ := hskip
            rw [hspan, and_iff_right hcontains] at hout
            constructor
            · intro ho
              cases ho
              exact ⟨hcap, effective_replaced (raw_iff.2 ⟨hyields, hcontains⟩) hexception hchange,
                hexception, hwindow, hout⟩
            · intro ho
              rw [hreplaced o ho.2, ← Option.some.inj (hmatch o ho)]
    · refine ⟨none, ?_, fun o => iff_of_false (by simp) fun ho => ?_⟩
      · simp only [if_neg hwindow]
        rfl
      · have hin := ho.2.inside
        rw [hreplaced o ho.2] at hin
        exact hwindow hin

private theorem exists_regular (hg : g.Resolvable cap start stop) {first last : Instant}
    (hspan : g.Spans start stop first last) :
    ∃ regular, g.occurrencesOf cap first last = .ok regular ∧
      regular.Pairwise (fun a b => a.candidate ≠ b.candidate) ∧
      ∀ o, o ∈ regular ↔ g.Effective o ∧ (start ≤ o.candidate ∧ o.candidate ≤ stop) ∧
        ¬ g.Hidden cap start stop o.candidate := by
  unfold occurrencesOf
  by_cases hle : first ≤ last
  · obtain ⟨e, cs, hexpand, hlisting, htake⟩ :=
      g.series.exists_listing hg.anchor hspan.first_inner (hspan.last_inner hle) cap
    have hlisted : ∀ c, c ∈ cs ↔ g.Raw c ∧ start ≤ c ∧ c ≤ stop := by
      intro c
      rw [hlisting.mem_iff, raw_iff, and_assoc]
      exact and_congr_right fun hyields => hspan.between_iff c hyields
    have hmem : ∀ c, c ∈ e.candidates ↔
        g.Raw c ∧ (start ≤ c ∧ c ≤ stop) ∧ ¬ g.Hidden cap start stop c := by
      intro c
      rw [htake, Ascending.mem_take_iff hlisting.ascending, hlisted, and_assoc]
      refine and_congr_right fun hraw => and_congr_right fun hinside => ?_
      have hset : {b | b ∈ cs ∧ b < c} = {b | g.Raw b ∧ start ≤ b ∧ b < c} := by
        ext b
        simp only [Set.mem_ofPred_eq, hlisted]
        constructor
        · rintro ⟨⟨hb, hlow, -⟩, hlt⟩
          exact ⟨hb, hlow, hlt⟩
        · rintro ⟨hb, hlow, hlt⟩
          exact ⟨⟨hb, hlow, hlt.le.trans hinside.2⟩, hlt⟩
      rw [hset, ← not_le]
      exact not_congr ⟨fun hbehind => ⟨hraw, hinside, hbehind⟩, fun hhidden => hhidden.behind⟩
    have happly : ∀ c ∈ e.candidates, g.overlay.apply c = .ok (g.outcome c) := by
      intro c hc
      obtain ⟨hraw, ⟨hlow, hhigh⟩, hseen⟩ := (hmem c).1 hc
      exact apply_eq_outcome (hg.stops c hraw hlow hhigh hseen)
    refine ⟨e.candidates.filterMap g.outcome, ?_, ?_, fun o => ?_⟩
    · rw [if_pos hle]
      refine bind_eq_ok_iff.2 ⟨e, hexpand, bind_eq_ok_iff.2 ⟨_, mapM_eq_ok_map happly, ?_⟩⟩
      rw [List.filterMap_map]
      rfl
    · have hascending : e.candidates.Pairwise (· < ·) := by
        rw [htake]
        exact hlisting.ascending.take
      refine List.Pairwise.filterMap g.outcome ?_ (hascending.imp ne_of_lt)
      intro a b hne oa hoa ob hob
      rw [candidate_of_outcome hoa, candidate_of_outcome hob]
      exact hne
    · rw [List.mem_filterMap, effective_iff]
      constructor
      · rintro ⟨c, hc, ho⟩
        obtain rfl := candidate_of_outcome ho
        obtain ⟨hraw, hinside, hseen⟩ := (hmem _).1 hc
        exact ⟨⟨hraw, ho⟩, hinside, hseen⟩
      · rintro ⟨⟨hraw, ho⟩, hinside, hseen⟩
        exact ⟨o.candidate, (hmem _).2 ⟨hraw, hinside, hseen⟩, ho⟩
  · refine ⟨[], by rw [if_neg hle]; rfl, .nil, fun o => iff_of_false List.not_mem_nil ?_⟩
    rintro ⟨ho, hinside, -⟩
    obtain ⟨hyields, hcontains⟩ := raw_iff.1 ho.raw
    obtain ⟨hlow, hhigh⟩ := (hspan.between_iff _ hyields).2 ⟨hcontains, hinside⟩
    exact hle (hlow.trans hhigh)

private theorem exists_moved (hg : g.Resolvable cap start stop) {first last : Instant}
    (hspan : g.Spans start stop first last) :
    ∃ moved, g.exceptions.values.mapM (g.movedIn? cap start stop first last) = .ok moved ∧
      (moved.filterMap fun o => o).Pairwise (fun a b => a.candidate ≠ b.candidate) ∧
      ∀ o, o ∈ moved.filterMap (fun o => o) ↔ 1 ≤ cap ∧ g.Effective o ∧
        (start ≤ o.start ∧ o.start ≤ stop) ∧ ¬ (start ≤ o.candidate ∧ o.candidate ≤ stop) := by
  have hmoves := fun (e : Exception) he => movedIn?_spec hg hspan (e := e) he
  choose! moved hmoved hmovesIn using hmoves
  refine ⟨g.exceptions.values.map moved, mapM_eq_ok_map hmoved, ?_, ?_⟩
  · rw [List.filterMap_map]
    -- Different exceptions stand under different seconds, and so do the candidates they move.
    refine List.pairwise_filterMap.2 (hg.keyed.pairwise_values.imp_of_mem ?_)
    intro a b ha hb hne oa hoa ob hob heq
    have hgoverned := ((hmovesIn a ha oa).1 hoa).2.exception
    have hother := ((hmovesIn b hb ob).1 hob).2.exception
    rw [hg.keyed.exceptionTo?_eq_some_iff ha] at hgoverned
    rw [hg.keyed.exceptionTo?_eq_some_iff hb, ← heq] at hother
    exact hne (hgoverned.symm.trans hother)
  · intro o
    rw [List.filterMap_map, List.mem_filterMap]
    constructor
    · rintro ⟨e, he, ho⟩
      obtain ⟨hcap, hmove⟩ := (hmovesIn e he o).1 ho
      exact ⟨hcap, hmove.effective, hmove.inside, hmove.outside⟩
    · rintro ⟨hcap, heffective, hin, hout⟩
      cases hexception : g.exceptions.exceptionTo? o.candidate with
      | none => exact absurd (heffective.start_eq hexception ▸ hin) hout
      | some e =>
        have he := ExceptionTable.exceptionTo?_mem_values hexception
        exact ⟨e, he, (hmovesIn e he o).2 ⟨hcap, heffective, hexception, hin, hout⟩⟩

structure Report (g : Segment) (cap : Nat) (start stop : Instant) (os : List Occurrence) :
    Prop where
  ordered : os.Pairwise Occurrence.Earlier
  mem_iff : ∀ o, o ∈ os ↔ 1 ≤ cap ∧ g.Effective o ∧ (start ≤ o.start ∧ o.start ≤ stop) ∧
    ¬ g.Hidden cap start stop o.candidate

/-- A resolution finds all occurrences that start in the window and are not hidden, however few of
them are asked for. -/
theorem exists_report (hg : g.Resolvable cap start stop) (hstart : start.Inner)
    (hstop : stop.Inner) :
    ∃ os, g.Report cap start stop os ∧
      ∀ max, g.resolve cap start stop max = .ok (os.take max) := by
  rcases lt_or_ge stop start with hlt | hle
  · refine ⟨[], ⟨.nil, fun o => iff_of_false List.not_mem_nil ?_⟩, fun max => ?_⟩
    · rintro ⟨-, -, ⟨hlow, hhigh⟩, -⟩
      exact absurd (hlow.trans hhigh) (not_le.2 hlt)
    · rw [resolve, if_pos (Or.inr hlt), List.take_nil]
      rfl
  · obtain ⟨last, hlast, hspan⟩ := exists_spans hg hstart hstop
    obtain ⟨regular, hregular, hregularDistinct, hmemRegular⟩ := exists_regular hg hspan
    obtain ⟨moved, hmoved, hmovedDistinct, hmemMoved⟩ := exists_moved hg hspan
    refine ⟨Occurrence.sort (regular.filter (fun o => start ≤ o.start ∧ o.start ≤ stop) ++
      moved.filterMap fun o => o), ⟨?_, ?_⟩, ?_⟩
    · refine Occurrence.sort_pairwise_of_candidates (List.pairwise_append.2
        ⟨hregularDistinct.filter _, hmovedDistinct, ?_⟩)
      intro a ha b hb heq
      have hin := ((hmemRegular a).1 (List.mem_of_mem_filter ha)).2.1
      rw [heq] at hin
      exact ((hmemMoved b).1 hb).2.2.2 hin
    · intro o
      rw [Occurrence.mem_sort, List.mem_append, List.mem_filter, hmemRegular, decide_eq_true_eq,
        hmemMoved]
      constructor
      · rintro (⟨⟨ho, hinside, hseen⟩, hwindow⟩ | ⟨hcap, ho, hwindow, hout⟩)
        · -- With a cap of zero every candidate in the window would be hidden.
          have hcap : cap ≠ 0 := fun hzero =>
            hseen ⟨ho.raw, hinside, by rw [hzero]; exact zero_le⟩
          exact ⟨Nat.one_le_iff_ne_zero.2 hcap, ho, hwindow, hseen⟩
        · exact ⟨hcap, ho, hwindow, fun hhidden => hout hhidden.inside⟩
      · rintro ⟨hcap, ho, hwindow, hseen⟩
        by_cases hinside : start ≤ o.candidate ∧ o.candidate ≤ stop
        · exact Or.inl ⟨⟨ho, hinside, hseen⟩, hwindow⟩
        · exact Or.inr ⟨hcap, ho, hwindow, hinside⟩
    · intro max
      unfold resolve
      by_cases hmax : max = 0
      · rw [if_pos (Or.inl hmax), hmax, List.take_zero]
        rfl
      · rw [if_neg (not_or.2 ⟨hmax, not_lt.2 hle⟩)]
        exact bind_eq_ok_iff.2 ⟨last, hlast, bind_eq_ok_iff.2 ⟨regular, hregular,
          bind_eq_ok_iff.2 ⟨moved, hmoved, rfl⟩⟩⟩

end Segment

end Recurrence
