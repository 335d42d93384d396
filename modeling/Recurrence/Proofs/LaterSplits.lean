import Recurrence.Proofs.RawCandidates
import Recurrence.Proofs.SplitRules
import Recurrence.Proofs.StoreCoherence

set_option autoImplicit false
set_option relaxedAutoImplicit false

/-!
What is cut off an object by an edit of all following occurrences, and what later such edits of the
same object do to it. The cut is recorded in the rule and in the link, and a later edit puts a new
link in place of the old one. A split that does not come after the one before it only removes; and
the rule sees to that by itself once a split has cut it short, but not if the object was split at
its first occurrence, where the rule stays as it is, or was stored anew behind its link.
-/

namespace Recurrence

open Occurrence

namespace Rule

variable {r : Rule} {anchor date c last : Instant}

private theorem isCandidate_of_endingAt (hlast : ∀ t, r.ends = some t → last ≤ t)
    (hc : (⟨some (r.endingAt last), anchor⟩ : Series).isCandidate c = .ok true) :
    (⟨some r, anchor⟩ : Series).isCandidate c = .ok true ∧ c ≤ last := by
  obtain ⟨hstart, hperiod, hends, hcount⟩ := Series.isCandidate_eq_ok_true_iff_offers.1 hc
  have hle : c ≤ last := hends last rfl
  refine ⟨Series.isCandidate_eq_ok_true_iff_offers.2 ⟨hstart, hperiod, fun t ht => ?_, hcount⟩, hle⟩
  exact hle.trans (hlast t ht)

private theorem InSeries.of_endingAt (hlast : ∀ t, r.ends = some t → last ≤ t)
    (hc : (r.endingAt last).InSeries anchor c) : r.InSeries anchor c ∧ c ≤ last := by
  have hle : c ≤ last := hc.ends last rfl
  refine ⟨⟨hc.recurs.with_bounds r.count r.ends, fun t ht => hle.trans (hlast t ht),
    fun n hn => ?_⟩, hle⟩
  refine lt_of_le_of_lt (Set.encard_le_encard fun b hb => ?_) (hc.count n hn)
  exact ⟨hb.1.with_bounds r.count (some last), hb.2⟩

private theorem within_of_splitAt {rules : SplitRules} {truncated : Rule}
    (hok : r.splitAt anchor date = .ok rules) (htruncated : rules.truncated = some truncated) :
    (∀ c, (⟨some truncated, anchor⟩ : Series).isCandidate c = .ok true →
      (⟨some r, anchor⟩ : Series).isCandidate c = .ok true ∧ c < date) ∧
      ∀ c, truncated.InSeries anchor c → r.InSeries anchor c ∧ c < date := by
  obtain ⟨hdate, last, hfound, hcut⟩ := splitAt_eq_ok hok
  rw [hcut] at htruncated
  obtain ⟨l, rfl, rfl⟩ := Option.map_eq_some_iff.1 htruncated
  have hlt : l < date := Series.lt_of_lastBefore? hdate hfound
  have hdateEnds := (Series.isCandidate_eq_ok_true_iff_offers.1 hdate).2.ends
  have hlast : ∀ t, r.ends = some t → l ≤ t := fun t ht => hlt.le.trans (hdateEnds t ht)
  constructor
  · intro c hc
    obtain ⟨hcandidate, hle⟩ := isCandidate_of_endingAt hlast hc
    exact ⟨hcandidate, hle.trans_lt hlt⟩
  · intro c hc
    obtain ⟨hseries, hle⟩ := hc.of_endingAt hlast
    exact ⟨hseries, hle.trans_lt hlt⟩

end Rule

namespace Segment

variable {g g' g'' : Segment} {c : Instant}

def Lists (g : Segment) (c : Instant) : Prop :=
  g.series.isCandidate c = .ok true ∧ g.contains c = true

/-- Whatever a segment contributes, another one contributes as well. -/
structure Within (g g' : Segment) : Prop where
  lists : ∀ c, g.Lists c → g'.Lists c
  raw : ∀ c, g.Raw c → g'.Raw c

theorem Within.refl (g : Segment) : g.Within g := ⟨fun _ hc => hc, fun _ hc => hc⟩

theorem Within.trans (h : g.Within g') (h' : g'.Within g'') : g.Within g'' where
  lists c hc := h'.lists c (h.lists c hc)
  raw c hc := h'.raw c (h.raw c hc)

end Segment

namespace Store

variable {s s' : Store} {root : ObjectId} {edit : BulkEdit} {link : Link}

def ownSegment? (s : Store) (root : ObjectId) : Option Segment := (s.chain root).segments.head?

private theorem ownSegment?_eq {e : Entity} (he : s.entity? root = some e) :
    ∃ next, s.ownSegment? root = some (s.segment root e e.start next) := by
  unfold ownSegment? chain
  rw [he]
  simp only
  unfold segmentsFrom
  split
  · exact ⟨_, rfl⟩
  · split
    · split <;> exact ⟨_, rfl⟩
    · exact ⟨_, rfl⟩

/-- A split does not come after the one that the object has already. -/
def Recedes (s : Store) (root : ObjectId) (edit : BulkEdit) : Prop :=
  ∀ old, s.link? root = some old → edit.splitDate ≤ old.splitDate

/-- A split that does not come after the one before it only removes. -/
theorem Split.within (h : s.Split root edit s' link) (hrecedes : s.Recedes root edit) {g : Segment}
    (hg : s.ownSegment? root = some g) :
    ∃ g', s'.ownSegment? root = some g' ∧ g'.Within g := by
  obtain ⟨next, hown⟩ := ownSegment?_eq h.root_eq
  obtain ⟨next', hown'⟩ := ownSegment?_eq h.entity?_root
  rw [hg, Option.some.injEq] at hown
  subst hown
  refine ⟨_, hown', ?_⟩
  have hcontains : ∀ c, (s'.segment root h.stored h.stored.start next').contains c = true →
      (s.segment root h.root h.root.start next).contains c = true := by
    intro c hc
    obtain ⟨hfrom, hbefore⟩ := Segment.contains_iff.1 hc
    have hend : (s'.link? root).map Link.splitDate = some edit.splitDate := by
      rw [h.link?_eq, if_pos rfl, Option.map_some, h.link_splitDate]
    refine Segment.contains_iff.2 ⟨h.stored_start ▸ hfrom, fun t ht => ?_⟩
    obtain ⟨old, hold, rfl⟩ := Option.map_eq_some_iff.1 ht
    exact (hbefore edit.splitDate hend).trans_le (hrecedes old hold)
  have hseries : (∀ c, h.stored.series.isCandidate c = .ok true →
      h.root.series.isCandidate c = .ok true) ∧
      ∀ c, h.stored.series.Yields c → h.root.series.Yields c := by
    unfold stored
    cases htruncated : h.rules.truncated with
    | none => exact ⟨fun _ => id, fun _ => id⟩
    | some truncated =>
      obtain ⟨hlists, hraw⟩ := Rule.within_of_splitAt h.splits htruncated
      unfold Entity.series
      rw [h.rule_eq]
      exact ⟨fun c hc => (hlists c hc).1, fun c hc => (hraw c hc).1⟩
  constructor
  · rintro c ⟨hc, hin⟩
    exact ⟨hseries.1 c hc, hcontains c hin⟩
  · intro c hc
    obtain ⟨hyields, hin⟩ := Segment.raw_iff.1 hc
    exact Segment.raw_iff.2 ⟨hseries.2 c hyields, hcontains c hin⟩

def RecedesAll (root : ObjectId) : Store → List BulkEdit → Prop
  | _, [] => True
  | s, edit :: later => (∀ made, s.applyBulkEdit root edit = .ok made → s.Recedes root edit) ∧
      RecedesAll root (s.perform (.bulk root edit)) later

private theorem exists_within_of_recedesAll (later : List BulkEdit) {g : Segment}
    (hrecedes : s.RecedesAll root later) (hg : s.ownSegment? root = some g) :
    ∃ g', ((later.map (Edit.bulk root)).foldl perform s).ownSegment? root = some g' ∧
      g'.Within g := by
  induction later generalizing s g with
  | nil => exact ⟨g, hg, .refl g⟩
  | cons edit later ih =>
    obtain ⟨hfirst, hrest⟩ := hrecedes
    have hstep : ∃ g', (s.perform (.bulk root edit)).ownSegment? root = some g' ∧ g'.Within g := by
      simp only [perform]
      cases hresult : s.applyBulkEdit root edit with
      | error => exact ⟨g, hg, .refl g⟩
      | ok made =>
        obtain ⟨s', link⟩ := made
        obtain ⟨hsplit⟩ := exists_split hresult
        exact hsplit.within (hfirst _ hresult) hg
    obtain ⟨g', hg', hwithin⟩ := hstep
    obtain ⟨g'', hg'', hlater⟩ := ih hrest hg'
    exact ⟨g'', hg'', hlater.trans hwithin⟩

/-- Every candidate of an object that is split comes before the split, so that the rule excludes by
itself what the link excludes. -/
def Sealed (s : Store) (root : ObjectId) : Prop :=
  ∀ link e, s.link? root = some link → s.entity? root = some e →
    ∀ c, e.series.isCandidate c = .ok true → c < link.splitDate

private theorem Sealed.recedes (hs : s.Sealed root) (h : s.Split root edit s' link) :
    s.Recedes root edit := by
  intro old hold
  have hdate := (Rule.splitAt_eq_ok h.splits).1
  refine (hs old h.root hold h.root_eq edit.splitDate ?_).le
  unfold Entity.series
  rw [h.rule_eq]
  exact hdate

/-- An edit does not store an object anew that is split already, and does not split it at its first
candidate. -/
def Seals (root : ObjectId) (s : Store) : Edit → Prop
  | .insert e => e.id = root → s.link? root = none
  | .bulk id edit => id = root → ∀ e made, s.entity? root = some e →
      s.applyBulkEdit root edit = .ok made →
        ∃ c, e.series.isCandidate c = .ok true ∧ c < edit.splitDate
  | _ => True

/-- A split behind a candidate cuts the rule short. -/
private theorem Split.sealed (h : s.Split root edit s' link)
    (hc : ∃ c, h.root.series.isCandidate c = .ok true ∧ c < edit.splitDate) :
    s'.Sealed root := by
  obtain ⟨c, hc, hlt⟩ := hc
  intro own e hown he b hb
  rw [h.link?_eq, if_pos rfl, Option.some.injEq] at hown
  rw [h.entity?_root, Option.some.injEq] at he
  subst hown he
  rw [h.link_splitDate]
  unfold Entity.series at hc
  rw [h.rule_eq] at hc
  obtain ⟨hdate, last, hfound, hcut⟩ := Rule.splitAt_eq_ok h.splits
  cases last with
  | none => exact absurd hfound (Series.lastBefore?_ne_none hdate hc hlt)
  | some last =>
    have hstored : h.stored.series = ⟨some (h.rule.endingAt last), h.root.start⟩ := by
      unfold stored
      rw [hcut]
      rfl
    rw [hstored] at hb
    exact ((Rule.within_of_splitAt h.splits hcut).1 b hb).2

theorem Sealed.perform {edit : Edit} (hs : s.Sealed root) (howned : s.Owned)
    (hseals : s.Seals root edit) (hedit : edit.keepsLinks = true) :
    (s.perform edit).Sealed root := by
  cases edit with
  | insertLink link => simp [Edit.keepsLinks] at hedit
  | insert e =>
    intro link found hlink hfound
    change (s.entities.insert e.id e).find? root = some found at hfound
    rw [Table.find?_insert] at hfound
    split at hfound
    · rename_i hid
      have hnone : s.link? root = none := hseals hid.symm
      exact absurd (hnone.symm.trans hlink) (by simp)
    · exact hs link found hlink hfound
  | upsertException e =>
    have hstep := s.step_perform (.upsertException e)
    generalize s.perform (.upsertException e) = s' at hstep ⊢
    cases hstep <;> exact hs
  | removeException parent date =>
    have hstep := s.step_perform (.removeException parent date)
    generalize s.perform (.removeException parent date) = s' at hstep ⊢
    cases hstep <;> exact hs
  | deleteChain other =>
    intro link e hlink he
    have hold := link?_of_eraseAll hlink
    change ((s.chainIds other).foldl eraseObject s).entity? root = some e at he
    rw [(find?_eraseAll _ s root).1] at he
    split at he
    · cases he
    · exact hs link e hold he
  | bulk id edit =>
    simp only [Store.perform]
    cases hresult : s.applyBulkEdit id edit with
    | error => exact hs
    | ok made =>
      obtain ⟨s', link⟩ := made
      obtain ⟨hsplit⟩ := exists_split hresult
      by_cases hid : id = root
      · subst hid
        exact hsplit.sealed (hseals rfl hsplit.root _ hsplit.root_eq hresult)
      · intro own e hown he
        rw [hsplit.link?_eq, if_neg (Ne.symm hid)] at hown
        rcases hsplit.entity?_eq he with ⟨hnew, rfl⟩ | ⟨hroot, -⟩ | hold
        · -- What takes over is a new object, which is not split.
          exact absurd ((howned _ (hsplit.fresh e hnew).2).2.symm.trans hown) (by simp)
        · exact absurd hroot.symm hid
        · exact hs own e hown hold

def SealsAll (root : ObjectId) : Store → List Edit → Prop
  | _, [] => True
  | s, edit :: edits => s.Seals root edit ∧ SealsAll root (s.perform edit) edits

private theorem SealsAll.sealed_foldl {edits : List Edit} (hseals : s.SealsAll root edits)
    (hs : s.Sealed root) (howned : s.Owned) (hedits : ∀ edit ∈ edits, edit.keepsLinks = true) :
    (edits.foldl perform s).Sealed root ∧ (edits.foldl perform s).Owned := by
  induction edits generalizing s with
  | nil => exact ⟨hs, howned⟩
  | cons edit edits ih =>
    obtain ⟨hkeep, hkeeps⟩ := List.forall_mem_cons.1 hedits
    obtain ⟨hfirst, hrest⟩ := hseals
    exact ih hrest (hs.perform howned hfirst hkeep) (howned.of_step (s.step_perform edit) hkeep)
      hkeeps

private theorem SealsAll.append_iff {edits later : List Edit} :
    s.SealsAll root (edits ++ later) ↔
      s.SealsAll root edits ∧ (edits.foldl perform s).SealsAll root later := by
  induction edits generalizing s with
  | nil => exact (and_iff_right trivial).symm
  | cons edit edits ih =>
    change s.Seals root edit ∧ SealsAll root _ (edits ++ later) ↔ _
    rw [ih, ← and_assoc]
    rfl

private theorem SealsAll.recedesAll (later : List BulkEdit)
    (hseals : s.SealsAll root (later.map (Edit.bulk root))) (hs : s.Sealed root)
    (howned : s.Owned) : s.RecedesAll root later := by
  induction later generalizing s with
  | nil => trivial
  | cons edit later ih =>
    obtain ⟨hfirst, hrest⟩ := hseals
    refine ⟨?_, ih hrest (hs.perform howned hfirst rfl)
      (howned.of_step (s.step_perform _) rfl)⟩
    rintro ⟨s', link⟩ hresult
    obtain ⟨hsplit⟩ := exists_split hresult
    exact hs.recedes hsplit

/-- Whatever run of edits made a store, later splits of an object only remove from what it
contributes itself, as long as none of them comes after the date at which the object is split when
it is made. That is so by itself if the object is never stored anew once it is split and never split at
its first candidate. -/
theorem later_splits_only_remove (edits : List Edit) (root : ObjectId) (later : List BulkEdit)
    (hedits : ∀ edit ∈ edits, edit.keepsLinks = true) :
    ((run edits).RecedesAll root later → ∀ g, (run edits).ownSegment? root = some g →
      ∃ g', (run (edits ++ later.map (Edit.bulk root))).ownSegment? root = some g' ∧
        g'.Within g) ∧
      (empty.SealsAll root (edits ++ later.map (Edit.bulk root)) →
        (run edits).RecedesAll root later) := by
  constructor
  · intro hrecedes g hg
    unfold run
    rw [List.foldl_append]
    exact exists_within_of_recedesAll later hrecedes hg
  · intro hseals
    obtain ⟨hbefore, hafter⟩ := SealsAll.append_iff.1 hseals
    obtain ⟨hs, howned⟩ :=
      hbefore.sealed_foldl (by rintro link e ⟨⟩) (fun id _ => ⟨rfl, rfl⟩) hedits
    exact SealsAll.recedesAll later hafter hs howned

def threeDays : List Edit :=
  [.insert fiveDays, .bulk ⟨"daily"⟩ ⟨.nine 2026 1 4, none, none⟩]

private theorem lists_iff {e : Entity} {next : Option Nat} {c : Instant} :
    (s.segment root e e.start next).Lists c ↔ e.series.isCandidate c = .ok true ∧
      (decide (e.start ≤ c) && ((s.link? root).map Link.splitDate).all fun t => c < t) = true :=
  Iff.rfl

/-- Cut off once more from the second day on, the object keeps the first of its three days. -/
theorem later_split_of_threeDays :
    (∀ edit ∈ threeDays, edit.keepsLinks = true) ∧
      empty.SealsAll ⟨"daily"⟩ (threeDays ++ [.bulk ⟨"daily"⟩ ⟨.nine 2026 1 2, none, none⟩]) ∧
      ∃ g g', (run threeDays).ownSegment? ⟨"daily"⟩ = some g ∧ g.Lists (.nine 2026 1 3) ∧
        (run (threeDays ++ [.bulk ⟨"daily"⟩ ⟨.nine 2026 1 2, none, none⟩])).ownSegment?
          ⟨"daily"⟩ = some g' ∧ g'.Within g := by
  have hedits : ∀ edit ∈ threeDays, edit.keepsLinks = true := by decide
  have hfive : (run [.insert fiveDays]).entity? ⟨"daily"⟩ = some fiveDays := by decide +kernel
  have hthree : (run threeDays).entity? ⟨"daily"⟩ =
      some (fiveDays.withRule (dailyUntil (.nine 2026 1 3))) := by decide +kernel
  have hseals : empty.SealsAll ⟨"daily"⟩
      (threeDays ++ [.bulk ⟨"daily"⟩ ⟨.nine 2026 1 2, none, none⟩]) := by
    refine ⟨fun _ => rfl, fun _ e made he _ => ?_, fun _ e made he _ => ?_, trivial⟩
    · obtain rfl := Option.some.inj (hfive.symm.trans he)
      exact ⟨.nine 2026 1 1, by rfl, by decide⟩
    · obtain rfl := Option.some.inj (hthree.symm.trans he)
      exact ⟨.nine 2026 1 1, by rfl, by decide⟩
  obtain ⟨next, hg⟩ := ownSegment?_eq hthree
  obtain ⟨honly, hrecedes⟩ := later_splits_only_remove threeDays ⟨"daily"⟩
    [⟨.nine 2026 1 2, none, none⟩] hedits
  obtain ⟨g', hg', hwithin⟩ := honly (hrecedes hseals) _ hg
  exact ⟨hedits, hseals, _, g', hg, lists_iff.2 ⟨by rfl, by decide +kernel⟩, hg', hwithin⟩

def noDays : List Edit :=
  [.insert { fiveDays with rule := some { frequency := .daily } },
    .bulk ⟨"daily"⟩ ⟨.nine 2026 1 1, none, none⟩]

/-- The rule is kept as it is, so the object can be cut off again from its fourth day on, and the
three days before that are back. -/
theorem back_after_second_cut :
    ((run noDays).occurrences {} ⟨"daily"⟩ (.nine 2026 1 1) (.nine 2026 1 31) none).toOption =
        some [] ∧
      ((run (noDays ++ [.bulk ⟨"daily"⟩ ⟨.nine 2026 1 4, none, none⟩])).occurrences {} ⟨"daily"⟩
        (.nine 2026 1 1) (.nine 2026 1 31) none).toOption.map (fun os => os.map Occurrence.start) =
        some [.nine 2026 1 1, .nine 2026 1 2, .nine 2026 1 3] ∧
      ¬ ∀ edits root edit g g', (∀ edit ∈ edits, Edit.keepsLinks edit = true) →
        (run edits).ownSegment? root = some g →
        (run (edits ++ [.bulk root edit])).ownSegment? root = some g' →
        ∀ c, g'.Lists c → g.Lists c := by
  refine ⟨?_, ?_, fun hall => ?_⟩
  · simp only [occurrences, Chain.walk, Segment.resolve, sort_eq_insertionSort]
    decide +kernel
  · simp only [occurrences, Chain.walk, Segment.resolve, sort_eq_insertionSort]
    decide +kernel
  · have hcut : (run noDays).entity? ⟨"daily"⟩ =
        some { fiveDays with rule := some { frequency := .daily } } := by decide +kernel
    have hagain : (run (noDays ++ [.bulk ⟨"daily"⟩ ⟨.nine 2026 1 4, none, none⟩])).entity?
        ⟨"daily"⟩ = some (fiveDays.withRule (dailyUntil (.nine 2026 1 3))) := by decide +kernel
    obtain ⟨next, hg⟩ := ownSegment?_eq hcut
    obtain ⟨next', hg'⟩ := ownSegment?_eq hagain
    have hback := hall noDays ⟨"daily"⟩ ⟨.nine 2026 1 4, none, none⟩ _ _ (by decide) hg hg'
      (.nine 2026 1 2) (lists_iff.2 ⟨by rfl, by decide +kernel⟩)
    exact absurd (lists_iff.1 hback).2 (by decide +kernel)

end Store

end Recurrence
