import Recurrence.Proofs.BoundedPredecessors
import Recurrence.Proofs.SplitRules
import Recurrence.Proofs.StoredChains
import Recurrence.Proofs.StoreRuns

set_option autoImplicit false
set_option relaxedAutoImplicit false

/-!
When an edit of this and all following occurrences is made, by which check it is refused otherwise,
and what it changes, for every store and every date. The edit is also given as a program that reads
the store and writes to it in place: nothing is written before the last check has passed.
-/

namespace Recurrence

namespace Series

variable {r : Rule} {anchor date : Instant}

private theorem isCandidate_of_not_begins (hstart : ¬ (⟨some r, anchor⟩ : Series).Begins) :
    (⟨some r, anchor⟩ : Series).isCandidate date = .error .outOfRange := by
  have hcheck : (Pattern.of r anchor).checkStart = .error .outOfRange := by
    cases hresult : (Pattern.of r anchor).checkStart with
    | error e => rfl
    | ok =>
      refine absurd ?_ hstart
      rintro _ ⟨⟩
      exact hresult
  unfold isCandidate first? expand
  simp only [hcheck]
  rfl

private theorem isCandidate_eq_ok_false_iff :
    (⟨some r, anchor⟩ : Series).isCandidate date = .ok false ↔
      (⟨some r, anchor⟩ : Series).Begins ∧ ¬ (⟨some r, anchor⟩ : Series).Offers date := by
  constructor
  · intro h
    refine ⟨?_, fun hdate => ?_⟩
    · by_contra hstart
      rw [isCandidate_of_not_begins hstart] at h
      cases h
    · rw [isCandidate_iff_offers.2 hdate] at h
      cases h
  · rintro ⟨hstart, hdate⟩
    obtain ⟨found, hfound⟩ : ∃ found, (⟨some r, anchor⟩ : Series).first? 1 date date = .ok found :=
      exists_first? hstart
    have hresult : (⟨some r, anchor⟩ : Series).isCandidate date = .ok (found = some date) :=
      bind_eq_ok_iff.2 ⟨found, hfound, rfl⟩
    cases hb : decide (found = some date) with
    | false => rw [hresult, hb]
    | true =>
      rw [hb] at hresult
      exact absurd (isCandidate_iff_offers.1 hresult) hdate

end Series

namespace Rule

variable {r : Rule} {anchor date : Instant} {e : SplitError}

/-- What a split at a date leaves of the rule itself: the rule up to the last raw candidate before
the date, or the rule as it is if there is none. -/
inductive Kept (r : Rule) (anchor date : Instant) : Rule → Prop
  | whole (hfirst : ∀ c, (⟨some r, anchor⟩ : Series).Offers c → ¬ c < date) :
      Kept r anchor date r
  | cut (last : Instant)
      (hlast : IsGreatest {c | (⟨some r, anchor⟩ : Series).Offers c ∧ c < date} last) :
      Kept r anchor date { r with ends := some last }

/-- What a split at a date leaves to the object that takes over: the rule with the part of its count
that the raw candidates before the date do not use. -/
inductive Left (r : Rule) (anchor date : Instant) : Rule → Prop
  | uncounted (hcount : r.count = none) : Left r anchor date r
  | counted (count left : Word32) (hcount : r.count = some count)
      (hleft : {c | (⟨some r, anchor⟩ : Series).Offers c ∧ c < date}.encard + left.val.toNat =
        count.val.toNat) :
      Left r anchor date { r with count := some left }

private theorem exists_left (hdate : (⟨some r, anchor⟩ : Series).Offers date) :
    ∃ left, r.afterUsing ((Pattern.of r anchor).numberBefore date) = some left ∧
      r.Left anchor date left := by
  have hcount : ∀ n, r.count = some n → (Pattern.of r anchor).numberBefore date < n.val.toNat :=
    (hdate.within r rfl).count
  obtain ⟨left, hleft⟩ := exists_afterUsing hcount
  refine ⟨left, hleft, ?_⟩
  rcases afterUsing_eq_some hleft with ⟨hnone, rfl⟩ | ⟨count, n, hn, hval, rfl⟩
  · exact .uncounted hnone
  · have hlt := hcount count hn
    refine .counted count n hn ?_
    rw [hdate.encard_before, ← Nat.cast_add, Nat.cast_inj]
    omega

private theorem exists_splitAt (hdate : (⟨some r, anchor⟩ : Series).Offers date) :
    ∃ rules left, r.splitAt anchor date = .ok rules ∧
      r.Kept anchor date (rules.truncated.getD r) ∧
      rules.continuation = some left ∧ r.Left anchor date left := by
  obtain ⟨hstart, hoffers⟩ := Series.offers_of_rule.1 hdate
  obtain ⟨last, hlast, hnone, hsome⟩ := hdate.exists_lastBefore?
  obtain ⟨left, hleft, hmeaning⟩ := exists_left hdate
  obtain ⟨k, hk⟩ := hoffers.period
  have hcount : (⟨some r, anchor⟩ : Series).countBefore date =
      .ok (min ((Pattern.of r anchor).numberBefore date) Pattern.countLimit) := by
    rw [Series.countBefore_of_checkStart hstart, Pattern.countBefore_eq_min hk]
  have hsplit : r.splitAt anchor date = .ok ⟨last.map r.endingAt,
      r.afterUsing (min ((Pattern.of r anchor).numberBefore date) Pattern.countLimit)⟩ := by
    unfold splitAt splitStep
    simp only [Series.isCandidate_iff_offers.2 hdate, hlast, hcount]
    rfl
  refine ⟨_, left, hsplit, ?_, (afterUsing_min hoffers.count).trans hleft, hmeaning⟩
  cases last with
  | none => exact .whole (hnone rfl)
  | some c => exact .cut c (hsome c rfl)

private theorem splitAt_eq_error_iff : r.splitAt anchor date = .error e ↔
    (¬ (⟨some r, anchor⟩ : Series).Begins ∧ e = .calendar .outOfRange) ∨
      ((⟨some r, anchor⟩ : Series).Begins ∧ ¬ (⟨some r, anchor⟩ : Series).Offers date) ∧
        e = .notAnOccurrence date r := by
  by_cases hstart : (⟨some r, anchor⟩ : Series).Begins
  · by_cases hdate : (⟨some r, anchor⟩ : Series).Offers date
    · obtain ⟨rules, -, hrules, -⟩ := exists_splitAt hdate
      simp [hrules, hstart, hdate]
    · have hrefused : r.splitAt anchor date = .error (.notAnOccurrence date r) := by
        unfold splitAt splitStep
        simp only [Series.isCandidate_eq_ok_false_iff.2 ⟨hstart, hdate⟩]
        rfl
      simp [hrefused, hstart, hdate, eq_comm]
  · have hrefused : r.splitAt anchor date = .error (.calendar .outOfRange) := by
      unfold splitAt splitStep
      simp only [Series.isCandidate_of_not_begins hstart]
      rfl
    simp [hrefused, hstart, eq_comm]

end Rule

namespace Store

variable {s s' : Store} {id : ObjectId} {edit : BulkEdit} {link : Link} {root e : Entity}
  {rule : Rule} {error : EditError}

/-- An object that recurs by a rule and is not continued by an object that exists. -/
structure Splittable (s : Store) (id : ObjectId) (root : Entity) (rule : Rule) : Prop where
  root_eq : s.entities.find? id = some root
  rule_eq : root.rule = some rule
  uncontinued : ∀ link c, s.links.find? id = some link → link.continuation = some c →
    s.entities.find? c = none

structure SplittableAt (s : Store) (id : ObjectId) (date : Instant) (root : Entity) (rule : Rule) :
    Prop extends s.Splittable id root rule where
  offered : (⟨some rule, root.start⟩ : Series).Offers date

structure Eligible (s : Store) (id : ObjectId) (ruleText : Option String) (e : Entity) : Prop where
  apart : ¬ s.OnWay id e.id
  fresh : s.entities.find? e.id = none
  parses : ∀ text, ruleText = some text → ∃ r, Rule.ofText text = .ok r

def Admits (s : Store) (id : ObjectId) (edit : BulkEdit) : Prop :=
  ∃ root rule, s.SplittableAt id edit.splitDate root rule ∧
    ∀ e, edit.continuation = some e → s.Eligible id edit.ruleText e

/-- The first check that an edit does not pass, and its error. -/
inductive Refuses (s : Store) (id : ObjectId) (edit : BulkEdit) : EditError → Prop
  | notFound (hroot : s.entities.find? id = none) : Refuses s id edit (.notFound id)
  | notRecurring (root : Entity) (hroot : s.entities.find? id = some root)
      (hrule : root.rule = none) : Refuses s id edit (.notRecurring id)
  | alreadyContinues (root : Entity) (rule : Rule) (link : Link) (c : ObjectId)
      (hroot : s.entities.find? id = some root) (hrule : root.rule = some rule)
      (hlink : s.links.find? id = some link) (hnext : link.continuation = some c)
      (hexists : s.entities.find? c ≠ none) : Refuses s id edit (.alreadyContinues id c)
  /-- The one computation that leaves the calendar. -/
  | calendar (root : Entity) (rule : Rule) (hsplittable : s.Splittable id root rule)
      (hstart : ¬ (⟨some rule, root.start⟩ : Series).Begins) :
      Refuses s id edit (.split (.calendar .outOfRange))
  | notAnOccurrence (root : Entity) (rule : Rule) (hsplittable : s.Splittable id root rule)
      (hstart : (⟨some rule, root.start⟩ : Series).Begins)
      (hdate : ¬ (⟨some rule, root.start⟩ : Series).Offers edit.splitDate) :
      Refuses s id edit (.split (.notAnOccurrence edit.splitDate rule))
  | closesCycle (root : Entity) (rule : Rule) (e : Entity)
      (hsplittable : s.SplittableAt id edit.splitDate root rule) (he : edit.continuation = some e)
      (hway : s.OnWay id e.id) : Refuses s id edit .closesCycle
  | alreadyExists (root : Entity) (rule : Rule) (e : Entity)
      (hsplittable : s.SplittableAt id edit.splitDate root rule) (he : edit.continuation = some e)
      (hway : ¬ s.OnWay id e.id) (hexists : s.entities.find? e.id ≠ none) :
      Refuses s id edit (.alreadyExists e.id)
  | ruleText (root : Entity) (rule : Rule) (e : Entity) (text : String) (fault : RuleTextError)
      (hsplittable : s.SplittableAt id edit.splitDate root rule) (he : edit.continuation = some e)
      (hway : ¬ s.OnWay id e.id) (hfresh : s.entities.find? e.id = none)
      (htext : edit.ruleText = some text) (hfault : Rule.ofText text = .error fault) :
      Refuses s id edit (.ruleText fault)

private theorem recurring_eq_error_iff : s.recurring id = .error error ↔
    (s.entity? id = none ∧ error = .notFound id) ∨
      ∃ root, (s.entity? id = some root ∧ root.rule = none) ∧ error = .notRecurring id := by
  unfold recurring
  cases hroot : s.entity? id with
  | none => simp [eq_comm]
  | some root => cases hrule : root.rule <;> simp [hrule, eq_comm]

private theorem continuation?_eq_some_iff {c : ObjectId} : s.continuation? id = some c ↔
    ∃ link, s.links.find? id = some link ∧ link.continuation = some c :=
  Option.bind_eq_some_iff

private theorem checkUncontinued_eq_ok_iff : s.checkUncontinued id = .ok () ↔
    ∀ link c, s.links.find? id = some link → link.continuation = some c →
      s.entities.find? c = none := by
  have hnext : (∀ c, s.continuation? id = some c → s.entity? c = none) ↔ ∀ link c,
      s.links.find? id = some link → link.continuation = some c → s.entities.find? c = none := by
    rw [forall_comm]
    simp only [continuation?_eq_some_iff, forall_exists_index, and_imp]
    rfl
  rw [← hnext]
  unfold checkUncontinued
  cases hlink : s.continuation? id with
  | none => simp
  | some c => by_cases hc : s.entity? c = none <;> simp [contains_eq_true_iff, hc]

private theorem checkUncontinued_eq_error_iff : s.checkUncontinued id = .error error ↔
    ∃ c, (s.continuation? id = some c ∧ s.entity? c ≠ none) ∧ error = .alreadyContinues id c := by
  unfold checkUncontinued
  cases hlink : s.continuation? id with
  | none => simp
  | some c =>
    by_cases hc : s.entity? c = none
    · simp [contains_eq_true_iff, hc]
    · simp [contains_eq_true_iff, hc, @eq_comm _ error]

private theorem continuationRule_eq_ok_iff {ruleText : Option String}
    {own generated stored : Option Rule} : continuationRule ruleText own generated = .ok stored ↔
      (∀ text, ruleText = some text → ∃ r, Rule.ofText text = .ok r ∧ stored = some r) ∧
        (ruleText = none → stored = own.or generated) := by
  unfold continuationRule
  cases ruleText with
  | none => simp [eq_comm]
  | some text => simp [mapError_eq_ok_iff, map_eq_ok_iff, @eq_comm _ stored]

private theorem continuationRule_eq_error_iff {ruleText : Option String}
    {own generated : Option Rule} : continuationRule ruleText own generated = .error error ↔
      ∃ text fault, (ruleText = some text ∧ Rule.ofText text = .error fault) ∧
        error = .ruleText fault := by
  unfold continuationRule
  cases ruleText with
  | none => simp
  | some text =>
    cases h : Rule.ofText text <;>
      simp [h, Functor.map, Except.map, Except.mapError, @eq_comm _ error]

private theorem prepareContinuation_eq_error_iff {ruleText : Option String}
    {generated : Option Rule} : s.prepareContinuation id ruleText generated e = .error error ↔
      (s.OnWay id e.id ∧ error = .closesCycle) ∨
      ((¬ s.OnWay id e.id ∧ s.entity? e.id ≠ none) ∧ error = .alreadyExists e.id) ∨
        (¬ s.OnWay id e.id ∧ s.entity? e.id = none) ∧
          ∃ text fault, (ruleText = some text ∧ Rule.ofText text = .error fault) ∧
            error = .ruleText fault := by
  rw [onWay_iff]
  unfold prepareContinuation
  by_cases hchain : e.id ∈ s.chainIds id
  · rw [if_pos hchain]
    change .error .closesCycle = (.error error : Except EditError Entity) ↔ _
    simp [hchain, @eq_comm _ error]
  · by_cases hexists : s.entity? e.id = none
    · rw [if_neg hchain, if_neg (mt contains_eq_true_iff.1 (not_not.2 hexists))]
      change (continuationRule ruleText e.rule generated >>= fun rule => pure (e.withRule rule)) =
        .error error ↔ _
      rw [bind_eq_error_iff, continuationRule_eq_error_iff]
      simp [hchain, hexists, pure, Except.pure]
    · rw [if_neg hchain, if_pos (contains_eq_true_iff.2 hexists)]
      change .error (.alreadyExists e.id) = (.error error : Except EditError Entity) ↔ _
      simp [hchain, hexists, @eq_comm _ error]

private theorem applyBulkEdit_of_splitAt_error (h : s.Splittable id root rule) {fault : SplitError}
    (hfault : rule.splitAt root.start edit.splitDate = .error fault) :
    s.applyBulkEdit id edit = .error (.split fault) := by
  refine bind_eq_error_iff.2 (Or.inr ⟨_, recurring_of_rule h.root_eq h.rule_eq, ?_⟩)
  refine bind_eq_error_iff.2 (Or.inr ⟨_, checkUncontinued_eq_ok_iff.2 h.uncontinued, ?_⟩)
  exact bind_eq_error_iff.2 (Or.inl (mapError_eq_error_iff.2 ⟨fault, hfault, rfl⟩))

private theorem applyBulkEdit_of_prepareContinuation_error
    (h : s.SplittableAt id edit.splitDate root rule) (he : edit.continuation = some e)
    (herror : ∀ generated, s.prepareContinuation id edit.ruleText generated e = .error error) :
    s.applyBulkEdit id edit = .error error := by
  obtain ⟨rules, -, hrules, -⟩ := Rule.exists_splitAt h.offered
  refine bind_eq_error_iff.2 (Or.inr ⟨_, recurring_of_rule h.root_eq h.rule_eq, ?_⟩)
  refine bind_eq_error_iff.2 (Or.inr ⟨_, checkUncontinued_eq_ok_iff.2 h.uncontinued, ?_⟩)
  refine bind_eq_error_iff.2 (Or.inr ⟨_, mapError_eq_ok_iff.2 hrules, ?_⟩)
  exact bind_eq_error_iff.2 (Or.inl (optionMapM_eq_error_iff.2 ⟨e, he, herror _⟩))

theorem applyBulkEdit_eq_error_iff :
    s.applyBulkEdit id edit = .error error ↔ s.Refuses id edit error := by
  constructor
  · -- Either a check fails, or it passes and the rest of the edit is refused.
    intro h
    rcases bind_eq_error_iff.1 h with h | ⟨⟨root, rule⟩, hroot, h⟩
    · rcases recurring_eq_error_iff.1 h with ⟨hroot, rfl⟩ | ⟨root, ⟨hroot, hrule⟩, rfl⟩
      · exact .notFound hroot
      · exact .notRecurring root hroot hrule
    obtain ⟨hroot, hrule⟩ := recurring_eq_ok hroot
    rcases bind_eq_error_iff.1 h with h | ⟨⟨⟩, hfree, h⟩
    · obtain ⟨c, ⟨hnext, hexists⟩, rfl⟩ := checkUncontinued_eq_error_iff.1 h
      obtain ⟨link, hlink, hnext⟩ := continuation?_eq_some_iff.1 hnext
      exact .alreadyContinues root rule link c hroot hrule hlink hnext hexists
    have hsplittable : s.Splittable id root rule :=
      ⟨hroot, hrule, checkUncontinued_eq_ok_iff.1 hfree⟩
    rcases bind_eq_error_iff.1 h with h | ⟨rules, hrules, h⟩
    · obtain ⟨fault, hfault, rfl⟩ := mapError_eq_error_iff.1 h
      rcases Rule.splitAt_eq_error_iff.1 hfault with ⟨hstart, rfl⟩ | ⟨⟨hstart, hdate⟩, rfl⟩
      · exact .calendar root rule hsplittable hstart
      · exact .notAnOccurrence root rule hsplittable hstart hdate
    have hdate := (Rule.splitAt_eq_ok (mapError_eq_ok_iff.1 hrules)).1
    have hoffered : s.SplittableAt id edit.splitDate root rule :=
      ⟨hsplittable, Series.isCandidate_iff_offers.1 hdate⟩
    rcases bind_eq_error_iff.1 h with h | ⟨_, _, ⟨⟩⟩
    obtain ⟨e, he, h⟩ := optionMapM_eq_error_iff.1 h
    rcases prepareContinuation_eq_error_iff.1 h with ⟨hway, rfl⟩ | ⟨⟨hway, hexists⟩, rfl⟩ |
      ⟨⟨hway, hfresh⟩, text, fault, ⟨htext, hfault⟩, rfl⟩
    · exact .closesCycle root rule e hoffered he hway
    · exact .alreadyExists root rule e hoffered he hway hexists
    · exact .ruleText root rule e text fault hoffered he hway hfresh htext hfault
  · intro h
    cases h with
    | notFound hroot =>
      exact bind_eq_error_iff.2 (Or.inl (recurring_eq_error_iff.2 (Or.inl ⟨hroot, rfl⟩)))
    | notRecurring root hroot hrule =>
      exact bind_eq_error_iff.2
        (Or.inl (recurring_eq_error_iff.2 (Or.inr ⟨root, ⟨hroot, hrule⟩, rfl⟩)))
    | alreadyContinues root rule link c hroot hrule hlink hnext hexists =>
      have hnext := continuation?_eq_some_iff.2 ⟨link, hlink, hnext⟩
      refine bind_eq_error_iff.2 (Or.inr ⟨_, recurring_of_rule hroot hrule, ?_⟩)
      exact bind_eq_error_iff.2
        (Or.inl (checkUncontinued_eq_error_iff.2 ⟨c, ⟨hnext, hexists⟩, rfl⟩))
    | calendar root rule hsplittable hstart =>
      exact applyBulkEdit_of_splitAt_error hsplittable
        (Rule.splitAt_eq_error_iff.2 (Or.inl ⟨hstart, rfl⟩))
    | notAnOccurrence root rule hsplittable hstart hdate =>
      exact applyBulkEdit_of_splitAt_error hsplittable
        (Rule.splitAt_eq_error_iff.2 (Or.inr ⟨⟨hstart, hdate⟩, rfl⟩))
    | closesCycle root rule e hoffered he hway =>
      exact applyBulkEdit_of_prepareContinuation_error hoffered he fun _ =>
        prepareContinuation_eq_error_iff.2 (Or.inl ⟨hway, rfl⟩)
    | alreadyExists root rule e hoffered he hway hexists =>
      exact applyBulkEdit_of_prepareContinuation_error hoffered he fun _ =>
        prepareContinuation_eq_error_iff.2 (Or.inr (Or.inl ⟨⟨hway, hexists⟩, rfl⟩))
    | ruleText root rule e text fault hoffered he hway hfresh htext hfault =>
      exact applyBulkEdit_of_prepareContinuation_error hoffered he fun _ =>
        prepareContinuation_eq_error_iff.2
          (Or.inr (Or.inr ⟨⟨hway, hfresh⟩, text, fault, ⟨htext, hfault⟩, rfl⟩))

/-- The rule with which an object takes over from another one: the rule given as text, else its own,
else what is left of the other's. -/
inductive TakesOver (edit : BulkEdit) (root : Entity) (rule : Rule) (e : Entity) : Rule → Prop
  | given (text : String) (r : Rule) (htext : edit.ruleText = some text)
      (hr : Rule.ofText text = .ok r) : TakesOver edit root rule e r
  | own (r : Rule) (htext : edit.ruleText = none) (hr : e.rule = some r) :
      TakesOver edit root rule e r
  | generated (left : Rule) (htext : edit.ruleText = none) (hnone : e.rule = none)
      (hleft : rule.Left root.start edit.splitDate left) : TakesOver edit root rule e left

/-- What the store is after an edit that was made. The rule of the object that was split, its link
and the object that takes over are new, and everything else is as it was. -/
structure Changes (s : Store) (id : ObjectId) (edit : BulkEdit) (s' : Store) (link : Link)
    (root : Entity) (rule : Rule) : Prop where
  kept : ∃ kept, rule.Kept root.start edit.splitDate kept ∧
    s'.entities.find? id = some { root with rule := some kept }
  linked : link = ⟨id, edit.continuation.map Entity.id, edit.splitDate⟩ ∧
    s'.links.find? id = some link
  taken : ∀ e, edit.continuation = some e → ∃ r, TakesOver edit root rule e r ∧
    s'.entities.find? e.id = some { e with rule := some r }
  entities : ∀ other, other ≠ id → (∀ e, edit.continuation = some e → other ≠ e.id) →
    s'.entities.find? other = s.entities.find? other
  exceptions : s'.exceptions = s.exceptions
  links : ∀ other, other ≠ id → s'.links.find? other = s.links.find? other

private theorem exists_takesOver {stored : Option Rule} {left : Rule}
    (h : continuationRule edit.ruleText e.rule (some left) = .ok stored)
    (hleft : rule.Left root.start edit.splitDate left) :
    ∃ r, TakesOver edit root rule e r ∧ stored = some r := by
  obtain ⟨hgiven, hown⟩ := continuationRule_eq_ok_iff.1 h
  cases htext : edit.ruleText with
  | some text =>
    obtain ⟨r, hr, hstored⟩ := hgiven text htext
    exact ⟨r, .given text r htext hr, hstored⟩
  | none =>
    have hstored := hown htext
    cases hrule : e.rule with
    | some r =>
      rw [hrule, Option.some_or] at hstored
      exact ⟨r, .own r htext hrule, hstored⟩
    | none =>
      rw [hrule, Option.none_or] at hstored
      exact ⟨left, .generated left htext hrule hleft, hstored⟩

/-- An edit that is made has passed all checks, and has changed what it is to change. -/
private theorem changes_of_applyBulkEdit (h : s.applyBulkEdit id edit = .ok (s', link)) :
    ∃ root rule, (s.SplittableAt id edit.splitDate root rule ∧
      ∀ e, edit.continuation = some e → s.Eligible id edit.ruleText e) ∧
      s.Changes id edit s' link root rule := by
  obtain ⟨split, hfree, hids, hprepared⟩ := exists_split_of_eq_ok h
  have hdate := Series.isCandidate_iff_offers.1 (Rule.splitAt_eq_ok split.splits).1
  obtain ⟨rules, left, hrules, hkept, hrest, hleft⟩ := Rule.exists_splitAt hdate
  obtain rfl : split.rules = rules := Except.ok.inj (split.splits.symm.trans hrules)
  have hroot : s.Splittable id split.root split.rule :=
    ⟨split.root_eq, split.rule_eq, checkUncontinued_eq_ok_iff.1 hfree⟩
  refine ⟨split.root, split.rule, ⟨⟨hroot, hdate⟩, fun e he => ?_⟩, ⟨_, hkept, ?_⟩,
    ⟨hids ▸ split.link_eq, ?_⟩, fun e he => ?_, fun other hid hother => ?_, split.exceptions_eq,
    fun other hid => ?_⟩
  · obtain ⟨hchain, hfresh, stored, hstored, -⟩ := hprepared e he
    refine ⟨mt onWay_iff.1 hchain, hfresh, fun text htext => ?_⟩
    obtain ⟨r, hr, -⟩ := (continuationRule_eq_ok_iff.1 hstored).1 text htext
    exact ⟨r, hr⟩
  · rw [← split.stored_eq]
    exact split.entity?_root
  · have hlink := split.link?_eq id
    rwa [if_pos rfl] at hlink
  · obtain ⟨-, -, stored, hstored, hmade⟩ := hprepared e he
    rw [hrest] at hstored
    obtain ⟨r, hr, rfl⟩ := exists_takesOver hstored hleft
    exact ⟨r, hr, split.entity?_continuation hmade⟩
  · refine split.entity?_of_ne hid fun made hmade => ?_
    obtain ⟨e, he, hsame⟩ := Option.map_eq_some_iff.1 (hids ▸ congrArg (Option.map Entity.id) hmade)
    exact hsame ▸ hother e he
  · have hlink := split.link?_eq other
    rwa [if_neg hid] at hlink

private theorem Eligible.exists_prepared (h : s.Eligible id edit.ruleText e)
    (generated : Option Rule) :
    ∃ prepared, s.prepareContinuation id edit.ruleText generated e = .ok prepared := by
  obtain ⟨stored, hstored⟩ :
      ∃ stored, continuationRule edit.ruleText e.rule generated = .ok stored := by
    cases htext : edit.ruleText with
    | none => exact ⟨_, rfl⟩
    | some text =>
      obtain ⟨r, hr⟩ := h.parses text htext
      exact ⟨some r, mapError_eq_ok_iff.2 (map_eq_ok_iff.2 ⟨r, hr, rfl⟩)⟩
  exact ⟨_, prepareContinuation_eq_ok_iff.2
    ⟨mt onWay_iff.2 h.apart, h.fresh, stored, hstored, rfl⟩⟩

private theorem exists_applyBulkEdit_eq_ok_iff :
    (∃ made, s.applyBulkEdit id edit = .ok made) ↔ s.Admits id edit := by
  constructor
  · rintro ⟨⟨s', link⟩, h⟩
    obtain ⟨root, rule, hadmits, -⟩ := changes_of_applyBulkEdit h
    exact ⟨root, rule, hadmits⟩
  · rintro ⟨root, rule, h, heligible⟩
    obtain ⟨rules, -, hrules, -⟩ := Rule.exists_splitAt h.offered
    obtain ⟨made, hmade⟩ : ∃ made, edit.continuation.mapM
        (s.prepareContinuation id edit.ruleText rules.continuation) = .ok made := by
      cases he : edit.continuation with
      | none => exact ⟨none, rfl⟩
      | some e =>
        obtain ⟨prepared, hprepared⟩ := (heligible e he).exists_prepared rules.continuation
        exact ⟨some prepared, optionMapM_eq_ok_iff.2 (Or.inr ⟨e, prepared, rfl, hprepared, rfl⟩)⟩
    exact ⟨_, applyBulkEdit_eq_ok_iff.2 ⟨root, rule, rules, made, ⟨h.root_eq, h.rule_eq⟩,
      checkUncontinued_eq_ok_iff.2 h.uncontinued, hrules, hmade, rfl, rfl⟩⟩

end Store

/-- A program that reads a store and writes to it in place, and may be refused on the way. What it
has written by then stays written. -/
abbrev InPlace (α : Type) := ExceptT EditError (StateM Store) α

namespace InPlace

variable {α β : Type} {s : Store}

def on (m : InPlace α) (s : Store) : Except EditError α × Store := (m.run).run s

def read (f : Store → Except EditError α) : InPlace α := do MonadExcept.ofExcept (f (← get))

def write (f : Store → Store) : InPlace Unit := modify f

def outcome (s : Store) : Except EditError (Store × α) → Except EditError α × Store
  | .ok (s', a) => (.ok a, s')
  | .error e => (.error e, s)

private theorem on_read_bind {f : Store → Except EditError α} {k : α → InPlace β}
    {k' : α → Except EditError (Store × β)} (h : ∀ a, f s = .ok a → (k a).on s = outcome s (k' a)) :
    (read f >>= k).on s = outcome s (f s >>= k') := by
  change (ExceptT.run ((MonadExcept.ofExcept (f s) : InPlace α) >>= k)).run s = _
  cases hresult : f s with
  | error e => rfl
  | ok a => exact h a hresult

end InPlace

namespace Store

open InPlace

def setRule (s : Store) (id : ObjectId) (rule : Rule) : Store :=
  match s.entity? id with
  | some e => { s with entities := s.entities.insert id (e.withRule (some rule)) }
  | none => s

/-- An edit of this and all following occurrences in place: each check reads the store as it then
is, and each change is written to it at once. -/
def editInPlace (id : ObjectId) (edit : BulkEdit) : InPlace Link := do
  let (root, rule) ← read fun s => s.recurring id
  read fun s => s.checkUncontinued id
  let rules ← read fun _ => (rule.splitAt root.start edit.splitDate).mapError .split
  let continuation ← read fun s =>
    edit.continuation.mapM (s.prepareContinuation id edit.ruleText rules.continuation)
  if let some truncated := rules.truncated then
    write fun s => s.setRule id truncated
  if let some e := continuation then
    write fun s => s.insert e
  let link : Link :=
    { root := id, continuation := continuation.map Entity.id, splitDate := edit.splitDate }
  write fun s => s.insertLink link
  return link

private theorem setRule_eq_truncate {s : Store} {id : ObjectId} {root : Entity} {rule : Rule}
    (hroot : s.entity? id = some root) :
    s.setRule id rule = s.truncate id root (some rule) := by
  unfold setRule truncate
  rw [hroot]

/-- In place, an edit that is made leaves the store that is computed for it, and one that is refused
leaves the store as it was. -/
private theorem on_editInPlace (s : Store) (id : ObjectId) (edit : BulkEdit) :
    (editInPlace id edit).on s = outcome s (s.applyBulkEdit id edit) := by
  refine on_read_bind fun ⟨root, rule⟩ hroot => on_read_bind fun _ _ =>
    on_read_bind fun rules _ => on_read_bind fun made _ => ?_
  -- All checks have passed, and the three changes are written one after the other.
  have hentity := (recurring_eq_ok hroot).1
  cases rules.truncated with
  | none => cases made <;> rfl
  | some truncated =>
    rw [← setRule_eq_truncate hentity]
    cases made <;> rfl

/-- For every store, the edit of this and all following occurrences is made exactly if it passes all
checks, and is refused with the error of the first that it does not pass. In place, a refused edit
leaves the whole store as it was, and one that is made changes three things: the rule of the object,
which ends with the last raw candidate before the split if there is any; the object's link; and the
object that takes over, which is stored with the rule given as text, else its own, else with what is
left of the count. -/
theorem applyBulkEdit_atomic (s : Store) (id : ObjectId) (edit : BulkEdit) :
    ((∃ made, s.applyBulkEdit id edit = .ok made) ↔ s.Admits id edit) ∧
    (∀ error, s.applyBulkEdit id edit = .error error ↔ s.Refuses id edit error) ∧
    (∀ error, s.applyBulkEdit id edit = .error error →
      (editInPlace id edit).on s = (.error error, s)) ∧
    ∀ s' link, s.applyBulkEdit id edit = .ok (s', link) →
      (editInPlace id edit).on s = (.ok link, s') ∧
      ∃ root rule, s.Splittable id root rule ∧ s.Changes id edit s' link root rule := by
  refine ⟨exists_applyBulkEdit_eq_ok_iff, fun error => applyBulkEdit_eq_error_iff,
    fun error herror => ?_, fun s' link hmade => ?_⟩
  · rw [on_editInPlace, herror]
    rfl
  · obtain ⟨root, rule, ⟨hsplittable, -⟩, hchanges⟩ := changes_of_applyBulkEdit hmade
    refine ⟨?_, root, rule, hsplittable.toSplittable, hchanges⟩
    rw [on_editInPlace, hmade]
    rfl

def dailyTimes (count : Int) (ends : Option Instant) : Rule :=
  { frequency := .daily, count := BoundedInt.ofInt? count, ends }

def fiveMornings : Entity where
  id := ⟨"morning"⟩
  organization := ⟨"office"⟩
  details := .available
  start := .nine 2026 1 1
  stop := .nine 2026 1 1
  rule := dailyTimes 5 none

def thirdMorning : Entity where
  id := ⟨"rest"⟩
  organization := ⟨"office"⟩
  details := .blocked none
  start := .nine 2026 1 3
  stop := .nine 2026 1 3
  rule := none

def secondCancelled : Exception := ⟨⟨"morning"⟩, .nine 2026 1 2, .cancelled⟩

/-- Split at the third, the five mornings end with the second, cancelled or not, and three are left
to the other object. Split at the first they stay as they are, and the other object recurs as its
text says. The other object cannot take over from itself: its rule could be split at the fourth, but
nothing is written. -/
theorem applyBulkEdit_of_fiveMornings :
    let s := run [.insert fiveMornings, .upsertException secondCancelled]
    let split : BulkEdit := ⟨.nine 2026 1 3, some thirdMorning, none⟩
    let whole : BulkEdit := ⟨.nine 2026 1 1, some thirdMorning, some "FREQ=WEEKLY"⟩
    let again : BulkEdit := ⟨.nine 2026 1 4, some thirdMorning, some "FREQ=WEEKLY"⟩
    (∃ (s' : Store) (link : Link), s.applyBulkEdit ⟨"morning"⟩ split = .ok (s', link) ∧
      (editInPlace ⟨"morning"⟩ split).on s = (.ok link, s') ∧
      s'.entities.find? ⟨"morning"⟩ =
        some { fiveMornings with rule := dailyTimes 5 (some (.nine 2026 1 2)) } ∧
      s'.entities.find? ⟨"rest"⟩ = some { thirdMorning with rule := dailyTimes 3 none } ∧
      s'.links.find? ⟨"morning"⟩ = some ⟨⟨"morning"⟩, some ⟨"rest"⟩, .nine 2026 1 3⟩ ∧
      s'.exceptions = s.exceptions ∧ s.Admits ⟨"morning"⟩ split ∧
      (editInPlace ⟨"rest"⟩ again).on s' = (.error .closesCycle, s')) ∧
    ∃ (s' : Store) (link : Link), s.applyBulkEdit ⟨"morning"⟩ whole = .ok (s', link) ∧
      (editInPlace ⟨"morning"⟩ whole).on s = (.ok link, s') ∧
      s'.entities.find? ⟨"morning"⟩ = some fiveMornings ∧
      s'.entities.find? ⟨"rest"⟩ =
        some { thirdMorning with rule := some { frequency := .weekly } } ∧
      s'.links.find? ⟨"morning"⟩ = some ⟨⟨"morning"⟩, some ⟨"rest"⟩, .nine 2026 1 1⟩ := by
  intro s split whole again
  have hroot : s.entity? ⟨"morning"⟩ = some fiveMornings := rfl
  have hlink : s.link? ⟨"morning"⟩ = none := rfl
  have hapart : thirdMorning.id ∉ s.chainIds ⟨"morning"⟩ := by
    rw [chainIds_of_link?_eq_none hroot hlink]
    decide
  constructor
  · have hsplit : (dailyTimes 5 none).splitAt fiveMornings.start (.nine 2026 1 3) =
        .ok ⟨some (dailyTimes 5 (some (.nine 2026 1 2))), some (dailyTimes 3 none)⟩ := by rfl
    have hprepare : s.prepareContinuation ⟨"morning"⟩ none (some (dailyTimes 3 none)) thirdMorning =
        .ok { thirdMorning with rule := dailyTimes 3 none } :=
      prepareContinuation_eq_ok_iff.2 ⟨hapart, rfl, _, rfl, rfl⟩
    have hok := applyBulkEdit_eq_ok hroot rfl hlink hsplit hprepare
    obtain ⟨hadmits, -, -, hmade⟩ := applyBulkEdit_atomic s ⟨"morning"⟩ split
    obtain ⟨hwritten, _, _, -, hchanges⟩ := hmade _ _ hok
    refine ⟨_, _, hok, hwritten, rfl, rfl, rfl, hchanges.exceptions, hadmits.1 ⟨_, hok⟩, ?_⟩
    obtain ⟨-, hrefuses, hkept, -⟩ := applyBulkEdit_atomic
      (((s.truncate ⟨"morning"⟩ fiveMornings (dailyTimes 5 (some (.nine 2026 1 2)))).insert
        { thirdMorning with rule := dailyTimes 3 none }).insertLink
          ⟨⟨"morning"⟩, some ⟨"rest"⟩, .nine 2026 1 3⟩) ⟨"rest"⟩ again
    refine hkept _ ((hrefuses _).2 ?_)
    refine .closesCycle { thirdMorning with rule := dailyTimes 3 none } (dailyTimes 3 none)
      thirdMorning ⟨⟨rfl, rfl, nofun⟩, ?_⟩ rfl ?_
    · exact Series.isCandidate_iff_offers.1 (by decide +kernel)
    · exact onWay_iff.2 (by decide +kernel)
  · have hsplit : (dailyTimes 5 none).splitAt fiveMornings.start (.nine 2026 1 1) =
        .ok ⟨none, some (dailyTimes 5 none)⟩ := by rfl
    have hread : Rule.ofText "FREQ=WEEKLY" = .ok { frequency := .weekly } := by rfl
    have hrule : continuationRule (some "FREQ=WEEKLY") thirdMorning.rule
        (some (dailyTimes 5 none)) = .ok (some { frequency := .weekly }) := by
      refine continuationRule_eq_ok_iff.2 ⟨?_, nofun⟩
      rintro _ ⟨⟩
      exact ⟨_, hread, rfl⟩
    have hprepare : s.prepareContinuation ⟨"morning"⟩ (some "FREQ=WEEKLY")
        (some (dailyTimes 5 none)) thirdMorning =
          .ok { thirdMorning with rule := some { frequency := .weekly } } :=
      prepareContinuation_eq_ok_iff.2 ⟨hapart, rfl, _, hrule, rfl⟩
    have hok := applyBulkEdit_eq_ok hroot rfl hlink hsplit hprepare
    obtain ⟨-, -, -, hmade⟩ := applyBulkEdit_atomic s ⟨"morning"⟩ whole
    exact ⟨_, _, hok, (hmade _ _ hok).1, rfl, rfl, rfl⟩

end Store

end Recurrence
