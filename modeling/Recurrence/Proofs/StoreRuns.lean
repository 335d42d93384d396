import Recurrence.Proofs.CheckedSteps
import Recurrence.Proofs.ExceptionTables
import Recurrence.Store.BulkEdit

set_option autoImplicit false
set_option relaxedAutoImplicit false

/-!
The stores that edits make of the empty one. A refused edit leaves the store as it is. What every
single edit preserves holds of every such store.
-/

namespace Recurrence

inductive Edit
  | insert (e : Entity)
  | upsertException (e : Exception)
  | removeException (parent : ObjectId) (date : Instant)
  | bulk (id : ObjectId) (edit : BulkEdit)
  | deleteChain (root : ObjectId)
  /-- A link recorded as it is, whatever it leads to. -/
  | insertLink (link : Link)

/-- True of the edits that record links only for the splits that they make. -/
def Edit.keepsLinks : Edit → Bool
  | .insertLink _ => false
  | _ => true

namespace Store

def perform (s : Store) : Edit → Store
  | .insert e => s.insert e
  | .upsertException e => match s.upsertException e with
    | .ok (s', _) => s'
    | .error _ => s
  | .removeException parent date => (s.removeException parent date).1
  | .bulk id edit => match s.applyBulkEdit id edit with
    | .ok (s', _) => s'
    | .error _ => s
  | .deleteChain root => (s.deleteChain root).1
  | .insertLink link => s.insertLink link

def run (edits : List Edit) : Store := edits.foldl perform empty

variable {s s' : Store} {id : ObjectId}

theorem recurring_eq_ok {e : Entity} {rule : Rule} (h : s.recurring id = .ok (e, rule)) :
    s.entity? id = some e ∧ e.rule = some rule := by
  unfold recurring at h
  split at h
  · cases h
  · rename_i e' he
    split at h
    · cases h
    · rename_i rule' hrule
      cases h
      exact ⟨he, hrule⟩

theorem recurring_of_rule {e : Entity} {rule : Rule} (he : s.entity? id = some e)
    (hrule : e.rule = some rule) : s.recurring id = .ok (e, rule) := by
  unfold recurring
  simp only [he, hrule]

theorem upsertException_eq_ok {e : Exception} {old : Option Exception}
    (h : s.upsertException e = .ok (s', old)) :
    (∃ parent, s.entity? e.parent = some parent) ∧
      s' = { s with
        exceptions := s.exceptions.insert e.parent ((s.exceptionsOf e.parent).record e) } := by
  unfold upsertException at h
  obtain ⟨⟨parent, rule⟩, hparent, hresult⟩ := bind_eq_ok_iff.1 h
  cases hresult
  exact ⟨⟨parent, (recurring_eq_ok hparent).1⟩, rfl⟩

theorem contains_eq_true_iff : s.entities.contains id = true ↔ s.entity? id ≠ none :=
  Option.isSome_iff_ne_none

theorem prepareContinuation_eq_ok_iff {ruleText : Option String} {generated : Option Rule}
    {e prepared : Entity} : s.prepareContinuation id ruleText generated e = .ok prepared ↔
      e.id ∉ s.chainIds id ∧ s.entity? e.id = none ∧
        ∃ rule, continuationRule ruleText e.rule generated = .ok rule ∧
          prepared = e.withRule rule := by
  unfold prepareContinuation
  by_cases hchain : e.id ∈ s.chainIds id
  · rw [if_pos hchain]
    exact iff_of_false nofun fun h => h.1 hchain
  · by_cases hexists : s.entity? e.id = none
    · rw [if_neg hchain, if_neg (mt contains_eq_true_iff.1 (not_not.2 hexists)),
        and_iff_right hchain, and_iff_right hexists]
      refine bind_eq_ok_iff.trans (exists_congr fun rule => and_congr_right fun _ => ?_)
      exact ⟨fun h => (Except.ok.inj h).symm, fun h => congrArg Except.ok h.symm⟩
    · rw [if_neg hchain, if_pos (contains_eq_true_iff.2 hexists)]
      exact iff_of_false nofun fun h => hexists h.2.1

private theorem prepared_of_mapM {ruleText : Option String} {generated : Option Rule}
    {new made : Option Entity}
    (h : new.mapM (s.prepareContinuation id ruleText generated) = .ok made) :
    made.map Entity.id = new.map Entity.id ∧ ∀ e, new = some e →
      e.id ∉ s.chainIds id ∧ s.entity? e.id = none ∧
        ∃ rule, continuationRule ruleText e.rule generated = .ok rule ∧
          made = some (e.withRule rule) := by
  rcases optionMapM_eq_ok_iff.1 h with ⟨rfl, rfl⟩ | ⟨given, prepared, rfl, hprepared, rfl⟩
  · exact ⟨rfl, by simp⟩
  · obtain ⟨hchain, hfresh, rule, hrule, rfl⟩ := prepareContinuation_eq_ok_iff.1 hprepared
    refine ⟨rfl, fun e he => ?_⟩
    obtain rfl := Option.some.inj he
    exact ⟨hchain, hfresh, rule, hrule, rfl⟩

/-- What a bulk edit does when it is made. -/
structure Split (s : Store) (id : ObjectId) (edit : BulkEdit) (s' : Store) (link : Link) where
  root : Entity
  rule : Rule
  rules : SplitRules
  continuation : Option Entity
  root_eq : s.entity? id = some root
  rule_eq : root.rule = some rule
  splits : rule.splitAt root.start edit.splitDate = .ok rules
  fresh : ∀ e, continuation = some e → e.id ∉ s.chainIds id ∧ s.entity? e.id = none
  link_eq : link = ⟨id, continuation.map Entity.id, edit.splitDate⟩
  result : s' = (continuation.elim (s.truncate id root rules.truncated)
    (s.truncate id root rules.truncated).insert).insertLink link

/-- An edit is made if every check passes, and of which parts. -/
theorem applyBulkEdit_eq_ok_iff {edit : BulkEdit} {link : Link} :
    s.applyBulkEdit id edit = .ok (s', link) ↔
      ∃ root rule rules continuation, (s.entity? id = some root ∧ root.rule = some rule) ∧
        s.checkUncontinued id = .ok () ∧ rule.splitAt root.start edit.splitDate = .ok rules ∧
        edit.continuation.mapM (s.prepareContinuation id edit.ruleText rules.continuation) =
          .ok continuation ∧
        link = ⟨id, continuation.map Entity.id, edit.splitDate⟩ ∧
        s' = (continuation.elim (s.truncate id root rules.truncated)
          (s.truncate id root rules.truncated).insert).insertLink link := by
  constructor
  · intro h
    obtain ⟨⟨root, rule⟩, hroot, h⟩ := bind_eq_ok_iff.1 h
    obtain ⟨⟨⟩, hfree, h⟩ := bind_eq_ok_iff.1 h
    obtain ⟨rules, hrules, h⟩ := bind_eq_ok_iff.1 h
    obtain ⟨continuation, hcontinuation, h⟩ := bind_eq_ok_iff.1 h
    cases h
    exact ⟨root, rule, rules, continuation, recurring_eq_ok hroot, hfree,
      mapError_eq_ok_iff.1 hrules, hcontinuation, rfl, rfl⟩
  · rintro ⟨root, rule, rules, continuation, ⟨hroot, hrule⟩, hfree, hrules, hcontinuation, rfl, rfl⟩
    refine bind_eq_ok_iff.2 ⟨_, recurring_of_rule hroot hrule, bind_eq_ok_iff.2 ⟨_, hfree, ?_⟩⟩
    exact bind_eq_ok_iff.2 ⟨_, mapError_eq_ok_iff.2 hrules, bind_eq_ok_iff.2
      ⟨_, hcontinuation, rfl⟩⟩

theorem applyBulkEdit_eq_ok {root e prepared : Entity} {rule : Rule} {rules : SplitRules}
    {date : Instant} {ruleText : Option String} (hroot : s.entity? id = some root)
    (hrule : root.rule = some rule) (hlink : s.link? id = none)
    (hsplits : rule.splitAt root.start date = .ok rules)
    (hprepare : s.prepareContinuation id ruleText rules.continuation e = .ok prepared) :
    s.applyBulkEdit id ⟨date, some e, ruleText⟩ =
      .ok (((s.truncate id root rules.truncated).insert prepared).insertLink
        ⟨id, some prepared.id, date⟩, ⟨id, some prepared.id, date⟩) := by
  have hfree : s.checkUncontinued id = .ok () := by
    unfold checkUncontinued continuation?
    rw [hlink]
    rfl
  exact applyBulkEdit_eq_ok_iff.2 ⟨root, rule, rules, some prepared, ⟨hroot, hrule⟩, hfree, hsplits,
    optionMapM_eq_ok_iff.2 (Or.inr ⟨e, prepared, rfl, hprepare, rfl⟩), rfl, rfl⟩

theorem exists_split_of_eq_ok {edit : BulkEdit} {link : Link}
    (h : s.applyBulkEdit id edit = .ok (s', link)) :
    ∃ split : s.Split id edit s' link, s.checkUncontinued id = .ok () ∧
      split.continuation.map Entity.id = edit.continuation.map Entity.id ∧
      ∀ e, edit.continuation = some e → e.id ∉ s.chainIds id ∧ s.entity? e.id = none ∧
        ∃ rule, continuationRule edit.ruleText e.rule split.rules.continuation = .ok rule ∧
          split.continuation = some (e.withRule rule) := by
  obtain ⟨root, rule, rules, made, ⟨hroot, hrule⟩, hfree, hrules, hmade, hlink, hresult⟩ :=
    applyBulkEdit_eq_ok_iff.1 h
  obtain ⟨hids, hprepared⟩ := prepared_of_mapM hmade
  have hfresh : ∀ e, made = some e → e.id ∉ s.chainIds id ∧ s.entity? e.id = none := by
    rintro e rfl
    obtain ⟨given, hgiven, hid⟩ := Option.map_eq_some_iff.1 hids.symm
    obtain ⟨hchain, hnone, -⟩ := hprepared given hgiven
    exact hid ▸ ⟨hchain, hnone⟩
  exact ⟨⟨root, rule, rules, made, hroot, hrule, hrules, hfresh, hlink, hresult⟩, hfree, hids,
    hprepared⟩

theorem exists_split {edit : BulkEdit} {link : Link}
    (h : s.applyBulkEdit id edit = .ok (s', link)) : Nonempty (s.Split id edit s' link) := by
  obtain ⟨split, -⟩ := exists_split_of_eq_ok h
  exact ⟨split⟩

namespace Split

variable {edit : BulkEdit} {link : Link}

def stored (h : s.Split id edit s' link) : Entity :=
  h.rules.truncated.elim h.root fun rule => h.root.withRule (some rule)

theorem stored_eq (h : s.Split id edit s' link) :
    h.stored = { h.root with rule := some (h.rules.truncated.getD h.rule) } := by
  unfold stored
  cases h.rules.truncated with
  | none =>
    rw [Option.elim_none, Option.getD_none, ← h.rule_eq]
  | some rule => rfl

theorem id_ne (h : s.Split id edit s' link) {e : Entity} (he : h.continuation = some e) :
    e.id ≠ id := by
  intro heq
  have hnone := (h.fresh e he).2
  rw [heq, h.root_eq] at hnone
  cases hnone

theorem exceptions_eq (h : s.Split id edit s' link) : s'.exceptions = s.exceptions := by
  rw [h.result]
  cases h.continuation <;> cases h.rules.truncated <;> rfl

theorem link?_eq (h : s.Split id edit s' link) (other : ObjectId) :
    s'.link? other = if other = id then some link else s.link? other := by
  have hbefore : (h.continuation.elim (s.truncate id h.root h.rules.truncated)
      (s.truncate id h.root h.rules.truncated).insert).links = s.links := by
    cases h.continuation <;> cases h.rules.truncated <;> rfl
  have hlinks : s'.links = s.links.insert link.root link := by
    rw [← hbefore]
    exact congrArg Store.links h.result
  have hroot : link.root = id := congrArg Link.root h.link_eq
  unfold link?
  rw [hlinks, hroot, Table.find?_insert]

theorem entity?_truncate (h : s.Split id edit s' link) (other : ObjectId) :
    (s.truncate id h.root h.rules.truncated).entity? other =
      if other = id then some h.stored else s.entity? other := by
  unfold truncate stored
  cases h.rules.truncated with
  | none =>
    by_cases hid : other = id
    · rw [if_pos hid, hid]
      exact h.root_eq
    · rw [if_neg hid]
  | some rule => exact Table.find?_insert _ _ _ _

theorem entity?_result (h : s.Split id edit s' link) (other : ObjectId) :
    s'.entity? other = (h.continuation.elim (s.truncate id h.root h.rules.truncated)
      (s.truncate id h.root h.rules.truncated).insert).entity? other :=
  congrArg (fun made => made.entity? other) h.result

theorem entity?_root (h : s.Split id edit s' link) : s'.entity? id = some h.stored := by
  have htruncate := h.entity?_truncate id
  rw [if_pos rfl] at htruncate
  rw [h.entity?_result]
  cases hcontinuation : h.continuation with
  | none => exact htruncate
  | some e =>
    change Table.find? (Table.insert _ e.id e) id = _
    rw [Table.find?_insert, if_neg (h.id_ne hcontinuation).symm]
    exact htruncate

theorem entity?_continuation (h : s.Split id edit s' link) {e : Entity}
    (he : h.continuation = some e) : s'.entity? e.id = some e := by
  rw [h.entity?_result, he]
  exact Table.find?_insert_self _ _ _

theorem entity?_of_ne (h : s.Split id edit s' link) {other : ObjectId} (hid : other ≠ id)
    (hcontinuation : ∀ e, h.continuation = some e → other ≠ e.id) :
    s'.entity? other = s.entity? other := by
  have htruncate := h.entity?_truncate other
  rw [if_neg hid] at htruncate
  rw [h.entity?_result]
  cases hnew : h.continuation with
  | none => exact htruncate
  | some e =>
    change Table.find? (Table.insert _ e.id e) other = _
    rw [Table.find?_insert, if_neg (hcontinuation e hnew)]
    exact htruncate

private theorem entity?_of_eq_none (h : s.Split id edit s' link) {other : ObjectId}
    (hother : s'.entity? other = none) : s.entity? other = none ∧ other ≠ id := by
  have hid : other ≠ id := by
    rintro rfl
    rw [h.entity?_root] at hother
    cases hother
  have hnew : ∀ e, h.continuation = some e → other ≠ e.id := by
    rintro e he rfl
    rw [h.entity?_continuation he] at hother
    cases hother
  exact ⟨(h.entity?_of_ne hid hnew).symm.trans hother, hid⟩

end Split

inductive Step (s : Store) : Edit → Store → Prop
  | refused (edit : Edit) : Step s edit s
  | insert (e : Entity) : Step s (.insert e) (s.insert e)
  | upsertException (e : Exception) (parent : Entity) (hparent : s.entity? e.parent = some parent) :
      Step s (.upsertException e) { s with
        exceptions := s.exceptions.insert e.parent ((s.exceptionsOf e.parent).record e) }
  | removeException (parent : ObjectId) (date : Instant) (table : ExceptionTable)
      (htable : s.exceptions.find? parent = some table) :
      Step s (.removeException parent date) { s with
        exceptions := s.exceptions.insert parent (table.erase date.truncate) }
  | bulk (id : ObjectId) (edit : BulkEdit) (s' : Store) (link : Link)
      (split : s.Split id edit s' link) : Step s (.bulk id edit) s'
  | deleteChain (root : ObjectId) :
      Step s (.deleteChain root) ((s.chainIds root).foldl eraseObject s)
  | insertLink (link : Link) : Step s (.insertLink link) (s.insertLink link)

theorem step_perform (s : Store) (edit : Edit) : s.Step edit (s.perform edit) := by
  cases edit with
  | insert e => exact .insert e
  | insertLink link => exact .insertLink link
  | deleteChain root => exact .deleteChain root
  | upsertException e =>
    change s.Step _ (match s.upsertException e with | .ok (s', _) => s' | .error _ => s)
    cases hresult : s.upsertException e with
    | error => exact .refused _
    | ok made =>
      obtain ⟨s', old⟩ := made
      obtain ⟨⟨parent, hparent⟩, rfl⟩ := upsertException_eq_ok hresult
      exact .upsertException e parent hparent
  | removeException parent date =>
    change s.Step _ (s.removeException parent date).1
    unfold Store.removeException
    cases htable : s.exceptions.find? parent with
    | none => exact .refused _
    | some table => exact .removeException parent date table htable
  | bulk id edit =>
    change s.Step _ (match s.applyBulkEdit id edit with | .ok (s', _) => s' | .error _ => s)
    cases hresult : s.applyBulkEdit id edit with
    | error => exact .refused _
    | ok made =>
      obtain ⟨s', link⟩ := made
      obtain ⟨hsplit⟩ := exists_split hresult
      exact .bulk id edit s' link hsplit

theorem find?_eraseAll (ids : List ObjectId) (s : Store) (id : ObjectId) :
    (ids.foldl eraseObject s).entity? id = (if id ∈ ids then none else s.entity? id) ∧
      (ids.foldl eraseObject s).exceptions.find? id =
        (if id ∈ ids then none else s.exceptions.find? id) ∧
      (ids.foldl eraseObject s).link? id = (if id ∈ ids then none else s.link? id) := by
  induction ids generalizing s with
  | nil => simp
  | cons other ids ih =>
    obtain ⟨hentity, hexceptions, hlink⟩ := ih (s.eraseObject other)
    rw [List.foldl_cons, hentity, hexceptions, hlink]
    unfold entity? link? eraseObject
    simp only [Table.find?_erase, List.mem_cons]
    by_cases hid : id = other <;> by_cases hmem : id ∈ ids <;> simp [hid, hmem]

theorem link?_of_eraseAll {ids : List ObjectId} {link : Link}
    (hlink : (ids.foldl eraseObject s).link? id = some link) : s.link? id = some link := by
  rw [(find?_eraseAll ids s id).2.2] at hlink
  split at hlink
  · cases hlink
  · exact hlink

def Keyed (s : Store) : Prop :=
  ∀ id table, s.exceptions.find? id = some table → table.Keyed

theorem Keyed.exceptionsOf (hs : s.Keyed) (id : ObjectId) : (s.exceptionsOf id).Keyed := by
  unfold Store.exceptionsOf
  cases hfind : s.exceptions.find? id with
  | none => exact ExceptionTable.keyed_empty
  | some table => exact hs id table hfind

theorem Keyed.insert_exceptions (hs : s.Keyed) {table : ExceptionTable} (htable : table.Keyed) :
    Keyed { s with exceptions := s.exceptions.insert id table } := by
  intro other found hfound
  change (s.exceptions.insert id table).find? other = some found at hfound
  rw [Table.find?_insert] at hfound
  split at hfound
  · exact Option.some.inj hfound ▸ htable
  · exact hs other found hfound

theorem Keyed.of_step {edit : Edit} (hs : s.Keyed) (hstep : s.Step edit s') : s'.Keyed := by
  cases hstep with
  | refused => exact hs
  | insert e => exact hs
  | insertLink link => exact hs
  | upsertException e parent hparent =>
    exact hs.insert_exceptions ((hs.exceptionsOf e.parent).record e)
  | removeException parent date table htable =>
    exact hs.insert_exceptions ((hs parent table htable).erase _)
  | bulk id edit s' link hsplit =>
    unfold Keyed
    rw [hsplit.exceptions_eq]
    exact hs
  | deleteChain root =>
    intro id table htable
    rw [(find?_eraseAll _ s id).2.1] at htable
    split at htable
    · cases htable
    · exact hs id table htable

/-- Only objects of the store have exceptions or go on as others. -/
def Owned (s : Store) : Prop :=
  ∀ id, s.entity? id = none → s.exceptions.find? id = none ∧ s.link? id = none

theorem Owned.insert_exceptions (hs : s.Owned) {table : ExceptionTable}
    (hid : s.entity? id ≠ none) : Owned { s with exceptions := s.exceptions.insert id table } := by
  intro other hother
  have hne : other ≠ id := by
    rintro rfl
    exact hid hother
  change (s.exceptions.insert id table).find? other = none ∧ s.link? other = none
  rw [Table.find?_insert, if_neg hne]
  exact hs other hother

theorem Owned.of_step {edit : Edit} (hs : s.Owned) (hstep : s.Step edit s')
    (hedit : edit.keepsLinks = true) : s'.Owned := by
  cases hstep with
  | refused => exact hs
  | insertLink link => simp [Edit.keepsLinks] at hedit
  | insert e =>
    intro id hid
    change (s.entities.insert e.id e).find? id = none at hid
    rw [Table.find?_insert] at hid
    split at hid
    · cases hid
    · exact hs id hid
  | upsertException e parent hparent =>
    exact hs.insert_exceptions (by simp [hparent])
  | removeException parent date table htable =>
    refine hs.insert_exceptions fun hnone => ?_
    rw [(hs parent hnone).1] at htable
    cases htable
  | bulk root edit s' link hsplit =>
    intro id hid
    obtain ⟨hnone, hne⟩ := hsplit.entity?_of_eq_none hid
    rw [hsplit.exceptions_eq, hsplit.link?_eq, if_neg hne]
    exact hs id hnone
  | deleteChain root =>
    intro id hid
    obtain ⟨hentity, hexceptions, hlink⟩ := find?_eraseAll (s.chainIds root) s id
    rw [hexceptions, hlink]
    rw [hentity] at hid
    by_cases hmem : id ∈ s.chainIds root
    · simp [hmem]
    · rw [if_neg hmem] at hid ⊢
      rw [if_neg hmem]
      exact hs id hid

/-- What every step preserves holds after every run of allowed edits. -/
theorem foldl_perform_preserves {P : Store → Prop} (allowed : Edit → Prop)
    (hstep : ∀ (s s' : Store) (edit : Edit), allowed edit → P s → s.Step edit s' → P s')
    (hs : P s) :
    ∀ edits : List Edit, (∀ edit ∈ edits, allowed edit) → P (edits.foldl perform s) := by
  intro edits hall
  induction edits generalizing s with
  | nil => exact hs
  | cons edit edits ih =>
    have hfirst := hstep s _ edit (hall edit List.mem_cons_self) hs (s.step_perform edit)
    exact ih hfirst fun e he => hall e (List.mem_cons_of_mem edit he)

theorem keyed_run (edits : List Edit) : (run edits).Keyed := by
  have hempty : empty.Keyed := by
    intro id table htable
    cases htable
  exact foldl_perform_preserves (fun _ => True)
    (fun s s' edit _ hs hstep => hs.of_step hstep) hempty edits fun _ _ => trivial

theorem owned_run (edits : List Edit) (hedits : ∀ edit ∈ edits, edit.keepsLinks = true) :
    (run edits).Owned := by
  have hempty : empty.Owned := fun id _ => ⟨rfl, rfl⟩
  exact foldl_perform_preserves (fun edit => edit.keepsLinks = true)
    (fun s s' edit hedit hs hstep => hs.of_step hstep hedit) hempty edits hedits

end Store

end Recurrence
