import Mathlib.Logic.Relation
import Recurrence.Proofs.BulkSplit

set_option autoImplicit false
set_option relaxedAutoImplicit false

/-!
What holds of every store, whatever edits made it. Objects, links and exceptions stand where they
belong, and the links lead nowhere in a circle. No edit looks at all links for that: a new link
leads to an object that did not exist, and what does not exist goes on as nothing, even if older
links still lead to it.
-/

namespace Recurrence

namespace ExceptionTable

variable {t : ExceptionTable} {xs : List Exception} {second : Instant} {e : Exception}

end ExceptionTable

private theorem transGen_of_dead_ends {α : Type} {r r' : α → α → Prop} {a b : α}
    (hr : ∀ x y, r' x y → r x y ∨ ∀ z, ¬ r' y z) (h : Relation.TransGen r' a b)
    (hb : ∃ c, r' b c) : Relation.TransGen r a b := by
  have hold : ∀ x y, r' x y → (∃ z, r' y z) → r x y := by
    rintro x y hxy ⟨z, hyz⟩
    exact (hr x y hxy).resolve_right fun hdead => hdead z hyz
  induction h with
  | single hab => exact .single (hold _ _ hab hb)
  | tail _ hbc ih => exact .tail (ih ⟨_, hbc⟩) (hold _ _ hbc hb)

namespace Store

variable {s s' : Store} {id : ObjectId}

/-- The links of a store, those to objects that are gone included, lead nowhere in a circle. -/
def Acyclic (s : Store) : Prop :=
  ∀ id, ¬ Relation.TransGen (fun a b => s.continuation? a = some b) id id

private theorem Acyclic.of_dead_ends (hs : s.Acyclic)
    (hlinks : ∀ a b, s'.continuation? a = some b →
      s.continuation? a = some b ∨ s'.continuation? b = none) : s'.Acyclic := by
  intro id hcycle
  have hnext : ∃ c, s'.continuation? id = some c := by
    obtain ⟨c, hc, -⟩ := Relation.TransGen.head'_iff.1 hcycle
    exact ⟨c, hc⟩
  refine hs id (transGen_of_dead_ends (fun a b hab => ?_) hcycle hnext)
  refine (hlinks a b hab).imp_right fun hdead c hbc => ?_
  rw [hdead] at hbc
  cases hbc

theorem Acyclic.of_links (hs : s.Acyclic)
    (hlinks : ∀ a link, s'.link? a = some link → s.link? a = some link) : s'.Acyclic := by
  refine hs.of_dead_ends fun a b hab => Or.inl ?_
  obtain ⟨link, hlink, hb⟩ := Option.bind_eq_some_iff.1 hab
  exact Option.bind_eq_some_iff.2 ⟨link, hlinks a link hlink, hb⟩

theorem Acyclic.of_step {edit : Edit} (hs : s.Acyclic) (howned : s.Owned)
    (hstep : s.Step edit s') (hedit : edit.keepsLinks = true) : s'.Acyclic := by
  cases hstep with
  | refused => exact hs
  | insert e => exact hs
  | upsertException e parent hparent => exact hs
  | removeException parent date table htable => exact hs
  | insertLink link => simp [Edit.keepsLinks] at hedit
  | deleteChain root => exact hs.of_links fun a link hlink => link?_of_eraseAll hlink
  | bulk root edit s' link hsplit =>
    refine hs.of_dead_ends fun a b hab => ?_
    simp only [continuation?, hsplit.link?_eq] at hab ⊢
    by_cases ha : a = root
    · -- The new link leads to an object that is new, too.
      rw [if_pos ha, Option.bind_some, hsplit.link_eq] at hab
      obtain ⟨e, he, rfl⟩ := Option.map_eq_some_iff.1 hab
      rw [if_neg (hsplit.id_ne he), (howned e.id (hsplit.fresh e he).2).2]
      exact Or.inr rfl
    · rw [if_neg ha] at hab
      exact Or.inl hab

structure Named (s : Store) : Prop where
  entity : ∀ id e, s.entity? id = some e → e.id = id
  link : ∀ id link, s.link? id = some link → link.root = id
  exception : ∀ id second e, (s.exceptionsOf id).find? second = some e → e.parent = id

theorem find?_exceptionsOf_insert (table : ExceptionTable) (other : ObjectId) :
    exceptionsOf { s with exceptions := s.exceptions.insert id table } other =
      if other = id then table else s.exceptionsOf other := by
  simp only [exceptionsOf, Table.find?_insert]
  split <;> rfl

theorem Split.entity?_eq {edit : BulkEdit} {link : Link} (h : s.Split id edit s' link)
    {other : ObjectId} {e : Entity} (he : s'.entity? other = some e) :
    (h.continuation = some e ∧ e.id = other) ∨ (other = id ∧ e = h.stored) ∨
      s.entity? other = some e := by
  have htruncate := h.entity?_truncate other
  have hbefore : (s.truncate id h.root h.rules.truncated).entity? other = some e →
      (other = id ∧ e = h.stored) ∨ s.entity? other = some e := by
    intro hfound
    rw [htruncate] at hfound
    split at hfound
    · rename_i hother
      exact Or.inl ⟨hother, (Option.some.inj hfound).symm⟩
    · exact Or.inr hfound
  rw [h.entity?_result] at he
  cases hcontinuation : h.continuation with
  | none =>
    rw [hcontinuation] at he
    exact Or.inr (hbefore he)
  | some new =>
    rw [hcontinuation] at he
    change Table.find? (Table.insert _ new.id new) other = some e at he
    rw [Table.find?_insert] at he
    split at he
    · rename_i hother
      obtain rfl := Option.some.inj he
      exact Or.inl ⟨rfl, hother.symm⟩
    · exact Or.inr (hbefore he)

private theorem Split.stored_id {edit : BulkEdit} {link : Link} (h : s.Split id edit s' link) :
    h.stored.id = h.root.id := by
  unfold stored
  cases h.rules.truncated <;> rfl

theorem Named.of_step {edit : Edit} (hs : s.Named) (hstep : s.Step edit s') : s'.Named := by
  cases hstep with
  | refused => exact hs
  | insert e =>
    refine ⟨fun id found hfound => ?_, hs.link, hs.exception⟩
    change (s.entities.insert e.id e).find? id = some found at hfound
    rw [Table.find?_insert] at hfound
    split at hfound
    · rename_i hid
      rw [hid, Option.some.inj hfound]
    · exact hs.entity id found hfound
  | insertLink link =>
    refine ⟨hs.entity, fun id found hfound => ?_, hs.exception⟩
    change (s.links.insert link.root link).find? id = some found at hfound
    rw [Table.find?_insert] at hfound
    split at hfound
    · rename_i hid
      rw [hid, Option.some.inj hfound]
    · exact hs.link id found hfound
  | upsertException e parent hparent =>
    refine ⟨hs.entity, hs.link, fun id second found hfound => ?_⟩
    rw [find?_exceptionsOf_insert] at hfound
    split at hfound
    · rename_i hid
      simp only [ExceptionTable.record, Table.find?_insert] at hfound
      split at hfound
      · rw [hid, Option.some.inj hfound]
      · rw [hid]
        exact hs.exception e.parent second found hfound
    · exact hs.exception id second found hfound
  | removeException parent date table htable =>
    refine ⟨hs.entity, hs.link, fun id second found hfound => ?_⟩
    rw [find?_exceptionsOf_insert] at hfound
    split at hfound
    · rename_i hid
      rw [Table.find?_erase] at hfound
      split at hfound
      · cases hfound
      · refine hs.exception id second found ?_
        rw [hid, exceptionsOf, htable]
        exact hfound
    · exact hs.exception id second found hfound
  | bulk root edit s' link hsplit =>
    refine ⟨fun id e he => ?_, fun id found hfound => ?_, fun id second e he => ?_⟩
    · rcases hsplit.entity?_eq he with ⟨-, hid⟩ | ⟨rfl, rfl⟩ | hbefore
      · exact hid
      · rw [hsplit.stored_id]
        exact hs.entity _ _ hsplit.root_eq
      · exact hs.entity id e hbefore
    · rw [hsplit.link?_eq] at hfound
      split at hfound
      · rename_i hid
        rw [hid, ← Option.some.inj hfound, hsplit.link_eq]
      · exact hs.link id found hfound
    · unfold exceptionsOf at he
      rw [hsplit.exceptions_eq] at he
      exact hs.exception id second e he
  | deleteChain root =>
    have hfind := find?_eraseAll (s.chainIds root) s
    refine ⟨fun id e he => ?_, fun id link hlink => ?_, fun id second e he => ?_⟩
    · rw [(hfind id).1] at he
      split at he
      · cases he
      · exact hs.entity id e he
    · exact hs.link id link (link?_of_eraseAll hlink)
    · unfold exceptionsOf at he
      rw [(hfind id).2.1] at he
      split at he
      · cases he
      · exact hs.exception id second e he

end Store

end Recurrence
