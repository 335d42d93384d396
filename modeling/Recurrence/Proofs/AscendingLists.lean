import Mathlib.Data.Set.Card

set_option autoImplicit false
set_option relaxedAutoImplicit false

/-!
Lists that ascend strictly. Such a list is determined by its members, and how many elements stand
before one of them is how many are less.
-/

namespace Recurrence.Ascending

universe u

variable {α : Type u} {r : α → α → Prop} [IsStrictOrder α r]

theorem nodup {xs : List α} (hxs : xs.Pairwise r) : xs.Nodup := by
  refine hxs.imp ?_
  rintro a b hab rfl
  exact irrefl_of r a hab

theorem eq_of_mem_iff {xs ys : List α} (hxs : xs.Pairwise r) (hys : ys.Pairwise r)
    (hmem : ∀ a, a ∈ xs ↔ a ∈ ys) : xs = ys := by
  have hperm : xs.Perm ys := (List.perm_ext_iff_of_nodup (nodup hxs) (nodup hys)).2 hmem
  refine hperm.eq_of_pairwise ?_ hxs hys
  intro a b _ _ hab hba
  exact absurd (trans_of r hab hba) (irrefl_of r a)

theorem encard_eq_length {xs : List α} (hxs : xs.Pairwise r) :
    {a | a ∈ xs}.encard = xs.length := by
  classical
  have hset : {a | a ∈ xs} = ↑xs.toFinset := by
    ext a
    simp
  rw [hset, Set.encard_coe_eq_coe_finsetCard, List.toFinset_card_of_nodup (nodup hxs)]

theorem mem_take_iff {xs : List α} (hxs : xs.Pairwise r) {a : α} {n : Nat} :
    a ∈ xs.take n ↔ a ∈ xs ∧ {b | b ∈ xs ∧ r b a}.encard < n := by
  induction xs generalizing n with
  | nil => simp
  | cons x xs ih =>
    obtain ⟨hx, hrest⟩ := List.pairwise_cons.1 hxs
    cases n with
    | zero => simp
    | succ n =>
      by_cases hax : a = x
      · subst hax
        have hnone : {b | b ∈ a :: xs ∧ r b a} = ∅ := by
          ext b
          simp only [List.mem_cons, Set.mem_ofPred_eq, Set.mem_empty_iff_false, iff_false, not_and]
          rintro (rfl | hb) hba
          · exact irrefl_of r b hba
          · exact irrefl_of r a (trans_of r (hx b hb) hba)
        rw [hnone, Set.encard_empty]
        simp
      · rw [List.take_succ_cons, List.mem_cons, List.mem_cons, or_iff_right hax,
          or_iff_right hax, ih hrest]
        refine and_congr_right fun ha => ?_
        have hsplit : {b | b ∈ x :: xs ∧ r b a} = insert x {b | b ∈ xs ∧ r b a} := by
          ext b
          simp only [List.mem_cons, Set.mem_ofPred_eq, Set.mem_insert_iff]
          constructor
          · rintro ⟨rfl | hb, hba⟩
            · exact Or.inl rfl
            · exact Or.inr ⟨hb, hba⟩
          · rintro (rfl | ⟨hb, hba⟩)
            · exact ⟨Or.inl rfl, hx a ha⟩
            · exact ⟨Or.inr hb, hba⟩
        have hnew : x ∉ {b | b ∈ xs ∧ r b a} := fun h => irrefl_of r x (hx x h.1)
        rw [hsplit, Set.encard_insert_of_notMem hnew, Nat.cast_succ]
        exact (ENat.add_lt_add_iff_right ENat.one_ne_top).symm

end Recurrence.Ascending
