import Recurrence.Proofs.Expansion

set_option autoImplicit false
set_option relaxedAutoImplicit false

/-!
What stands before an instant: how often a rule recurs before it, whether the instant belongs to
the series, and which instant of the series is the last one before it.
-/

namespace Recurrence

open Calendar

namespace Ascending

universe u

variable {α : Type u} {r : α → α → Prop}

private theorem le_getLast {xs : List α} (hxs : xs.Pairwise r) {a b : α}
    (hlast : xs.getLast? = some a) (hb : b ∈ xs) : b = a ∨ r b a := by
  obtain ⟨ys, rfl⟩ := List.getLast?_eq_some_iff.1 hlast
  rcases List.mem_append.1 hb with hb | hb
  · exact Or.inr ((List.pairwise_append.1 hxs).2.2 b hb a (List.mem_singleton.2 rfl))
  · exact Or.inl (List.mem_singleton.1 hb)

end Ascending

namespace Pattern

variable {p : Pattern} {k : Nat} {c t : Instant}

/-- The number of candidates before an instant is the number of times that the rule recurs before
it, as far as a count can hold it. -/
theorem countBefore_eq (hp : p.anchor.Inner) (ht : t.Inner) :
    ∃ n : Nat, {b | p.rule.Recurs p.anchor b ∧ b < t}.encard = n ∧
      p.countBefore t = min n countLimit := by
  unfold countBefore
  by_cases hle : t ≤ p.anchor
  · refine ⟨0, ?_, by simp [hle]⟩
    rw [Nat.cast_zero, Set.encard_eq_zero, Set.eq_empty_iff_forall_notMem]
    rintro b ⟨hb, hbt⟩
    exact absurd (lt_of_le_of_lt hb.from_anchor hbt) (not_lt.2 hle)
  · have hday := Instant.day_le_of_le (le_of_lt (not_le.1 hle))
    have hnext := p.unitOf_lt_unit_periodOf_succ t.day
    have hbegun := unit_periodOf_le hday
    have hstart : p.periodStart (p.periodOf t.day) ≤ lastDay := by
      have hroom := ht.day_add_lt
      have hle := Frequency.unitStart_le_iff.2 hbegun
      unfold periodStart
      omega
    have hearlier : (p.enumerate 0 (p.periodOf t.day)).filter (· < t) =
        p.enumerate 0 (p.periodOf t.day) := by
      refine List.filter_eq_self.2 fun b hb => decide_eq_true ?_
      obtain ⟨j, -, hj, hmem⟩ := mem_enumerate.1 hb
      refine Instant.lt_of_day_lt (day_lt_of_unitOf_lt (p := p) ?_)
      rw [unitOf_of_mem_candidates hmem]
      exact lt_of_lt_of_le (p.unit_lt_iff.2 (by omega)) hbegun
    have hset : {b | p.rule.Recurs p.anchor b ∧ b < t} =
        {b | b ∈ (p.enumerate 0 (p.periodOf t.day + 1)).filter (· < t)} := by
      ext b
      rw [Set.mem_ofPred_eq, Set.mem_ofPred_eq, List.mem_filter, decide_eq_true_eq,
        mem_enumerate_and_lt_iff hp ht hnext]
    refine ⟨_, by rw [hset, Ascending.encard_eq_length ((enumerate_ascending p 0 _).filter _)], ?_⟩
    rw [if_neg hle]
    change min (p.countInPeriods none (p.periodOf t.day) +
      ((p.candidates (p.periodOf t.day)).filter (· < t)).length) countLimit = _
    rw [countInPeriods_none (periodEnd_le_of_periodStart_le hstart), enumerate_succ_last,
      List.filter_append, List.length_append, hearlier]

theorem lastIn_eq_some (hc : p.lastIn t k = some c) :
    c ∈ p.candidates k ∧ c < t ∧ ∀ b ∈ p.candidates k, b < t → b ≤ c := by
  unfold lastIn at hc
  obtain ⟨hmem, hlt⟩ := List.mem_filter.1 (List.mem_of_getLast? hc)
  refine ⟨hmem, of_decide_eq_true hlt, ?_⟩
  intro b hb hbt
  rcases Ascending.le_getLast ((candidates_ascending p k).filter _) hc
    (List.mem_filter.2 ⟨hb, decide_eq_true hbt⟩) with heq | hlt
  · exact le_of_eq heq
  · exact le_of_lt hlt

private theorem lastIn_eq_none (hc : p.lastIn t k = none) : ∀ b ∈ p.candidates k, ¬ b < t := by
  unfold lastIn at hc
  rw [List.getLast?_eq_none_iff, List.filter_eq_nil_iff] at hc
  intro b hb hbt
  exact hc b hb (decide_eq_true hbt)

theorem lastUpTo_eq_some {j : Nat} (hc : p.lastUpTo t k = some (j, c)) :
    c ∈ p.enumerate 0 (k + 1) ∧ c < t ∧ ∀ b ∈ p.enumerate 0 (k + 1), b < t → b ≤ c := by
  induction k with
  | zero =>
    unfold lastUpTo at hc
    obtain ⟨d, hd, heq⟩ := Option.map_eq_some_iff.1 hc
    obtain rfl : d = c := congrArg Prod.snd heq
    rw [enumerate_succ, enumerate_zero, List.append_nil]
    exact lastIn_eq_some hd
  | succ k ih =>
    unfold lastUpTo at hc
    rw [enumerate_succ_last]
    simp only [List.mem_append]
    split at hc
    · rename_i d hd
      obtain rfl : d = c := congrArg Prod.snd (Option.some.inj hc)
      obtain ⟨hmem, hlt, hmax⟩ := lastIn_eq_some hd
      refine ⟨Or.inr hmem, hlt, ?_⟩
      rintro b (hb | hb) hbt
      · have hpair := enumerate_ascending p 0 (k + 1 + 1)
        rw [enumerate_succ_last] at hpair
        exact le_of_lt ((List.pairwise_append.1 hpair).2.2 b hb d hmem)
      · exact hmax b hb hbt
    · rename_i hnone
      obtain ⟨hmem, hlt, hmax⟩ := ih hc
      refine ⟨Or.inl hmem, hlt, ?_⟩
      rintro b (hb | hb) hbt
      · exact hmax b hb hbt
      · exact absurd hbt (lastIn_eq_none hnone b hb)

theorem lastUpTo_eq_none (hc : p.lastUpTo t k = none) :
    ∀ b ∈ p.enumerate 0 (k + 1), ¬ b < t := by
  induction k with
  | zero =>
    unfold lastUpTo at hc
    rw [enumerate_succ, enumerate_zero, List.append_nil]
    exact lastIn_eq_none (Option.map_eq_none_iff.1 hc)
  | succ k ih =>
    unfold lastUpTo at hc
    split at hc
    · simp at hc
    · rename_i hnone
      intro b hb
      rw [enumerate_succ_last] at hb
      rcases List.mem_append.1 hb with hb | hb
      · exact ih hc b hb
      · exact lastIn_eq_none hnone b hb

theorem lastBefore_of_lastUpTo_eq_none (hlast : p.lastUpTo t (p.periodOf t.day) = none) :
    p.lastBefore t = none := by
  unfold lastBefore
  rw [hlast]

theorem lastBefore_of_lastUpTo_eq_some (hlast : p.lastUpTo t (p.periodOf t.day) = some (k, c))
    (hkeep : ∀ count, p.rule.count = some count → ¬ count.val ≤ p.countBefore c) :
    p.lastBefore t = some c := by
  unfold lastBefore
  rw [hlast]
  simp only
  split
  · rename_i count hcount
    rw [if_neg (hkeep count hcount)]
  · rfl

theorem lastBefore_of_count_used {count : Word32}
    (hlast : p.lastUpTo t (p.periodOf t.day) = some (k, c)) (hcount : p.rule.count = some count)
    (hused : count.val ≤ p.countBefore c) : p.lastBefore t = p.nth? count.val.toNat k := by
  unfold lastBefore
  simp only [hlast, hcount]
  rw [if_pos hused]

end Pattern

namespace Series

variable {s : Series} {t : Instant}

theorem isCandidate_spec (hs : s.anchor.Inner) (ht : t.Inner) :
    ∃ b, s.isCandidate t = .ok b ∧ (b = true ↔ s.Yields t) := by
  obtain ⟨e, cs, hexpand, hlisting, htake⟩ := exists_listing hs ht ht (min 1 1)
  refine ⟨e.candidates.head? = some t, ?_, ?_⟩
  · unfold isCandidate first?
    rw [hexpand]
    rfl
  · rw [decide_eq_true_eq, htake, List.head?_take, if_neg (by decide)]
    constructor
    · intro hhead
      exact ((hlisting.mem_iff t).1 (List.mem_of_mem_head? hhead)).1
    · intro hyields
      have hmem := (hlisting.mem_iff t).2 ⟨hyields, le_refl t, le_refl t⟩
      obtain ⟨c, rest, rfl⟩ := List.exists_cons_of_ne_nil (List.ne_nil_of_mem hmem)
      have hc := (hlisting.mem_iff c).1 List.mem_cons_self
      rw [List.head?_cons, le_antisymm hc.2.2 hc.2.1]

theorem isCandidate_eq_ok_true_iff (hs : s.anchor.Inner) (ht : t.Inner) :
    s.isCandidate t = .ok true ↔ s.Yields t := by
  obtain ⟨found, hfound, hiff⟩ := isCandidate_spec hs ht
  rw [← hiff, hfound, Except.ok.injEq]

theorem countBefore_of_checkStart {r : Rule} {anchor : Instant}
    (hstart : (Pattern.of r anchor).checkStart = .ok ()) :
    (⟨some r, anchor⟩ : Series).countBefore t = .ok ((Pattern.of r anchor).countBefore t) := by
  unfold countBefore
  simp only
  split
  · rename_i hle
    unfold Pattern.countBefore
    exact congrArg Except.ok (if_pos hle).symm
  · rw [hstart]
    rfl

theorem countBefore_spec {r : Rule} {anchor : Instant} (hanchor : anchor.Inner) (ht : t.Inner) :
    ∃ n : Nat, {b | r.Recurs anchor b ∧ b < t}.encard = n ∧
      (⟨some r, anchor⟩ : Series).countBefore t = .ok (min n Pattern.countLimit) := by
  obtain ⟨n, hn, hcount⟩ := Pattern.countBefore_eq (p := Pattern.of r anchor) hanchor ht
  refine ⟨n, hn, ?_⟩
  rw [← hcount]
  exact countBefore_of_checkStart (Pattern.checkStart_of_inner (p := Pattern.of r anchor) hanchor)

theorem searchBound_of_le {r : Rule} (ht : ∀ e, r.ends = some e → t ≤ e) :
    searchBound r t = .ok t := by
  unfold searchBound
  split
  · rename_i e he
    rw [if_neg (not_lt.2 (ht e he))]
  · rfl

theorem lastBefore?_eq_of_searchBound {r : Rule} {anchor bound : Instant}
    (hstart : (Pattern.of r anchor).checkStart = .ok ()) (hbound : searchBound r t = .ok bound) :
    (⟨some r, anchor⟩ : Series).lastBefore? t =
      .ok (if bound ≤ anchor then none else (Pattern.of r anchor).lastBefore bound) := by
  unfold lastBefore?
  simp only [hbound, hstart]
  split <;> rename_i hstart
  · exact if_pos hstart
  · exact if_neg hstart

/-- Before an instant of the series, the last instant of the series is the last one at which the
rule recurs, since neither the end nor the count of the rule is reached. -/
theorem lastBefore?_of_inSeries {r : Rule} {anchor : Instant} (hanchor : anchor.Inner)
    (ht : t.Inner) (hseries : r.InSeries anchor t) :
    ∃ last, (⟨some r, anchor⟩ : Series).lastBefore? t = .ok last ∧
      (last = none → ∀ b, r.Recurs anchor b → ¬ b < t) ∧
      ∀ c, last = some c → r.Recurs anchor c ∧ c < t ∧ ∀ b, r.Recurs anchor b → b < t → b ≤ c := by
  rw [lastBefore?_eq_of_searchBound (Pattern.checkStart_of_inner (p := Pattern.of r anchor) hanchor)
    (searchBound_of_le hseries.ends)]
  refine ⟨_, rfl, ?_⟩
  by_cases hle : t ≤ anchor
  · rw [if_pos hle]
    refine ⟨?_, ?_⟩
    · intro _ b hb hbt
      exact absurd (lt_of_le_of_lt hb.from_anchor hbt) (not_lt.2 hle)
    · simp
  · have hnext := (Pattern.of r anchor).unitOf_lt_unit_periodOf_succ t.day
    have hmem := Pattern.mem_enumerate_and_lt_iff (p := Pattern.of r anchor) hanchor ht hnext
    rw [if_neg hle]
    cases hlast : (Pattern.of r anchor).lastUpTo t ((Pattern.of r anchor).periodOf t.day) with
    | none =>
      rw [Pattern.lastBefore_of_lastUpTo_eq_none hlast]
      refine ⟨fun _ b hb hbt => ?_, by simp⟩
      exact Pattern.lastUpTo_eq_none hlast b ((hmem b).2 ⟨hb, hbt⟩).1 hbt
    | some found =>
      obtain ⟨period, c⟩ := found
      obtain ⟨hc, hct, hmax⟩ := Pattern.lastUpTo_eq_some hlast
      have hrecurs := ((hmem c).1 ⟨hc, hct⟩).1
      have hcinner : c.Inner := hanchor.of_between ht hrecurs.from_anchor (le_of_lt hct)
      -- The count is not used up at the last candidate, since a later one still belongs to it.
      have hkeep : ∀ count, r.count = some count →
          ¬ count.val ≤ (Pattern.of r anchor).countBefore c := by
        intro count hcount hused
        obtain ⟨n, hn, hbefore⟩ :=
          Pattern.countBefore_eq (p := Pattern.of r anchor) hanchor hcinner
        have hsub : {b | r.Recurs anchor b ∧ b < c} ⊆ {b | r.Recurs anchor b ∧ b < t} :=
          fun b hb => ⟨hb.1, hb.2.trans hct⟩
        have hlt := lt_of_le_of_lt (Set.encard_le_encard hsub) (hseries.count count hcount)
        rw [show {b | r.Recurs anchor b ∧ b < c}.encard = n from hn, Nat.cast_lt] at hlt
        omega
      rw [Pattern.lastBefore_of_lastUpTo_eq_some hlast hkeep]
      refine ⟨by simp, ?_⟩
      rintro _ ⟨⟩
      refine ⟨hrecurs, hct, fun b hb hbt => ?_⟩
      exact hmax b ((hmem b).2 ⟨hb, hbt⟩).1 hbt

end Series

end Recurrence
