import Mathlib.Order.Bounds.Basic
import Recurrence.Proofs.NumberedCandidates
import Recurrence.Proofs.OrdinaryTime

set_option autoImplicit false
set_option relaxedAutoImplicit false

/-!
The last instant of a series before another one, for any instant, within the rule's bounds or not. If
the rule's end comes first, the search starts just behind it; if more candidates come before than
the count allows, the search goes back to the last one that still counts.
-/

namespace Recurrence

open Calendar

namespace Ascending

universe u

variable {α : Type u} {r : α → α → Prop}

private theorem mem_takeWhile_iff {xs : List α} (hxs : xs.Pairwise r) {keep : α → Bool}
    (hkeep : ∀ a b, r a b → keep b = true → keep a = true) {a : α} :
    a ∈ xs.takeWhile keep ↔ a ∈ xs ∧ keep a = true := by
  induction xs with
  | nil => simp
  | cons x xs ih =>
    obtain ⟨hx, hrest⟩ := List.pairwise_cons.1 hxs
    cases hkept : keep x with
    | true =>
      rw [List.takeWhile_cons_of_pos hkept, List.mem_cons, List.mem_cons, ih hrest, or_and_right]
      refine or_congr_left (iff_self_and.2 ?_)
      rintro rfl
      exact hkept
    | false =>
      rw [List.takeWhile_cons_of_neg (by simp [hkept])]
      refine iff_of_false List.not_mem_nil ?_
      rintro ⟨ha, hkeepa⟩
      rcases List.mem_cons.1 ha with rfl | ha
      · simp [hkept] at hkeepa
      · have hearlier := hkeep x a (hx a ha) hkeepa
        simp [hkept] at hearlier

end Ascending

namespace Pattern

variable {p : Pattern} {b c t : Instant} {k n : Nat}

/-- The series of a rule as its first `n` periods list it: their candidates one after the other, cut
off after as many as the count says and behind the rule's end. -/
def bounded (p : Pattern) (n : Nat) : List Instant :=
  (upTo (p.rule.count.map (·.val.toNat)) (p.enumerate 0 n)).takeWhile fun c =>
    p.rule.ends.all fun e => c ≤ e

def Counts (p : Pattern) (c : Instant) : Prop :=
  ∀ n, p.rule.count = some n → p.numberBefore c < n.val.toNat

private theorem mem_bounded_iff : c ∈ p.bounded n ↔
    c ∈ p.enumerate 0 n ∧ p.Counts c ∧ ∀ e, p.rule.ends = some e → c ≤ e := by
  have hlisted : (upTo (p.rule.count.map (·.val.toNat)) (p.enumerate 0 n)).Pairwise (· < ·) := by
    unfold upTo
    split
    · exact (p.enumerate_ascending 0 n).take
    · exact p.enumerate_ascending 0 n
  have hearlier : ∀ a b : Instant, a < b → p.rule.ends.all (fun e => b ≤ e) = true →
      p.rule.ends.all (fun e => a ≤ e) = true := by
    intro a b hab hb
    rw [Option.all_eq_true] at hb ⊢
    intro e he
    exact decide_eq_true (hab.le.trans (of_decide_eq_true (hb e he)))
  unfold bounded
  rw [Ascending.mem_takeWhile_iff hlisted hearlier, mem_upTo_iff (p.enumerate_ascending 0 n),
    and_assoc, Option.all_eq_true]
  refine and_congr_right fun hc => and_congr ?_ ?_
  · obtain ⟨k, -, hk, hmem⟩ := mem_enumerate.1 hc
    rw [length_filter_enumerate hmem (by omega)]
    unfold Counts
    cases p.rule.count <;> simp
  · simp

private theorem exists_mem_bounded_iff : (∃ n, c ∈ p.bounded n) ↔ p.Offers c := by
  simp only [mem_bounded_iff]
  constructor
  · rintro ⟨n, hmem, hcounts, hends⟩
    obtain ⟨k, -, -, hk⟩ := mem_enumerate.1 hmem
    exact ⟨⟨k, hk⟩, hends, hcounts⟩
  · intro hc
    obtain ⟨k, hk⟩ := hc.period
    exact ⟨k + 1, mem_enumerate.2 ⟨k, by omega, by omega, hk⟩, hc.count, hc.ends⟩

private theorem not_leap_of_mem_candidates (hleap : p.anchor.time.isLeap = false)
    (hc : c ∈ p.candidates k) : c.time.isLeap = false := by
  have hnano := (mem_candidates.1 hc).2.1.nano
  unfold TimeOfDay.isLeap at hleap ⊢
  rw [hnano, hleap]

private theorem le_of_numberBefore_le {i j : Nat} (hb : b ∈ p.candidates i)
    (hc : c ∈ p.candidates j) (hle : p.numberBefore b ≤ p.numberBefore c) : b ≤ c := by
  by_contra hcb
  have hlt := numberBefore_lt hc hb (not_le.1 hcb)
  omega

/-- If the candidate in a period has at least as many before it as the count allows, the one with
the count's number is the last that counts. -/
private theorem nth?_of_le_numberBefore {upper : Nat} (hc : c ∈ p.candidates upper)
    (hroom : p.periodEnd upper ≤ lastDay) (hn : 1 ≤ n) (hle : n ≤ p.numberBefore c) :
    ∃ d j, p.nth? n upper = some d ∧ d ∈ p.candidates j ∧ p.numberBefore d = n - 1 ∧ d < c := by
  have hbefore := hle
  unfold numberBefore at hbefore
  rw [periodOf_of_mem_candidates hc] at hbefore
  have hlength := hbefore.trans (List.length_filter_le _ _)
  obtain ⟨d, hd⟩ : ∃ d, (p.enumerate 0 (upper + 1))[n - 1]? = some d :=
    ⟨_, List.getElem?_eq_getElem (by omega)⟩
  obtain ⟨j, -, hj, hmem⟩ := mem_enumerate.1 (List.mem_of_getElem? hd)
  have hnumber : p.numberBefore d = n - 1 := by
    rw [← length_filter_enumerate hmem (show j < upper + 1 by omega)]
    exact Ascending.length_filter_of_getElem? (p.enumerate_ascending 0 _) hd
  refine ⟨d, j, (nth?_eq_getElem? hn hlength hroom).trans hd, hmem, hnumber, ?_⟩
  by_contra hcd
  rcases (not_lt.1 hcd).eq_or_lt with rfl | hlt
  · omega
  · have hmore := numberBefore_lt hc hmem hlt
    omega

def countedBefore (p : Pattern) (t : Instant) : Set Instant :=
  {c | (∃ k, c ∈ p.candidates k) ∧ p.Counts c ∧ c < t}

private theorem bounded_and_lt_iff {bound : Instant} (hleap : p.anchor.time.isLeap = false)
    (hbound : ∀ c : Instant, c.time.isLeap = false →
      (c < bound ↔ c < t ∧ ∀ e, p.rule.ends = some e → c ≤ e)) :
    ((∃ n, b ∈ p.bounded n) ∧ b < t) ↔ b ∈ p.countedBefore bound := by
  rw [exists_mem_bounded_iff]
  constructor
  · rintro ⟨hb, hbt⟩
    obtain ⟨k, hk⟩ := hb.period
    exact ⟨⟨k, hk⟩, hb.count, (hbound b (not_leap_of_mem_candidates hleap hk)).2 ⟨hbt, hb.ends⟩⟩
  · rintro ⟨⟨k, hk⟩, hcounts, hlt⟩
    obtain ⟨hbt, hends⟩ := (hbound b (not_leap_of_mem_candidates hleap hk)).1 hlt
    exact ⟨⟨⟨k, hk⟩, hends, hcounts⟩, hbt⟩

private theorem lastBefore_spec (ht : t.Inner) :
    (p.lastBefore t = none → ∀ b, b ∉ p.countedBefore t) ∧
      ∀ c, p.lastBefore t = some c → IsGreatest (p.countedBefore t) c := by
  cases hlast : p.lastUpTo t (p.periodOf t.day) with
  | none =>
    rw [lastBefore_of_lastUpTo_eq_none hlast]
    refine ⟨?_, by simp⟩
    rintro - b ⟨⟨k, hk⟩, -, hbt⟩
    exact lastUpTo_eq_none hlast b (mem_enumerate_of_lt hk hbt) hbt
  | some found =>
    obtain ⟨period, c⟩ := found
    obtain ⟨hc, hct⟩ := mem_candidates_of_lastUpTo hlast
    have hmax : ∀ k, ∀ b ∈ p.candidates k, b < t → b ≤ c := fun k b hb hbt =>
      (lastUpTo_eq_some hlast).2.2 b (mem_enumerate_of_lt hb hbt) hbt
    have hbefore := countBefore_eq_min hc
    by_cases hkeep : ∀ count, p.rule.count = some count → ¬ count.val ≤ p.countBefore c
    · have hcounts : p.Counts c := by
        intro count hcount
        have hless := hkeep count hcount
        have hlimit := count.le_high
        unfold countLimit at hbefore
        omega
      rw [lastBefore_of_lastUpTo_eq_some hlast hkeep]
      refine ⟨by simp, ?_⟩
      rintro _ ⟨⟩
      refine ⟨⟨⟨period, hc⟩, hcounts, hct⟩, ?_⟩
      rintro b ⟨⟨k, hk⟩, -, hbt⟩
      exact hmax k b hk hbt
    · push Not at hkeep
      obtain ⟨count, hcount, hused⟩ := hkeep
      have hle : count.val.toNat ≤ p.numberBefore c := by omega
      rw [lastBefore_of_count_used hlast hcount hused]
      cases hn : count.val.toNat with
      | zero =>
        refine ⟨?_, fun d hd => ?_⟩
        · rintro - b ⟨-, hb, -⟩
          have hfew := hb count hcount
          omega
        · unfold nth? at hd
          simp at hd
      | succ n =>
        have hroom := periodEnd_le_lastDay ht
          ((unitOf_of_mem_candidates hc).ge.trans
            (Frequency.unitOf_mono _ _ (Instant.day_le_of_le hct.le)))
        obtain ⟨d, j, hd, hmem, hnumber, hdc⟩ :=
          nth?_of_le_numberBefore hc hroom (Nat.succ_pos n) (hn.ge.trans hle)
        rw [hd]
        refine ⟨by simp, ?_⟩
        rintro _ ⟨⟩
        refine ⟨⟨⟨j, hmem⟩, ?_, hdc.trans hct⟩, ?_⟩
        · intro m hm
          obtain rfl : count = m := Option.some.inj (hcount.symm.trans hm)
          omega
        · rintro b ⟨⟨k, hk⟩, hcounts, -⟩
          have hfew := hcounts count hcount
          exact le_of_numberBefore_le hk hmem (by omega)

end Pattern

namespace Series

variable {r : Rule} {anchor t c : Instant}

private theorem searchBound_spec (ht : t.Inner) (hleap : t.time.isLeap = false)
    (hends : ∀ e, r.ends = some e → firstDay ≤ e.day) :
    ∃ bound, searchBound r t = .ok bound ∧ bound ≤ t ∧
      ∀ c : Instant, c.time.isLeap = false →
        (c < bound ↔ c < t ∧ ∀ e, r.ends = some e → c ≤ e) := by
  cases he : r.ends with
  | none =>
    have hbound : searchBound r t = .ok t := searchBound_of_le (by simp [he])
    exact ⟨t, hbound, le_rfl, fun c _ => by simp⟩
  | some e =>
    by_cases hlt : e < t
    · have hday := Instant.day_le_of_le hlt.le
      have hroom := ht.day_add_lt
      have hadd := Instant.add_nanosecond (hends e he) (show e.day < lastDay by omega)
      have hbound : searchBound r t = .ok (e.shifted .nanosecond) := by
        unfold searchBound
        simp only [he, if_pos hlt, hadd]
      refine ⟨_, hbound, ?_, fun c hc => ?_⟩
      · exact (Instant.le_iff_of_add_nanosecond hadd (Or.inl hleap)).2 hlt
      · rw [← not_le, Instant.le_iff_of_add_nanosecond hadd (Or.inl hc), not_lt]
        simp only [Option.some.injEq, forall_eq']
        exact (and_iff_right_of_imp fun hce => hce.trans_lt hlt).symm
    · have hbound : searchBound r t = .ok t :=
        searchBound_of_le fun _ hother => Option.some.inj (he.symm.trans hother) ▸ not_lt.1 hlt
      refine ⟨t, hbound, le_rfl, fun c _ => (and_iff_left_of_imp fun hct => ?_).symm⟩
      rintro _ ⟨⟩
      exact hct.le.trans (not_lt.1 hlt)

private theorem searchFrom_spec {bound : Instant} (hanchor : anchor.Inner) (ht : t.Inner)
    (hle : bound ≤ t) :
    ((if bound ≤ anchor then none else (Pattern.of r anchor).lastBefore bound) = none →
        ∀ b, b ∉ (Pattern.of r anchor).countedBefore bound) ∧
      ∀ c, (if bound ≤ anchor then none else (Pattern.of r anchor).lastBefore bound) = some c →
        IsGreatest ((Pattern.of r anchor).countedBefore bound) c := by
  split
  · rename_i hstart
    refine ⟨?_, by simp⟩
    rintro - b ⟨⟨k, hk⟩, -, hlt⟩
    exact absurd (hlt.trans_le hstart) (not_lt.2 (Pattern.mem_candidates.1 hk).2.2)
  · rename_i hstart
    exact Pattern.lastBefore_spec (p := Pattern.of r anchor)
      (hanchor.of_between ht (not_le.1 hstart).le hle)

private theorem isGreatest_iff_of_search {S : Set Instant} {last : Option Instant}
    (hnone : last = none → ∀ b, b ∉ S) (hsome : ∀ c, last = some c → IsGreatest S c) :
    (last = none ↔ ∀ b, b ∉ S) ∧ ∀ c, last = some c ↔ IsGreatest S c := by
  cases last with
  | none =>
    refine ⟨iff_of_true rfl (hnone rfl), fun c => iff_of_false (by simp) fun hc => ?_⟩
    exact hnone rfl c hc.1
  | some d =>
    have hd := hsome d rfl
    refine ⟨iff_of_false (by simp) fun hempty => hempty d hd.1, fun c => ⟨hsome c, fun hc => ?_⟩⟩
    rw [hc.unique hd]

/-- The last instant of a series before another one is the greatest element before it of the series
that count and end bound, and there is none exactly if no such element comes before it. -/
theorem lastBefore?_isGreatest (r : Rule) (anchor t : Instant) (hanchor : anchor.Inner)
    (hanchorLeap : anchor.time.isLeap = false) (ht : t.Inner) (hleap : t.time.isLeap = false)
    (hends : ∀ e, r.ends = some e → firstDay ≤ e.day) :
    ∃ last, (⟨some r, anchor⟩ : Series).lastBefore? t = .ok last ∧
      (last = none ↔ ∀ n, ∀ b ∈ (Pattern.of r anchor).bounded n, ¬ b < t) ∧
      ∀ c, last = some c ↔
        IsGreatest {b | (∃ n, b ∈ (Pattern.of r anchor).bounded n) ∧ b < t} c := by
  obtain ⟨bound, hbound, hle, hiff⟩ := searchBound_spec (r := r) ht hleap hends
  obtain ⟨hnone, hsome⟩ := searchFrom_spec (r := r) hanchor ht hle
  have hset : {b | (∃ n, b ∈ (Pattern.of r anchor).bounded n) ∧ b < t} =
      (Pattern.of r anchor).countedBefore bound := by
    ext b
    exact Pattern.bounded_and_lt_iff (p := Pattern.of r anchor) hanchorLeap hiff
  obtain ⟨hempty, hgreatest⟩ := isGreatest_iff_of_search hnone hsome
  have hcheck := Pattern.checkStart_of_inner (p := Pattern.of r anchor) hanchor
  refine ⟨_, lastBefore?_eq_of_searchBound hcheck hbound, ?_, fun c => hset ▸ hgreatest c⟩
  rw [hempty, ← hset]
  constructor
  · exact fun h n b hb hbt => h b ⟨⟨n, hb⟩, hbt⟩
  · rintro h b ⟨⟨n, hb⟩, hbt⟩
    exact h n b hb hbt

/-- Of the months of 31 days until May a series keeps two, January and March. Behind the end of the
series the search passes June, which has no candidate, finds that May no longer counts, and goes back
to March. -/
theorem thirty_first_before_end :
    let r : Rule := { frequency := .monthly
                      monthDays := .ofList [⟨31, by decide, by decide⟩]
                      count := some ⟨2, by decide, by decide⟩
                      ends := some (.nine 2024 6 15) }
    (Instant.nine 2024 1 2).Inner ∧ (Instant.nine 2024 9 1).Inner ∧
      (⟨some r, Instant.nine 2024 1 2⟩ : Series).lastBefore? (.nine 2024 9 1) =
        .ok (some (.nine 2024 3 31)) ∧
      IsGreatest {b | (∃ n, b ∈ (Pattern.of r (.nine 2024 1 2)).bounded n) ∧ b < .nine 2024 9 1}
        (.nine 2024 3 31) := by
  intro r
  have hanchor : (Instant.nine 2024 1 2).Inner := by decide
  have ht : (Instant.nine 2024 9 1).Inner := by decide
  have hfound : (⟨some r, Instant.nine 2024 1 2⟩ : Series).lastBefore? (.nine 2024 9 1) =
      .ok (some (.nine 2024 3 31)) := by decide +kernel
  obtain ⟨last, hlast, -, hgreatest⟩ := lastBefore?_isGreatest r (.nine 2024 1 2) (.nine 2024 9 1)
    hanchor (by decide) ht (by decide) (by rintro _ ⟨⟩; decide)
  rw [hfound] at hlast
  obtain rfl := Except.ok.inj hlast
  exact ⟨hanchor, ht, hfound, (hgreatest _).1 rfl⟩

end Series

end Recurrence
