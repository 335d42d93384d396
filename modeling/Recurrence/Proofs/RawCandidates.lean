import Mathlib.Order.Bounds.Basic
import Recurrence.Proofs.CheckedSteps
import Recurrence.Proofs.Predecessors

set_option autoImplicit false
set_option relaxedAutoImplicit false

/-!
The raw candidates of a series wherever they lie, also at the ends of the calendar: the candidates
of its periods, as far as the rule's end and count go. An expansion yields no others, whatever its
window and cap, and the test for a single instant tells exactly these.
-/

namespace Recurrence

open Calendar

namespace Ascending

universe u

variable {α : Type u} {r : α → α → Prop} [IsStrictOrder α r] [DecidableRel r]

private theorem mem_take_iff_length {xs : List α} (hxs : xs.Pairwise r) {a : α} {n : Nat} :
    a ∈ xs.take n ↔ a ∈ xs ∧ (xs.filter fun b => r b a).length < n := by
  have hset : {b | b ∈ xs ∧ r b a} = {b | b ∈ xs.filter fun b => r b a} := by
    ext b
    rw [Set.mem_ofPred_eq, Set.mem_ofPred_eq, List.mem_filter, decide_eq_true_eq]
  rw [mem_take_iff hxs, hset, encard_eq_length (hxs.filter _), Nat.cast_lt]

end Ascending

namespace Pattern

variable {p : Pattern} {b c t : Instant} {k n : Nat}

theorem mem_upTo_iff {limit : Option Nat} {xs : List Instant} (hxs : xs.Pairwise (· < ·)) :
    c ∈ upTo limit xs ↔ c ∈ xs ∧ ∀ n, limit = some n → (xs.filter (· < c)).length < n := by
  cases limit with
  | none =>
    change c ∈ xs ↔ _
    simp
  | some n =>
    change c ∈ xs.take n ↔ _
    rw [Ascending.mem_take_iff_length hxs]
    simp

private theorem begun_of_mem_candidates (hc : c ∈ p.candidates k) : p.periodStart k ≤ lastDay := by
  have hday := (mem_candidates.1 hc).1
  unfold days at hday
  split at hday
  · assumption
  · cases hday

theorem periodOf_of_mem_candidates (hc : c ∈ p.candidates k) : p.periodOf c.day = k := by
  have hstep := p.step_pos
  unfold periodOf
  rw [unitOf_of_mem_candidates hc]
  unfold unit
  rw [show p.unitOf p.anchor.day + k * p.step - p.unitOf p.anchor.day = k * p.step by omega,
    Int.mul_ediv_cancel _ (by omega), Int.toNat_natCast]

private theorem lt_of_mem_candidates {i j : Nat} (hb : b ∈ p.candidates i) (hc : c ∈ p.candidates j)
    (hij : i < j) : b < c := by
  refine Instant.lt_of_day_lt (day_lt_of_unitOf_lt (p := p) ?_)
  rw [unitOf_of_mem_candidates hb, unitOf_of_mem_candidates hc]
  exact p.unit_lt_iff.2 hij

def numberBefore (p : Pattern) (c : Instant) : Nat :=
  ((p.enumerate 0 (p.periodOf c.day + 1)).filter (· < c)).length

theorem length_filter_enumerate (hc : c ∈ p.candidates k) (hk : k < n) :
    ((p.enumerate 0 n).filter (· < c)).length = p.numberBefore c := by
  have hlater : (p.enumerate (0 + (k + 1)) (n - (k + 1))).filter (· < c) = [] := by
    refine List.filter_eq_nil_iff.2 fun b hb => ?_
    obtain ⟨j, hj, -, hmem⟩ := mem_enumerate.1 hb
    have hlt := lt_of_mem_candidates hc hmem (by omega)
    simpa using hlt.le
  have hsplit := p.enumerate_append 0 (k + 1) (n - (k + 1))
  rw [show k + 1 + (n - (k + 1)) = n by omega] at hsplit
  unfold numberBefore
  rw [periodOf_of_mem_candidates hc, hsplit, List.filter_append, hlater, List.append_nil]

theorem numberBefore_lt {i j : Nat} (hb : b ∈ p.candidates i) (hc : c ∈ p.candidates j)
    (hbc : b < c) : p.numberBefore b < p.numberBefore c := by
  have hi : i < max i j + 1 := by omega
  have hj : j < max i j + 1 := by omega
  rw [← length_filter_enumerate hb hi, ← length_filter_enumerate hc hj]
  generalize hxs : p.enumerate 0 (max i j + 1) = xs
  have hmem : b ∈ xs := hxs ▸ mem_enumerate.2 ⟨i, by omega, by omega, hb⟩
  have hsub : (xs.filter (· < b)).Sublist (xs.filter (· < c)) := by
    refine List.monotone_filter_right xs fun a ha => ?_
    exact decide_eq_true ((of_decide_eq_true ha).trans hbc)
  refine Nat.lt_of_le_of_ne hsub.length_le fun hlength => ?_
  have hself : b ∈ xs.filter (· < b) := by
    rw [hsub.eq_of_length hlength]
    exact List.mem_filter.2 ⟨hmem, decide_eq_true hbc⟩
  exact lt_irrefl b (of_decide_eq_true (List.mem_filter.1 hself).2)

structure Offers (p : Pattern) (c : Instant) : Prop where
  period : ∃ k, c ∈ p.candidates k
  ends : ∀ t, p.rule.ends = some t → c ≤ t
  count : ∀ n, p.rule.count = some n → p.numberBefore c < n.val.toNat

theorem offers_of_mem_expand {cap : Nat} {start stop : Instant}
    (hc : c ∈ (p.expand cap start stop).candidates) : p.Offers c ∧ start ≤ c ∧ c ≤ stop := by
  rw [expand_candidates] at hc
  obtain ⟨hleft, hstart, hbound⟩ := of_mem_choose hc
  obtain ⟨hstop, hends⟩ := le_bound_iff.1 hbound
  obtain ⟨k, hlow, hhigh, hk⟩ := mem_enumerate.1 ((upTo_sublist _ _).mem hleft)
  have hbegun := (p.periodStart_mono hlow).trans (begun_of_mem_candidates hk)
  rw [left_expand hbegun] at hleft
  -- The earlier periods and the window's own ones make up the first periods of all.
  have hall : c ∈ upTo (p.rule.count.map (·.val.toNat)) (p.enumerate 0 (p.firstPeriod start +
      (p.periodsBy (p.bound stop).day - p.firstPeriod start))) := by
    rw [enumerate_append, upTo_append, Nat.zero_add]
    exact List.mem_append_right _ hleft
  obtain ⟨-, hcount⟩ := (mem_upTo_iff (p.enumerate_ascending 0 _)).1 hall
  refine ⟨⟨⟨k, hk⟩, hends, fun n hn => ?_⟩, hstart, hstop⟩
  rw [← length_filter_enumerate hk hhigh]
  exact hcount _ (by rw [hn]; rfl)

private theorem periodOf_mono (p : Pattern) {d d' : Int} (hd : d ≤ d') :
    p.periodOf d ≤ p.periodOf d' := by
  have hstep := p.step_pos
  have hunit := Frequency.unitOf_mono p.rule.frequency p.rule.weekStart hd
  have hdiv := Int.ediv_le_ediv (show 0 < p.step by omega)
    (Int.sub_le_sub_right hunit (p.unitOf p.anchor.day))
  unfold periodOf unitOf at *
  omega

theorem exists_head?_expand {cap : Nat} {start stop : Instant} (hc : p.Offers c)
    (hlow : start ≤ c) (hhigh : c ≤ stop) (hcap : 1 ≤ cap) :
    ∃ b, (p.expand cap start stop).candidates.head? = some b := by
  obtain ⟨k, hk⟩ := hc.period
  have hfirst : p.firstPeriod start ≤ k := by
    have hle := p.periodOf_mono (Instant.day_le_of_le hlow)
    rw [periodOf_of_mem_candidates hk] at hle
    unfold firstPeriod
    split <;> omega
  have hbegun : p.periodStart (p.firstPeriod start) ≤ lastDay :=
    (p.periodStart_mono hfirst).trans (begun_of_mem_candidates hk)
  have hbound : c ≤ p.bound stop := le_bound_iff.2 ⟨hhigh, hc.ends⟩
  have hreach : k < p.periodsBy (p.bound stop).day := by
    rw [lt_periodsBy_iff, ← unitOf_of_mem_candidates hk]
    exact Frequency.unitOf_mono _ _ (Instant.day_le_of_le hbound)
  have hall : c ∈ upTo (p.rule.count.map (·.val.toNat)) (p.enumerate 0 (p.firstPeriod start +
      (p.periodsBy (p.bound stop).day - p.firstPeriod start))) := by
    refine (mem_upTo_iff (p.enumerate_ascending 0 _)).2
      ⟨mem_enumerate.2 ⟨k, by omega, by omega, hk⟩, fun n hn => ?_⟩
    obtain ⟨count, hcount, rfl⟩ := Option.map_eq_some_iff.1 hn
    rw [length_filter_enumerate hk (by omega)]
    exact hc.count count hcount
  rw [enumerate_append, upTo_append, Nat.zero_add] at hall
  have hown := (List.mem_append.1 hall).resolve_left fun hearlier =>
    absurd (lt_start_of_mem_enumerate ((upTo_sublist _ _).mem hearlier)) (not_lt.2 hlow)
  rw [expand_candidates, left_expand hbegun]
  unfold choose
  generalize upTo _ (p.enumerate _ _) = left at hown
  have hmem : c ∈ left.filter fun d => start ≤ d ∧ d ≤ p.bound stop :=
    List.mem_filter.2 ⟨hown, decide_eq_true ⟨hlow, hbound⟩⟩
  obtain ⟨found, rest, hlist⟩ := List.exists_cons_of_ne_nil (List.ne_nil_of_mem hmem)
  rw [List.head?_take, if_neg (by omega), hlist]
  exact ⟨found, rfl⟩

private theorem head?_expand (hc : p.Offers c) : (p.expand 1 c c).candidates.head? = some c := by
  obtain ⟨b, hb⟩ := exists_head?_expand hc le_rfl le_rfl (le_refl 1)
  obtain ⟨-, hlow, hhigh⟩ := offers_of_mem_expand (List.mem_of_mem_head? hb)
  rw [hb, le_antisymm hhigh hlow]

theorem countBefore_eq_min (hc : c ∈ p.candidates k) :
    p.countBefore c = min (p.numberBefore c) countLimit := by
  unfold countBefore
  split
  · rename_i hle
    have hnone : (p.enumerate 0 (p.periodOf c.day + 1)).filter (· < c) = [] := by
      refine List.filter_eq_nil_iff.2 fun b hb hbc => ?_
      obtain ⟨j, -, -, hj⟩ := mem_enumerate.1 hb
      exact absurd ((of_decide_eq_true hbc).trans_le hle) (not_lt.2 (mem_candidates.1 hj).2.2)
    unfold numberBefore
    rw [hnone, List.length_nil, Nat.zero_min]
  · have hearlier : (p.enumerate 0 k).filter (· < c) = p.enumerate 0 k := by
      refine List.filter_eq_self.2 fun b hb => decide_eq_true ?_
      obtain ⟨j, -, hj, hmem⟩ := mem_enumerate.1 hb
      exact lt_of_mem_candidates hmem hc (by omega)
    unfold numberBefore
    simp only [periodOf_of_mem_candidates hc]
    rw [countInPeriods_none (periodEnd_le_of_periodStart_le (begun_of_mem_candidates hc)),
      enumerate_succ_last, List.filter_append, List.length_append, hearlier]

private theorem countBefore_le (hc : c ∈ p.candidates k) : p.countBefore c ≤ p.numberBefore c :=
  (countBefore_eq_min hc).trans_le (Nat.min_le_left _ _)

theorem lastBefore_eq {date : Instant} (hdate : p.Offers date) :
    p.lastBefore date = (p.lastUpTo date (p.periodOf date.day)).map Prod.snd := by
  unfold lastBefore
  cases hfound : p.lastUpTo date (p.periodOf date.day) with
  | none => rfl
  | some found =>
    obtain ⟨period, c⟩ := found
    obtain ⟨hmem, hlt, -⟩ := lastUpTo_eq_some hfound
    obtain ⟨k, -, -, hk⟩ := mem_enumerate.1 hmem
    obtain ⟨j, hj⟩ := hdate.period
    simp only [Option.map_some]
    -- Before a candidate within the bounds the count is not used up: what was found is the last.
    split
    · rename_i count hcount
      have hbefore := countBefore_le hk
      have hless := numberBefore_lt hk hj hlt
      have hleft := hdate.count count hcount
      rw [if_neg (by omega)]
    · rfl

theorem mem_candidates_of_lastUpTo {upper : Nat} (h : p.lastUpTo t upper = some (k, c)) :
    c ∈ p.candidates k ∧ c < t := by
  refine ⟨?_, (lastUpTo_eq_some h).2.1⟩
  induction upper with
  | zero =>
    unfold lastUpTo at h
    obtain ⟨d, hd, heq⟩ := Option.map_eq_some_iff.1 h
    cases heq
    exact (lastIn_eq_some hd).1
  | succ upper ih =>
    unfold lastUpTo at h
    split at h
    · rename_i d hd
      cases h
      exact (lastIn_eq_some hd).1
    · exact ih h

theorem mem_enumerate_of_lt (hc : c ∈ p.candidates k) (hct : c < t) :
    c ∈ p.enumerate 0 (p.periodOf t.day + 1) := by
  refine mem_enumerate.2 ⟨k, Nat.zero_le k, ?_, hc⟩
  have hunit := unitOf_of_mem_candidates hc
  have hmono := Frequency.unitOf_mono p.rule.frequency p.rule.weekStart
    (Instant.day_le_of_le hct.le)
  have hnext := p.unitOf_lt_unit_periodOf_succ t.day
  rw [Nat.zero_add, ← p.unit_lt_iff, ← hunit]
  exact lt_of_le_of_lt hmono hnext

private theorem Offers.of_mem_candidates {date : Instant} (hdate : p.Offers date)
    (hc : c ∈ p.candidates k) (hlt : c < date) : p.Offers c := by
  obtain ⟨j, hj⟩ := hdate.period
  refine ⟨⟨k, hc⟩, fun t ht => hlt.le.trans (hdate.ends t ht), fun n hn => ?_⟩
  exact (numberBefore_lt hc hj hlt).trans (hdate.count n hn)

theorem Offers.encard_before {date : Instant} (hdate : p.Offers date) :
    {c | p.Offers c ∧ c < date}.encard = p.numberBefore date := by
  have hset : {c | p.Offers c ∧ c < date} =
      {c | c ∈ (p.enumerate 0 (p.periodOf date.day + 1)).filter (· < date)} := by
    ext c
    rw [Set.mem_ofPred_eq, Set.mem_ofPred_eq, List.mem_filter, decide_eq_true_eq]
    refine and_congr_left fun hlt => ⟨fun hc => ?_, fun hc => ?_⟩
    · obtain ⟨k, hk⟩ := hc.period
      exact mem_enumerate_of_lt hk hlt
    · obtain ⟨k, -, -, hk⟩ := mem_enumerate.1 hc
      exact hdate.of_mem_candidates hk hlt
  rw [hset, Ascending.encard_eq_length ((p.enumerate_ascending 0 _).filter _)]
  rfl

/-- The search before a candidate within the rule's bounds finds the last one of those before it. -/
private theorem Offers.isGreatest_lastBefore {date : Instant} (hdate : p.Offers date) :
    (p.lastBefore date = none → ∀ c, p.Offers c → ¬ c < date) ∧
      ∀ last, p.lastBefore date = some last → IsGreatest {c | p.Offers c ∧ c < date} last := by
  rw [lastBefore_eq hdate]
  constructor
  · intro hnone c hc hlt
    obtain ⟨k, hk⟩ := hc.period
    exact lastUpTo_eq_none (Option.map_eq_none_iff.1 hnone) c (mem_enumerate_of_lt hk hlt) hlt
  · intro last hlast
    obtain ⟨⟨period, c⟩, hfound, rfl⟩ := Option.map_eq_some_iff.1 hlast
    obtain ⟨hc, hlt⟩ := mem_candidates_of_lastUpTo hfound
    refine ⟨⟨hdate.of_mem_candidates hc hlt, hlt⟩, ?_⟩
    rintro b ⟨hb, hbt⟩
    obtain ⟨k, hk⟩ := hb.period
    exact (lastUpTo_eq_some hfound).2.2 b (mem_enumerate_of_lt hk hbt) hbt

end Pattern

namespace Series

variable {s : Series} {r : Rule} {anchor b c date : Instant}

theorem isCandidate_eq_ok_true_iff_offers :
    (⟨some r, anchor⟩ : Series).isCandidate c = .ok true ↔
      (Pattern.of r anchor).checkStart = .ok () ∧ (Pattern.of r anchor).Offers c := by
  constructor
  · intro h
    obtain ⟨found, hfound, h⟩ := bind_eq_ok_iff.1 h
    obtain ⟨e, he, hhead⟩ := bind_eq_ok_iff.1 hfound
    obtain ⟨⟨⟩, hstart, hexpand⟩ := bind_eq_ok_iff.1 he
    cases hhead
    cases hexpand
    have hsome := of_decide_eq_true (Except.ok.inj h)
    exact ⟨hstart, (Pattern.offers_of_mem_expand (List.mem_of_mem_head? hsome)).1⟩
  · rintro ⟨hstart, hc⟩
    refine bind_eq_ok_iff.2
      ⟨some c, bind_eq_ok_iff.2 ⟨_, bind_eq_ok_iff.2 ⟨_, hstart, rfl⟩, ?_⟩, ?_⟩
    · exact congrArg Except.ok (Pattern.head?_expand hc)
    · simp [pure, Except.pure]

/-- Computing with the rule of a series does not begin before the calendar. -/
def Begins (s : Series) : Prop := ∀ r, s.rule = some r → (Pattern.of r s.anchor).checkStart = .ok ()

/-- The raw candidates of a series: without a rule only its anchor, otherwise the candidates of its
periods, as far as the rule's count and end go. -/
structure Offers (s : Series) (c : Instant) : Prop where
  begins : s.Begins
  anchor : s.rule = none → c = s.anchor
  within : ∀ r, s.rule = some r → (Pattern.of r s.anchor).Offers c

theorem offers_of_no_rule : (⟨none, anchor⟩ : Series).Offers c ↔ c = anchor := by
  constructor
  · exact fun hc => hc.anchor rfl
  · exact fun hc => ⟨nofun, fun _ => hc, nofun⟩

theorem offers_of_rule : (⟨some r, anchor⟩ : Series).Offers c ↔
    (Pattern.of r anchor).checkStart = .ok () ∧ (Pattern.of r anchor).Offers c := by
  constructor
  · exact fun hc => ⟨hc.begins r rfl, hc.within r rfl⟩
  · rintro ⟨hstart, hc⟩
    refine ⟨?_, nofun, ?_⟩
    · rintro _ ⟨⟩
      exact hstart
    · rintro _ ⟨⟩
      exact hc

theorem exists_first? {cap : Nat} {start stop : Instant} (hs : s.Begins) :
    ∃ found, s.first? cap start stop = .ok found := by
  obtain ⟨_ | r, anchor⟩ := s
  · exact ⟨_, rfl⟩
  · have hstart := hs r rfl
    refine ⟨_, bind_eq_ok_iff.2 ⟨_, bind_eq_ok_iff.2 ⟨_, hstart, rfl⟩, rfl⟩⟩

/-- The test for a single instant tells the raw candidates. -/
theorem isCandidate_iff_offers : s.isCandidate c = .ok true ↔ s.Offers c := by
  obtain ⟨_ | r, anchor⟩ := s
  · rw [offers_of_no_rule]
    constructor
    · intro h
      obtain ⟨found, hfound, h⟩ := bind_eq_ok_iff.1 h
      obtain ⟨e, he, hhead⟩ := bind_eq_ok_iff.1 hfound
      cases he
      cases hhead
      have hmem := List.mem_of_mem_head? (of_decide_eq_true (Except.ok.inj h))
      exact List.mem_singleton.1 (List.mem_filter.1 hmem).1
    · rintro rfl
      simp [isCandidate, first?, expand, bind, Except.bind, pure, Except.pure]
  · rw [offers_of_rule]
    exact isCandidate_eq_ok_true_iff_offers

theorem isCandidate_of_mem_expand {cap : Nat} {start stop : Instant} {e : Expansion}
    (h : s.expand cap start stop = .ok e) (hc : c ∈ e.candidates) :
    s.isCandidate c = .ok true ∧ start ≤ c ∧ c ≤ stop := by
  obtain ⟨_ | r, anchor⟩ := s
  · cases h
    obtain ⟨hanchor, hinside⟩ := List.mem_filter.1 hc
    obtain ⟨hstart, hstop, -⟩ := of_decide_eq_true hinside
    exact ⟨isCandidate_iff_offers.2 (offers_of_no_rule.2 (List.mem_singleton.1 hanchor)),
      hstart, hstop⟩
  · obtain ⟨⟨⟩, hstart, hexpand⟩ := bind_eq_ok_iff.1 h
    cases hexpand
    obtain ⟨hoffers, hinside⟩ := Pattern.offers_of_mem_expand hc
    exact ⟨isCandidate_iff_offers.2 (offers_of_rule.2 ⟨hstart, hoffers⟩), hinside⟩

private theorem lastBefore?_eq (hdate : (⟨some r, anchor⟩ : Series).isCandidate date = .ok true) :
    (⟨some r, anchor⟩ : Series).lastBefore? date = if date ≤ anchor then .ok none
      else .ok ((Pattern.of r anchor).lastBefore date) := by
  obtain ⟨hstart, hoffers⟩ := isCandidate_eq_ok_true_iff_offers.1 hdate
  rw [lastBefore?_eq_of_searchBound hstart (searchBound_of_le hoffers.ends)]
  split <;> rfl

theorem Offers.encard_before (hdate : (⟨some r, anchor⟩ : Series).Offers date) :
    {c | (⟨some r, anchor⟩ : Series).Offers c ∧ c < date}.encard =
      (Pattern.of r anchor).numberBefore date := by
  obtain ⟨hstart, hoffers⟩ := offers_of_rule.1 hdate
  simp only [offers_of_rule, hstart, true_and]
  exact hoffers.encard_before

theorem Offers.exists_lastBefore? (hdate : (⟨some r, anchor⟩ : Series).Offers date) :
    ∃ last, (⟨some r, anchor⟩ : Series).lastBefore? date = .ok last ∧
      (last = none → ∀ c, (⟨some r, anchor⟩ : Series).Offers c → ¬ c < date) ∧
      ∀ c, last = some c → IsGreatest {c | (⟨some r, anchor⟩ : Series).Offers c ∧ c < date} c := by
  obtain ⟨hstart, hoffers⟩ := offers_of_rule.1 hdate
  obtain ⟨hnone, hsome⟩ := hoffers.isGreatest_lastBefore
  have hrule : ∀ c, (⟨some r, anchor⟩ : Series).Offers c ↔ (Pattern.of r anchor).Offers c :=
    fun c => offers_of_rule.trans (and_iff_right hstart)
  have hlast := lastBefore?_eq (isCandidate_iff_offers.2 hdate)
  simp only [hrule]
  by_cases hfirst : date ≤ anchor
  · refine ⟨none, hlast.trans (if_pos hfirst), ?_, nofun⟩
    intro _ c hc hlt
    obtain ⟨k, hk⟩ := hc.period
    exact absurd (hlt.trans_le hfirst) (not_lt.2 (Pattern.mem_candidates.1 hk).2.2)
  · exact ⟨_, hlast.trans (if_neg hfirst), hnone, hsome⟩

theorem lt_of_lastBefore? {last : Instant}
    (hdate : (⟨some r, anchor⟩ : Series).isCandidate date = .ok true)
    (hlast : (⟨some r, anchor⟩ : Series).lastBefore? date = .ok (some last)) : last < date := by
  obtain ⟨found, hfound, -, hgreatest⟩ := (isCandidate_iff_offers.1 hdate).exists_lastBefore?
  rw [hlast] at hfound
  exact (hgreatest last (Except.ok.inj hfound).symm).1.2

theorem lastBefore?_ne_none (hdate : (⟨some r, anchor⟩ : Series).isCandidate date = .ok true)
    (hc : (⟨some r, anchor⟩ : Series).isCandidate c = .ok true) (hlt : c < date) :
    (⟨some r, anchor⟩ : Series).lastBefore? date ≠ .ok none := by
  obtain ⟨found, hfound, hempty, -⟩ := (isCandidate_iff_offers.1 hdate).exists_lastBefore?
  intro hnone
  rw [hnone] at hfound
  exact hempty (Except.ok.inj hfound).symm c (isCandidate_iff_offers.1 hc) hlt

end Series

end Recurrence
