import Recurrence.Proofs.RuleTexts
import Recurrence.Proofs.SegmentResolution
import Recurrence.Proofs.SplitRules

set_option autoImplicit false
set_option relaxedAutoImplicit false

/-!
The rule before a split, written as text and read back. It ends with the last instant that it keeps,
and text has no place for a fraction of a second: set going at a whole second the rule has the same
series as before, and set going within a second it loses that last instant.
-/

namespace Recurrence

namespace Instant

variable {b c t : Instant}

theorem PlainYear.inner (ht : t.PlainYear) : t.Inner := by
  have hfirst : Calendar.firstYear < 0 := by decide
  have hlast : 9999 < Calendar.lastYear := by decide
  exact ⟨hfirst.trans_le ht.from_zero, ht.to_last.trans_lt hlast⟩

theorem PlainYear.of_between {a : Instant} (ha : a.PlainYear) (hb : b.PlainYear) (hac : a ≤ c)
    (hcb : c ≤ b) : c.PlainYear where
  from_zero := ha.from_zero.trans (Calendar.yearOf_mono (day_le_of_le hac))
  to_last := (Calendar.yearOf_mono (day_le_of_le hcb)).trans hb.to_last

def pastNine (year : Int) (month dayOfMonth : Nat) : Instant :=
  ⟨Calendar.day year month dayOfMonth, ⟨32400, 500000000, by decide, by decide, by decide⟩⟩

private theorem truncate_eq_self_iff : t.truncate = t ↔ t.time.nano % 1000000000 = 0 := by
  have hnano := t.time.nano_lt
  rw [eq_iff]
  unfold position truncate TimeOfDay.truncate TimeOfDay.position
  split
  · simp only
    omega
  · simp only
    omega

private theorem le_truncate_iff (hnano : c.time.nano = b.time.nano) :
    c ≤ b.truncate ↔ c ≤ b ∧ (b.truncate = b ∨ c ≠ b) := by
  by_cases hwhole : b.truncate = b
  · rw [hwhole]
    simp
  · constructor
    · intro hc
      refine ⟨hc.trans b.truncate_le, Or.inr ?_⟩
      intro heq
      exact hwhole (le_antisymm b.truncate_le (heq ▸ hc))
    · rintro ⟨hc, hother⟩
      have hlt : c < b := lt_of_le_of_ne hc (hother.resolve_left hwhole)
      have hbound := b.time.nano_lt
      have hearlier : c.day * 86400 + c.time.second < b.day * 86400 + b.time.second := by
        rw [lt_iff] at hlt
        unfold position TimeOfDay.position at hlt
        omega
      clear hc hother hlt
      rw [le_iff]
      unfold position truncate TimeOfDay.truncate TimeOfDay.position
      split
      · simp only
        omega
      · simp only
        omega

end Instant

namespace Rule

variable {r : Rule} {anchor date c : Instant}

private theorem exists_last_of_splitAt {rules : SplitRules} {truncated : Rule}
    (hanchor : anchor.Inner) (hdate : date.Inner) (hok : r.splitAt anchor date = .ok rules)
    (htruncated : rules.truncated = some truncated) :
    ∃ last, truncated = r.endingAt last ∧ last < date ∧ truncated.InSeries anchor last := by
  obtain ⟨hcandidate, found, hfound, hcut⟩ := splitAt_eq_ok hok
  have hseries : r.InSeries anchor date :=
    (Series.isCandidate_eq_ok_true_iff (s := ⟨some r, anchor⟩) hanchor hdate).1 hcandidate
  obtain ⟨last, hlast, -, hsome⟩ := Series.lastBefore?_of_inSeries hanchor hdate hseries
  rw [hfound, Except.ok.injEq] at hlast
  rw [hcut, hlast] at htruncated
  obtain ⟨l, rfl, rfl⟩ := Option.map_eq_some_iff.1 htruncated
  obtain ⟨hl, hlt, hmax⟩ := hsome l rfl
  exact ⟨l, rfl, hlt, (inSeries_endingAt_iff hseries hlt hmax).2
    ⟨hseries.of_recurs_le hl (le_of_lt hlt), hlt⟩⟩

/-- A rule that ends at an instant of its series loses that instant, and no other, if its end is
moved back within the second. -/
private theorem inSeries_endingAt_truncate_iff {last : Instant}
    (hlast : (r.endingAt last).InSeries anchor last) :
    (r.endingAt last.truncate).InSeries anchor c ↔
      (r.endingAt last).InSeries anchor c ∧ (last.truncate = last ∨ c ≠ last) := by
  have hends : ∀ {stop}, (r.endingAt stop).InSeries anchor c → c ≤ stop := fun h => h.ends _ rfl
  have hmove : ∀ {stop other}, (r.endingAt stop).InSeries anchor c → c ≤ other →
      (r.endingAt other).InSeries anchor c := by
    intro stop other hc hle
    refine ⟨hc.recurs.with_bounds r.count (some other), ?_, ?_⟩
    · rintro _ ⟨⟩
      exact hle
    · intro n hn
      refine lt_of_le_of_lt (Set.encard_le_encard fun b hb => ?_) (hc.count n hn)
      exact ⟨hb.1.with_bounds r.count (some stop), hb.2⟩
  have hnano : ∀ {stop}, (r.endingAt stop).InSeries anchor c → c.time.nano = last.time.nano :=
    fun hc => hc.recurs.time.nano.trans hlast.recurs.time.nano.symm
  constructor
  · intro hc
    obtain ⟨hle, hother⟩ := (Instant.le_truncate_iff (hnano hc)).1 (hends hc)
    exact ⟨hmove hc hle, hother⟩
  · rintro ⟨hc, hother⟩
    exact hmove hc ((Instant.le_truncate_iff (hnano hc)).2 ⟨hends hc, hother⟩)

/-- The text of the rule before a split is read as that rule with its end cut to the second, and the
series is the same for an anchor at a whole second and lacks its last instant for any other. -/
theorem text_of_split {rules : SplitRules} {truncated : Rule} (hanchor : anchor.PlainYear)
    (hdate : date.PlainYear) (hok : r.splitAt anchor date = .ok rules)
    (htruncated : rules.truncated = some truncated) :
    ∃ last, truncated.ends = some last ∧ truncated.InSeries anchor last ∧
      ofText truncated.text = .ok truncated.wholeEnd ∧
      (anchor.truncate = anchor → truncated.wholeEnd = truncated) ∧
      ∀ c, truncated.wholeEnd.InSeries anchor c ↔
        truncated.InSeries anchor c ∧ (anchor.truncate = anchor ∨ c ≠ last) := by
  obtain ⟨last, rfl, hlt, hlast⟩ :=
    exists_last_of_splitAt hanchor.inner hdate.inner hok htruncated
  have hyear : last.PlainYear := hanchor.of_between hdate hlast.recurs.from_anchor (le_of_lt hlt)
  have hwhole : last.truncate = last ↔ anchor.truncate = anchor := by
    rw [Instant.truncate_eq_self_iff, Instant.truncate_eq_self_iff, hlast.recurs.time.nano]
  refine ⟨last, rfl, hlast, ofText_text_eq_wholeEnd ?_, ?_, fun c => ?_⟩
  · rintro _ ⟨⟩
    exact hyear
  · intro hsecond
    change r.endingAt last.truncate = r.endingAt last
    rw [hwhole.2 hsecond]
  · rw [← hwhole]
    exact inSeries_endingAt_truncate_iff hlast

/-- Every day from nine o'clock on 1 January 2026, split on the third day. -/
theorem text_of_split_third :
    (Instant.nine 2026 1 1).PlainYear ∧ (Instant.nine 2026 1 3).PlainYear ∧
      ∃ (r : Rule) (rules : SplitRules) (truncated : Rule), r.frequency = .daily ∧
        r.splitAt (Instant.nine 2026 1 1) (Instant.nine 2026 1 3) = .ok rules ∧
        rules.truncated = some truncated ∧ truncated.ends = some (Instant.nine 2026 1 2) ∧
        ofText truncated.text = .ok truncated.wholeEnd ∧ truncated.wholeEnd = truncated := by
  have hanchor : (Instant.nine 2026 1 1).PlainYear := ⟨by decide, by decide⟩
  have hdate : (Instant.nine 2026 1 3).PlainYear := ⟨by decide, by decide⟩
  have hrun : Rule.splitAt { frequency := .daily } (Instant.nine 2026 1 1) (Instant.nine 2026 1 3) =
      .ok
        { truncated := some { frequency := .daily, ends := some (Instant.nine 2026 1 2) }
          continuation := some { frequency := .daily } } := by rfl
  obtain ⟨last, -, -, hread, hsame, -⟩ := text_of_split hanchor hdate hrun rfl
  exact ⟨hanchor, hdate, _, _, _, rfl, hrun, rfl, rfl, hread, hsame (by decide)⟩

/-- Every day from half a second past nine o'clock on, split on the third day: the second day, which
the rule keeps, is lost with the text of the rule. -/
theorem text_of_split_within_second :
    (Instant.pastNine 2026 1 1).PlainYear ∧ (Instant.pastNine 2026 1 3).PlainYear ∧
      ∃ (r : Rule) (rules : SplitRules) (truncated parsed : Rule), r.ends = none ∧
        r.splitAt (Instant.pastNine 2026 1 1) (Instant.pastNine 2026 1 3) = .ok rules ∧
        rules.truncated = some truncated ∧ ofText truncated.text = .ok parsed ∧
        truncated.InSeries (Instant.pastNine 2026 1 1) (Instant.pastNine 2026 1 2) ∧
        ¬ parsed.InSeries (Instant.pastNine 2026 1 1) (Instant.pastNine 2026 1 2) := by
  have hanchor : (Instant.pastNine 2026 1 1).PlainYear := ⟨by decide, by decide⟩
  have hdate : (Instant.pastNine 2026 1 3).PlainYear := ⟨by decide, by decide⟩
  have hkept : (Instant.pastNine 2026 1 2).PlainYear := ⟨by decide, by decide⟩
  have hrun : Rule.splitAt { frequency := .daily } (Instant.pastNine 2026 1 1)
      (Instant.pastNine 2026 1 3) = .ok
        { truncated := some { frequency := .daily, ends := some (Instant.pastNine 2026 1 2) }
          continuation := some { frequency := .daily } } := by rfl
  obtain ⟨last, hends, -, hlast⟩ := exists_last_of_splitAt hanchor.inner hdate.inner hrun rfl
  obtain rfl : Instant.pastNine 2026 1 2 = last := Option.some.inj (congrArg Rule.ends hends)
  refine ⟨hanchor, hdate, _, _, _, _, rfl, hrun, rfl, ofText_text_eq_wholeEnd ?_, hlast, ?_⟩
  · rintro _ ⟨⟩
    exact hkept
  · intro hseries
    exact absurd (hseries.ends _ rfl) (by decide)

end Rule

end Recurrence
