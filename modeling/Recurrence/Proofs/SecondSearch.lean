import Recurrence.Proofs.CalendarEnds
import Recurrence.Proofs.SegmentResolution

set_option autoImplicit false
set_option relaxedAutoImplicit false

/-!
The search for the candidate in a second, for all instants but those of the calendar's last second.
Outside leap seconds it finds exactly the candidate that stands under the second, if there is one,
so that an exception reaches the same candidate by this search and by being looked up. The search of
a leap second ends before it begins and finds nothing.
-/

namespace Recurrence

open Calendar

namespace Series

variable {s : Series} {b c t start stop : Instant} {cap : Nat}

theorem Offers.yields (hc : s.Offers c) : s.Yields c := by
  obtain ⟨_ | r, anchor⟩ := s
  · exact hc.anchor rfl
  · exact Pattern.inSeries_of_offers (hc.begins r rfl) (hc.within r rfl)

private theorem first?_eq_ok_some_iff (hcap : 1 ≤ cap)
    (honly : ∀ b c, s.Offers b ∧ start ≤ b ∧ b ≤ stop → s.Offers c ∧ start ≤ c ∧ c ≤ stop → b = c) :
    s.first? cap start stop = .ok (some c) ↔ s.Offers c ∧ start ≤ c ∧ c ≤ stop := by
  have hsound : ∀ b, s.first? cap start stop = .ok (some b) →
      s.Offers b ∧ start ≤ b ∧ b ≤ stop := by
    intro b hb
    obtain ⟨e, he, hhead⟩ := bind_eq_ok_iff.1 hb
    obtain ⟨hcandidate, hinside⟩ :=
      isCandidate_of_mem_expand he (List.mem_of_mem_head? (Except.ok.inj hhead))
    exact ⟨isCandidate_iff_offers.1 hcandidate, hinside⟩
  refine ⟨hsound c, fun hc => ?_⟩
  obtain ⟨b, hb⟩ : ∃ b, s.first? cap start stop = .ok (some b) := by
    obtain ⟨_ | r, anchor⟩ := s
    · have hanchor : c = anchor := offers_of_no_rule.1 hc.1
      refine ⟨anchor, ?_⟩
      subst hanchor
      simp [first?, expand, hc.2.1, hc.2.2, show 0 < min cap 1 by omega, bind, Except.bind, pure,
        Except.pure]
    · obtain ⟨hstart, hoffers⟩ := offers_of_rule.1 hc.1
      obtain ⟨b, hb⟩ := Pattern.exists_head?_expand hoffers hc.2.1 hc.2.2
        (show 1 ≤ min cap 1 by omega)
      exact ⟨b, bind_eq_ok_iff.2 ⟨_, bind_eq_ok_iff.2 ⟨_, hstart, rfl⟩, congrArg Except.ok hb⟩⟩
  rw [hb, honly b c (hsound b hb) hc]

/-- For every instant but those of the calendar's last second, and whatever the rule and the cap,
the search of its second finds a candidate exactly if that is a raw candidate in the second and the
second is no leap second. There is at most one in a second, leap second or not. The candidate to
which an exception is found by looking it up is the one that the search of the exception's second
finds. -/
theorem candidateInSecond?_exact (s : Series) (cap : Nat) (t : Instant) (hcap : 1 ≤ cap)
    (hfirst : firstDay ≤ t.day) (hlast : t < Instant.last.truncate) :
    (∀ c, s.candidateInSecond? cap t = .ok (some c) ↔
      t.time.isLeap = false ∧ s.Offers c ∧ c.truncate = t.truncate) ∧
    (∀ b c, s.Offers b → s.Offers c → b.truncate = c.truncate → b = c) ∧
    (s.Begins → ∃ found, s.candidateInSecond? cap t = .ok found) ∧
    ∀ (table : ExceptionTable) (e : Exception), table.Keyed → e ∈ table.values → e.date = t →
      t.time.isLeap = false → ∀ c, s.Offers c →
        (table.exceptionTo? c = some e ↔ s.candidateInSecond? cap e.date = .ok (some c)) := by
  obtain ⟨next, stop, hnext, hstop, -, hspan⟩ := Instant.second_span_of_lt hfirst hlast
  have hsearch : s.candidateInSecond? cap t = s.first? cap t.truncate stop := by
    change (t.truncate.add (.ofSeconds 1) >>= fun next => next.add (.neg .nanosecond) >>=
      s.first? cap t.truncate) = _
    rw [hnext]
    change (next.add (.neg .nanosecond) >>= s.first? cap t.truncate) = _
    rw [hstop]
    rfl
  have hunique : ∀ b c, s.Offers b → s.Offers c → b.truncate = c.truncate → b = c :=
    fun b c hb hc => hb.yields.eq_of_truncate_eq hc.yields
  have hfound : ∀ c, s.candidateInSecond? cap t = .ok (some c) ↔
      t.time.isLeap = false ∧ s.Offers c ∧ c.truncate = t.truncate := by
    intro c
    rw [hsearch, first?_eq_ok_some_iff hcap, hspan, and_left_comm]
    rintro b c ⟨hb, hbin⟩ ⟨hc, hcin⟩
    exact hunique b c hb hc (((hspan b).1 hbin).2.trans ((hspan c).1 hcin).2.symm)
  refine ⟨hfound, hunique, fun hs => hsearch ▸ exists_first? hs, ?_⟩
  rintro table e hkeyed he rfl hleap c hc
  rw [hfound, hkeyed.exceptionTo?_eq_some_iff he]
  exact ⟨fun hsecond => ⟨hleap, hc, hsecond⟩, fun h => h.2.2⟩

def justAfterNine (year : Int) (month dayOfMonth : Nat) : Instant :=
  ⟨day year month dayOfMonth, (TimeOfDay.ofClock? 9 0 0 250000000).getD .midnight⟩

/-- An exception of the second of nine o'clock reaches the third of three days, which comes a
quarter of a second later, both ways. -/
theorem third_day_in_second :
    let s : Series := ⟨some { frequency := .daily, count := some ⟨3, by decide, by decide⟩ },
      justAfterNine 2024 1 1⟩
    let e : Exception := ⟨⟨"daily"⟩, .nine 2024 1 3, .cancelled⟩
    1 ≤ 1 ∧ firstDay ≤ (Instant.nine 2024 1 3).day ∧ Instant.nine 2024 1 3 < Instant.last.truncate ∧
      s.candidateInSecond? 1 (.nine 2024 1 3) = .ok (some (justAfterNine 2024 1 3)) ∧
      s.Offers (justAfterNine 2024 1 3) ∧
      (ExceptionTable.ofList [e]).exceptionTo? (justAfterNine 2024 1 3) = some e := by
  intro s e
  have hfirst : firstDay ≤ (Instant.nine 2024 1 3).day := by decide
  have hlast : Instant.nine 2024 1 3 < Instant.last.truncate := by decide
  obtain ⟨hfound, -, -, hboth⟩ :=
    candidateInSecond?_exact s 1 (.nine 2024 1 3) le_rfl hfirst hlast
  have hsearch : s.candidateInSecond? 1 (.nine 2024 1 3) =
      .ok (some (justAfterNine 2024 1 3)) := by decide +kernel
  have hoffers := ((hfound _).1 hsearch).2.1
  have hkeyed : (ExceptionTable.ofList [e]).Keyed := ExceptionTable.keyed_empty.record e
  exact ⟨le_rfl, hfirst, hlast, hsearch, hoffers,
    (hboth _ e hkeyed List.mem_cons_self rfl (by decide) _ hoffers).2 hsearch⟩

def leapSecond (year : Int) (month dayOfMonth : Nat) : Instant :=
  ⟨day year month dayOfMonth, (TimeOfDay.ofClock? 23 59 59 1000000000).getD .midnight⟩

/-- A rule that is set going in a leap second recurs in the leap second of the next day, but the
search of that second does not find it. -/
theorem leap_second_not_found :
    let s : Series := ⟨some { frequency := .daily }, leapSecond 2016 12 31⟩
    s.Offers (leapSecond 2017 1 1) ∧
      s.candidateInSecond? 1000 (leapSecond 2017 1 1) = .ok none ∧
      ¬ ∀ (s : Series) (cap : Nat) (t : Instant), 1 ≤ cap → firstDay ≤ t.day →
        t < Instant.last.truncate → ∀ c, s.candidateInSecond? cap t = .ok (some c) ↔
          s.Offers c ∧ c.truncate = t.truncate := by
  intro s
  have hoffers : s.Offers (leapSecond 2017 1 1) :=
    isCandidate_iff_offers.1 (by decide +kernel)
  have hnone : s.candidateInSecond? 1000 (leapSecond 2017 1 1) = .ok none := by decide +kernel
  refine ⟨hoffers, hnone, fun hall => ?_⟩
  have hfound := (hall s 1000 (leapSecond 2017 1 1) (by decide) (by decide) (by decide) _).2
    ⟨hoffers, rfl⟩
  rw [hnone] at hfound
  cases hfound

end Series

end Recurrence
