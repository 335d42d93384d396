import Recurrence.Proofs.Predecessors

set_option autoImplicit false
set_option relaxedAutoImplicit false

/-!
Arithmetic on instants. Outside leap seconds they are ordered like the nanoseconds that count them;
a step of a nanosecond leads to the instant before or after, but for a leap second in between. The
sums that a query forms stay within the calendar if its instants keep away from the ends, or if its
spans lie in the years 1 to 9999.
-/

namespace Recurrence

open Calendar

namespace Instant

variable {a b c t : Instant}

/-- The nanoseconds from the beginning of 1970 to an instant, leap seconds not counted. -/
def nanoseconds (t : Instant) : Int := nanosecondsTo t.day t.time.second t.time.nano

/-- An instant of the years 1 to 9999 outside leap seconds. -/
structure Ordinary (t : Instant) : Prop where
  from_first : 1 ≤ yearOf t.day
  to_last : yearOf t.day ≤ 9999
  not_leap : t.time.isLeap = false

instance (t : Instant) : Decidable t.Ordinary :=
  decidable_of_iff (1 ≤ yearOf t.day ∧ yearOf t.day ≤ 9999 ∧ t.time.isLeap = false)
    ⟨fun ht => ⟨ht.1, ht.2.1, ht.2.2⟩, fun ht => ⟨ht.from_first, ht.to_last, ht.not_leap⟩⟩

theorem isLeap_eq_false_iff : t.time.isLeap = false ↔ t.time.nano < 1000000000 := by
  unfold TimeOfDay.isLeap
  rw [decide_eq_false_iff_not, Nat.not_le]

private theorem le_iff_nanoseconds_le (ha : a.time.isLeap = false) (hb : b.time.isLeap = false) :
    a ≤ b ↔ a.nanoseconds ≤ b.nanoseconds := by
  rw [isLeap_eq_false_iff] at ha hb
  have hsecond := a.time.second_lt
  have hother := b.time.second_lt
  rw [le_iff]
  unfold position TimeOfDay.position nanoseconds nanosecondsTo
  omega

private theorem lt_iff_nanoseconds_lt (ha : a.time.isLeap = false) (hb : b.time.isLeap = false) :
    a < b ↔ a.nanoseconds < b.nanoseconds := by
  rw [← not_le, le_iff_nanoseconds_le hb ha, Int.not_le]

private theorem nanoseconds_ofNanoseconds (n : Int) : (ofNanoseconds n).nanoseconds = n := by
  unfold ofNanoseconds nanoseconds nanosecondsTo
  simp only
  omega

private theorem isLeap_ofNanoseconds (n : Int) : (ofNanoseconds n).time.isLeap = false := by
  rw [isLeap_eq_false_iff]
  unfold ofNanoseconds
  simp only
  omega

private theorem shifted_eq (ht : t.time.isLeap = false) (d : Duration) :
    t.shifted d = ofNanoseconds (t.nanoseconds + d.nanoseconds) := by
  rw [isLeap_eq_false_iff] at ht
  unfold shifted
  simp only
  rw [dif_neg (by omega), if_pos ht]
  unfold nanoseconds nanosecondsTo
  congr 1
  omega

theorem eq_shifted_of_add_eq_ok {d : Duration} (h : t.add d = .ok b) : b = t.shifted d := by
  simp only [add] at h
  split at h
  · exact (Except.ok.inj h).symm
  · cases h

private theorem nanoseconds_shifted_bounds (t : Instant) (d : Duration) :
    t.nanoseconds + d.nanoseconds - 1000000000 ≤ (t.shifted d).nanoseconds ∧
      (t.shifted d).nanoseconds ≤ t.nanoseconds + d.nanoseconds := by
  have hnano := t.time.nano_lt
  unfold shifted
  simp only
  split
  · simp only [nanoseconds, nanosecondsTo]
    omega
  · split
    · rw [nanoseconds_ofNanoseconds]
      simp only [nanoseconds, nanosecondsTo]
      omega
    · split
      · rw [nanoseconds_ofNanoseconds]
        simp only [nanoseconds, nanosecondsTo]
        omega
      · rw [nanoseconds_ofNanoseconds]
        simp only [nanoseconds, nanosecondsTo]
        omega

theorem add_eq_shifted {d : Duration}
    (hlow : -1000000000000000000000 ≤ t.nanoseconds + d.nanoseconds)
    (hhigh : t.nanoseconds + d.nanoseconds ≤ 1000000000000000000000) :
    t.add d = .ok (t.shifted d) := by
  have hbounds := nanoseconds_shifted_bounds t d
  have hsecond := (t.shifted d).time.second_lt
  have hnano := (t.shifted d).time.nano_lt
  have hdays : -11574076 ≤ (t.shifted d).day ∧ (t.shifted d).day ≤ 11574076 := by
    unfold nanoseconds nanosecondsTo at hbounds hlow hhigh
    omega
  have hfirst : firstDay ≤ -11574076 := by decide
  have hlast : 11574076 ≤ lastDay := by decide
  simp only [add]
  rw [if_pos (by omega)]

private theorem since_nanoseconds_bounds (a b : Instant) :
    a.nanoseconds - b.nanoseconds - 1000000000 ≤ (a.since b).nanoseconds ∧
      (a.since b).nanoseconds ≤ a.nanoseconds - b.nanoseconds + 1000000000 := by
  simp only [since, nanoseconds, nanosecondsTo]
  split
  · omega
  · split <;> omega

@[simp] theorem day_truncate (t : Instant) : t.truncate.day = t.day := rfl

@[simp] theorem second_truncate (t : Instant) : t.truncate.time.second = t.time.second := by
  unfold truncate TimeOfDay.truncate
  split <;> rfl

theorem nano_truncate (t : Instant) :
    t.truncate.time.nano = if t.time.isLeap then 1000000000 else 0 := by
  unfold truncate TimeOfDay.truncate TimeOfDay.isLeap
  split <;> simp_all

private theorem isLeap_truncate (ht : t.time.isLeap = false) : t.truncate.time.isLeap = false := by
  rw [isLeap_eq_false_iff] at ht ⊢
  unfold truncate TimeOfDay.truncate
  rw [dif_neg (by omega)]
  exact Nat.zero_lt_succ _

private theorem nanoseconds_truncate (ht : t.time.isLeap = false) :
    t.truncate.nanoseconds = nanosecondsTo t.day t.time.second 0 := by
  rw [isLeap_eq_false_iff] at ht
  unfold truncate TimeOfDay.truncate
  rw [dif_neg (by omega)]
  rfl

/-- Two instants lie in one second; a leap second is a second of its own. -/
def SameSecond (a b : Instant) : Prop :=
  a.day = b.day ∧ a.time.second = b.time.second ∧
    (1000000000 ≤ a.time.nano ↔ 1000000000 ≤ b.time.nano)

theorem truncate_eq_truncate_iff : a.truncate = b.truncate ↔ a.SameSecond b := by
  unfold SameSecond truncate TimeOfDay.truncate
  by_cases ha : 1000000000 ≤ a.time.nano <;> by_cases hb : 1000000000 ≤ b.time.nano <;>
    simp [ha, hb]

private theorem truncate_eq_iff (hc : c.time.isLeap = false) (ht : t.time.isLeap = false) :
    c.truncate = t.truncate ↔ t.truncate.nanoseconds ≤ c.nanoseconds ∧
      c.nanoseconds ≤ t.truncate.nanoseconds + 999999999 := by
  rw [nanoseconds_truncate ht]
  rw [isLeap_eq_false_iff] at hc ht
  have hsecond := c.time.second_lt
  have hother := t.time.second_lt
  rw [truncate_eq_truncate_iff]
  unfold SameSecond nanoseconds nanosecondsTo
  omega

def FourDigit (t : Instant) : Prop := 1 ≤ yearOf t.day ∧ yearOf t.day ≤ 9999

instance (t : Instant) : Decidable t.FourDigit := inferInstanceAs (Decidable (_ ∧ _))

namespace FourDigit

theorem inner (ht : t.FourDigit) : t.Inner := by
  have hfirst : firstYear < 1 := by decide
  have hlast : 9999 < lastYear := by decide
  exact ⟨hfirst.trans_le ht.1, ht.2.trans_lt hlast⟩

theorem of_between (ha : a.FourDigit) (hb : b.FourDigit) (hac : a ≤ c) (hcb : c ≤ b) :
    c.FourDigit :=
  ⟨ha.1.trans (yearOf_mono (day_le_of_le hac)), (yearOf_mono (day_le_of_le hcb)).trans hb.2⟩

private theorem nanoseconds_bounds (ht : t.FourDigit) :
    -63000000000000000000 ≤ t.nanoseconds ∧ t.nanoseconds ≤ 254000000000000000000 := by
  have hlow := yearStart_le_day_iff.2 ht.1
  have hhigh := lt_yearStart_iff.2 (show yearOf t.day < 10000 from Int.lt_add_one_of_le ht.2)
  have hfirst : yearStart 1 = -719162 := by decide
  have hlast : yearStart 10000 = 2932897 := by decide
  have hsecond := t.time.second_lt
  have hnano := t.time.nano_lt
  unfold nanoseconds nanosecondsTo
  omega

theorem add_since (hc : c.FourDigit) (ha : a.FourDigit) (hb : b.FourDigit) :
    c.add (a.since b) = .ok (c.shifted (a.since b)) := by
  have hcbounds := hc.nanoseconds_bounds
  have habounds := ha.nanoseconds_bounds
  have hbbounds := hb.nanoseconds_bounds
  have hspan := since_nanoseconds_bounds a b
  exact add_eq_shifted (by omega) (by omega)

end FourDigit

theorem Ordinary.fourDigit (ht : t.Ordinary) : t.FourDigit := ⟨ht.from_first, ht.to_last⟩

theorem Ordinary.inner (ht : t.Ordinary) : t.Inner := ht.fourDigit.inner

private theorem position_shifted_of_leap (hleap : t.time.isLeap = true) :
    (t.shifted (.neg .nanosecond)).position = t.position - 1 ∧
      (t.shifted (.neg .nanosecond)).day = t.day := by
  have hnano : 1000000000 ≤ t.time.nano := of_decide_eq_true hleap
  have hlt := t.time.nano_lt
  have hone : (Duration.neg .nanosecond).nanoseconds = -1 := rfl
  unfold shifted
  simp only [hone]
  rw [dif_pos (by omega)]
  refine ⟨?_, rfl⟩
  simp only [position, TimeOfDay.position]
  omega

private theorem shifted_neg_nanosecond_of_not_leap (hleap : t.time.isLeap = false) :
    t.shifted (.neg .nanosecond) = ofNanoseconds (t.nanoseconds - 1) := by
  rw [shifted_eq hleap]
  rfl

theorem lt_of_add_neg_nanosecond (h : t.add (.neg .nanosecond) = .ok b) : b < t := by
  obtain rfl := eq_shifted_of_add_eq_ok h
  cases hleap : t.time.isLeap with
  | false =>
    rw [shifted_neg_nanosecond_of_not_leap hleap,
      lt_iff_nanoseconds_lt (isLeap_ofNanoseconds _) hleap, nanoseconds_ofNanoseconds]
    omega
  | true =>
    rw [lt_iff, (position_shifted_of_leap hleap).1]
    omega

theorem shifted_truncate_second (t : Instant) :
    t.truncate.shifted (.ofSeconds 1) =
      ofNanoseconds (nanosecondsTo t.day t.time.second 1000000000) := by
  have hlong : (Duration.ofSeconds 1).nanoseconds = 1000000000 := by decide
  cases hleap : t.time.isLeap with
  | false =>
    rw [shifted_eq (isLeap_truncate hleap), nanoseconds_truncate hleap, hlong]
    unfold nanosecondsTo
    congr 1
    omega
  | true =>
    have hnano := nano_truncate t
    rw [if_pos hleap] at hnano
    unfold shifted
    simp only [hnano, hlong, day_truncate, second_truncate]
    rw [dif_neg (by omega), if_neg (by omega), if_pos (by omega)]
    congr 1

theorem shifted_back_from_second (day second : Int) :
    (ofNanoseconds (nanosecondsTo day second 1000000000)).shifted (.neg .nanosecond) =
      ofNanoseconds (nanosecondsTo day second 999999999) := by
  have hone : (Duration.neg .nanosecond).nanoseconds = -1 := rfl
  rw [shifted_eq (isLeap_ofNanoseconds _), nanoseconds_ofNanoseconds, hone]
  unfold nanosecondsTo
  congr 1
  omega

theorem day_of_second_span {next last : Instant}
    (hnext : t.truncate.add (.ofSeconds 1) = .ok next)
    (hlast : next.add (.neg .nanosecond) = .ok last) : last.day = t.day := by
  have hsecond := t.time.second_lt
  obtain rfl := eq_shifted_of_add_eq_ok hnext
  obtain rfl := eq_shifted_of_add_eq_ok hlast
  rw [shifted_truncate_second, shifted_back_from_second]
  simp only [ofNanoseconds, nanosecondsTo]
  omega

private theorem isLeap_of_truncate_eq (hc : c.time.isLeap = false) (heq : c.truncate = t.truncate) :
    t.time.isLeap = false := by
  have hnano := nano_truncate c
  rw [heq, nano_truncate t, hc] at hnano
  simpa using hnano

/-- Between the beginning of a second and its last nanosecond lies nothing but that second. Behind
the beginning of a leap second nothing lies before its second's last nanosecond. -/
theorem truncate_eq_of_between (hlow : t.truncate ≤ c)
    (hhigh : c ≤ ofNanoseconds (nanosecondsTo t.day t.time.second 999999999)) :
    c.truncate = t.truncate := by
  have hsecond := t.time.second_lt
  have hother := c.time.second_lt
  have hnano := c.time.nano_lt
  rw [le_iff] at hlow hhigh
  unfold position TimeOfDay.position at hlow hhigh
  unfold ofNanoseconds nanosecondsTo at hhigh
  rw [day_truncate, second_truncate, nano_truncate] at hlow
  simp only at hhigh
  cases hleap : t.time.isLeap with
  | false =>
    rw [hleap, if_neg Bool.false_ne_true] at hlow
    have hc : c.time.isLeap = false := isLeap_eq_false_iff.2 (by omega)
    refine (truncate_eq_iff hc hleap).2 ?_
    rw [nanoseconds_truncate hleap]
    unfold nanoseconds nanosecondsTo
    omega
  | true =>
    rw [hleap, if_pos rfl] at hlow
    omega

/-- The search for a candidate in a second covers exactly that second, and is empty for a leap
second. It stays within the calendar unless the second is the calendar's last one. -/
theorem second_span_of_lt (hfirst : firstDay ≤ t.day) (hlast : t < last.truncate) :
    ∃ next stop, t.truncate.add (.ofSeconds 1) = .ok next ∧
      next.add (.neg .nanosecond) = .ok stop ∧ stop.day = t.day ∧
      ∀ c : Instant, t.truncate ≤ c ∧ c ≤ stop ↔ t.time.isLeap = false ∧ c.truncate = t.truncate := by
  have hsecond := t.time.second_lt
  have hroom : t.day < lastDay ∨ (t.day = lastDay ∧ t.time.second < 86399) := by
    rcases hlast with hday | ⟨hday, hsecond | ⟨-, hnano⟩⟩
    · exact Or.inl hday
    · exact Or.inr ⟨hday, hsecond⟩
    · exact absurd hnano (Nat.not_lt_zero _)
  have hday : (ofNanoseconds (nanosecondsTo t.day t.time.second 999999999)).day = t.day := by
    unfold ofNanoseconds nanosecondsTo
    simp only
    omega
  have hnextDay : t.day ≤ (ofNanoseconds (nanosecondsTo t.day t.time.second 1000000000)).day ∧
      (ofNanoseconds (nanosecondsTo t.day t.time.second 1000000000)).day ≤ lastDay := by
    unfold ofNanoseconds nanosecondsTo
    simp only
    omega
  refine ⟨ofNanoseconds (nanosecondsTo t.day t.time.second 1000000000),
    ofNanoseconds (nanosecondsTo t.day t.time.second 999999999), ?_, ?_, hday, fun c => ?_⟩
  · simp only [add, shifted_truncate_second]
    rw [if_pos (by omega)]
  · simp only [add, shifted_back_from_second]
    rw [if_pos (by omega)]
  · constructor
    · rintro ⟨hlow, hhigh⟩
      refine ⟨?_, truncate_eq_of_between hlow hhigh⟩
      have hback := le_trans hlow hhigh
      rw [le_iff] at hback
      unfold position TimeOfDay.position at hback
      rw [day_truncate, second_truncate, nano_truncate, hday] at hback
      by_contra hleap
      rw [if_pos (by simpa using hleap)] at hback
      unfold ofNanoseconds nanosecondsTo at hback
      simp only at hback
      omega
    · rintro ⟨hleap, heq⟩
      have hc := isLeap_of_truncate_eq hleap heq.symm
      obtain ⟨hlow, hhigh⟩ := (truncate_eq_iff hc hleap).1 heq
      rw [le_iff_nanoseconds_le (isLeap_truncate hleap) hc,
        le_iff_nanoseconds_le hc (isLeap_ofNanoseconds _), nanoseconds_ofNanoseconds]
      rw [nanoseconds_truncate hleap] at hlow hhigh ⊢
      unfold nanosecondsTo at *
      omega

namespace Inner

theorem add_neg_nanosecond (ht : t.Inner) :
    ∃ u, t.add (.neg .nanosecond) = .ok u ∧
      ∀ c : Instant, c.time.isLeap = false ∨ t.time.isLeap = true → (c ≤ u ↔ c < t) := by
  have hfirst := ht.firstDay_add_le
  have hlast := ht.day_add_lt
  refine ⟨t.shifted (.neg .nanosecond), ?_, fun c hc => ?_⟩
  · have hday : t.day - 1 ≤ (t.shifted (.neg .nanosecond)).day ∧
        (t.shifted (.neg .nanosecond)).day ≤ t.day := by
      cases hleap : t.time.isLeap with
      | false =>
        have hnano := isLeap_eq_false_iff.1 hleap
        have hsecond := t.time.second_lt
        rw [shifted_neg_nanosecond_of_not_leap hleap]
        simp only [ofNanoseconds, nanoseconds, nanosecondsTo]
        omega
      | true =>
        have hsame := (position_shifted_of_leap hleap).2
        omega
    simp only [add]
    rw [if_pos (by omega)]
  · cases hleap : t.time.isLeap with
    | false =>
      have hc := hc.resolve_right (by simp [hleap])
      rw [shifted_neg_nanosecond_of_not_leap hleap, le_iff_nanoseconds_le hc
        (isLeap_ofNanoseconds _), nanoseconds_ofNanoseconds, lt_iff_nanoseconds_lt hc hleap]
      omega
    | true =>
      rw [le_iff, lt_iff, (position_shifted_of_leap hleap).1]
      omega

private theorem lt_truncate_last (ht : t.Inner) : t < last.truncate := by
  have hroom := ht.day_add_lt
  exact lt_of_day_lt (show t.day < lastDay by omega)

theorem second_span (ht : t.Inner) :
    ∃ next last, t.truncate.add (.ofSeconds 1) = .ok next ∧
      next.add (.neg .nanosecond) = .ok last ∧ last.Inner ∧
      ∀ c : Instant, c.time.isLeap = false →
        (t.truncate ≤ c ∧ c ≤ last ↔ c.truncate = t.truncate) := by
  have hfirst := ht.firstDay_add_le
  obtain ⟨next, stop, hnext, hstop, hday, hspan⟩ :=
    second_span_of_lt (show firstDay ≤ t.day by omega) ht.lt_truncate_last
  refine ⟨next, stop, hnext, hstop, ?_, fun c hc => ?_⟩
  · unfold Inner
    rw [hday]
    exact ht
  · rw [hspan, and_iff_right_of_imp (isLeap_of_truncate_eq hc)]

end Inner

theorem add_nanosecond (hfirst : firstDay ≤ t.day) (hlast : t.day < lastDay) :
    t.add .nanosecond = .ok (t.shifted .nanosecond) := by
  have hone : Duration.nanosecond.nanoseconds = 1 := rfl
  have hsecond := t.time.second_lt
  have hnano := t.time.nano_lt
  have hday : t.day ≤ (t.shifted .nanosecond).day ∧ (t.shifted .nanosecond).day ≤ t.day + 1 := by
    unfold shifted
    simp only [hone]
    split_ifs
    · simp
    all_goals
      simp only [ofNanoseconds, nanosecondsTo]
      omega
  simp only [add]
  rw [if_pos (by omega)]

theorem le_iff_of_add_nanosecond (hb : t.add .nanosecond = .ok b)
    (hc : c.time.isLeap = false ∨ t.time.isLeap = true) : b ≤ c ↔ t < c := by
  have hone : Duration.nanosecond.nanoseconds = 1 := rfl
  obtain rfl := eq_shifted_of_add_eq_ok hb
  cases hleap : t.time.isLeap with
  | false =>
    have hc := hc.resolve_right (by simp [hleap])
    rw [shifted_eq hleap, le_iff_nanoseconds_le (isLeap_ofNanoseconds _) hc,
      nanoseconds_ofNanoseconds, lt_iff_nanoseconds_lt hleap hc, hone]
    omega
  | true =>
    have hnano : 1000000000 ≤ t.time.nano := of_decide_eq_true hleap
    have hlt := t.time.nano_lt
    have hsecond := t.time.second_lt
    have hforward : (t.shifted .nanosecond).position = t.position + 1 := by
      unfold shifted
      simp only [hone]
      by_cases hinside : t.time.nano + 1 < 2000000000
      · rw [dif_pos (by omega)]
        simp only [position, TimeOfDay.position]
        omega
      · rw [dif_neg (by omega), if_neg (by omega), if_pos (by omega)]
        simp only [position, TimeOfDay.position, ofNanoseconds, nanosecondsTo]
        omega
    rw [le_iff, lt_iff]
    omega

end Instant

end Recurrence
