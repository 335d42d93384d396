import Recurrence.Pattern
import Recurrence.Proofs.CalendarSeries

set_option autoImplicit false
set_option relaxedAutoImplicit false

/-!
The times of day of a rule: they are the admitted ones, each once and in order.
-/

namespace Recurrence

namespace SortedSet

universe u

variable {α : Type u} [Ranked α]

theorem isEmpty_iff {s : SortedSet α} : s.isEmpty = true ↔ s = ∅ := by
  obtain ⟨elements, ascending⟩ := s
  change elements.isEmpty = true ↔ (⟨elements, ascending⟩ : SortedSet α) = ⟨[], List.Pairwise.nil⟩
  simp [List.isEmpty_iff]

theorem isEmpty_eq_false_iff {s : SortedSet α} : s.isEmpty = false ↔ s ≠ ∅ := by
  rw [ne_eq, ← isEmpty_iff, Bool.not_eq_true]

theorem mem_elements {s : SortedSet α} {a : α} : a ∈ s.elements ↔ a ∈ s := Iff.rfl

end SortedSet

namespace TimeOfDay

theorem ofClock?_eq_some_iff {hour minute second nano : Nat} {t : TimeOfDay} :
    ofClock? hour minute second nano = some t ↔
      t.hour = hour ∧ t.minute = minute ∧ t.secondOfMinute = second ∧ t.nano = nano := by
  obtain ⟨s, n, hs, hn, hleap⟩ := t
  unfold ofClock? ofSecond? TimeOfDay.hour TimeOfDay.minute secondOfMinute
  constructor
  · intro h
    split at h
    · rename_i hclock
      split at h
      · simp only [Option.some.injEq, TimeOfDay.mk.injEq] at h
        simp only
        omega
      · simp at h
    · simp at h
  · simp only
    rintro ⟨hhour, hminute, hsecond, hnano⟩
    have hclock : hour < 24 ∧ minute < 60 ∧ second < 60 := by omega
    have htotal : hour * 3600 + minute * 60 + second = s := by omega
    subst hnano
    rw [if_pos hclock, htotal, dif_pos ⟨hs, hn, hleap⟩]

private theorem second_eq (t : TimeOfDay) :
    t.second = t.hour * 3600 + t.minute * 60 + t.secondOfMinute := by
  unfold hour minute secondOfMinute
  omega

theorem minute_lt (t : TimeOfDay) : t.minute < 60 := by
  unfold minute
  omega

theorem secondOfMinute_lt (t : TimeOfDay) : t.secondOfMinute < 60 := by
  unfold secondOfMinute
  omega

private theorem lt_of_second_lt {a b : TimeOfDay} (hab : a.second < b.second) : a < b := Or.inl hab

end TimeOfDay

namespace Rule

private theorem mem_valuesOr {s : SortedSet Octet} {ofAnchor part : Nat} :
    part ∈ valuesOr s ofAnchor ↔ AdmitsPart s ofAnchor part := by
  unfold valuesOr AdmitsPart
  by_cases hs : s = ∅
  · rw [if_pos (SortedSet.isEmpty_iff.2 hs), if_pos hs, List.mem_singleton]
  · rw [if_neg (mt SortedSet.isEmpty_iff.1 hs), if_neg hs, List.mem_map]
    constructor
    · rintro ⟨n, hn, hpart⟩
      have hlow := n.low_le
      exact ⟨n, hn, by omega⟩
    · rintro ⟨n, hn, hpart⟩
      exact ⟨n, hn, by omega⟩

private theorem valuesOr_ascending (s : SortedSet Octet) (ofAnchor : Nat) :
    (valuesOr s ofAnchor).Pairwise (· < ·) := by
  unfold valuesOr
  split
  · exact List.pairwise_singleton _ _
  · rw [List.pairwise_map]
    refine s.ascending.imp ?_
    intro a b hab
    have ha := a.low_le
    have hb := b.low_le
    change a.val < b.val at hab
    omega

theorem mem_timesOfDay {r : Rule} {a t : TimeOfDay} : t ∈ r.timesOfDay a ↔ r.AdmitsTime a t := by
  unfold timesOfDay
  simp only [List.mem_flatMap, List.mem_filterMap, mem_valuesOr, TimeOfDay.ofClock?_eq_some_iff]
  constructor
  · rintro ⟨hour, hhour, minute, hminute, second, hsecond, rfl, rfl, rfl, hnano⟩
    exact ⟨hhour, hminute, hsecond, hnano⟩
  · rintro ⟨hhour, hminute, hsecond, hnano⟩
    exact ⟨t.hour, hhour, t.minute, hminute, t.secondOfMinute, hsecond, rfl, rfl, rfl, hnano⟩

theorem timesOfDay_ascending (r : Rule) (a : TimeOfDay) :
    (r.timesOfDay a).Pairwise (· < ·) := by
  unfold timesOfDay
  rw [List.pairwise_flatMap]
  refine ⟨?_, ?_⟩
  · intro hour _
    rw [List.pairwise_flatMap]
    refine ⟨?_, ?_⟩
    · intro minute _
      rw [List.pairwise_filterMap]
      refine (valuesOr_ascending _ _).imp ?_
      intro s s' hlt t ht t' ht'
      obtain ⟨hhour, hminute, hsecond, -⟩ := TimeOfDay.ofClock?_eq_some_iff.1 ht
      obtain ⟨hhour', hminute', hsecond', -⟩ := TimeOfDay.ofClock?_eq_some_iff.1 ht'
      have hs := t.second_eq
      have hs' := t'.second_eq
      exact TimeOfDay.lt_of_second_lt (by omega)
    · refine (valuesOr_ascending _ _).imp ?_
      intro m m' hlt t ht t' ht'
      obtain ⟨s, -, hclock⟩ := List.mem_filterMap.1 ht
      obtain ⟨s', -, hclock'⟩ := List.mem_filterMap.1 ht'
      obtain ⟨hhour, hminute, -⟩ := TimeOfDay.ofClock?_eq_some_iff.1 hclock
      obtain ⟨hhour', hminute', -⟩ := TimeOfDay.ofClock?_eq_some_iff.1 hclock'
      have hs := t.second_eq
      have hs' := t'.second_eq
      have hsecond := t.secondOfMinute_lt
      exact TimeOfDay.lt_of_second_lt (by omega)
  · refine (valuesOr_ascending _ _).imp ?_
    intro h h' hlt t ht t' ht'
    obtain ⟨m, -, hm⟩ := List.mem_flatMap.1 ht
    obtain ⟨m', -, hm'⟩ := List.mem_flatMap.1 ht'
    obtain ⟨s, -, hclock⟩ := List.mem_filterMap.1 hm
    obtain ⟨s', -, hclock'⟩ := List.mem_filterMap.1 hm'
    obtain ⟨hhour, -⟩ := TimeOfDay.ofClock?_eq_some_iff.1 hclock
    obtain ⟨hhour', -⟩ := TimeOfDay.ofClock?_eq_some_iff.1 hclock'
    have hs := t.second_eq
    have hs' := t'.second_eq
    have hminute := t.minute_lt
    have hsecond := t.secondOfMinute_lt
    exact TimeOfDay.lt_of_second_lt (by omega)

end Rule

end Recurrence
