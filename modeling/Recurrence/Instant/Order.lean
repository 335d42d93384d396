import Recurrence.Instant

set_option autoImplicit false
set_option relaxedAutoImplicit false

/-!
The order of instants is linear. It is that of their positions, integers that leave room for a leap
second after every second, so statements about order become statements about integers.
-/

namespace Recurrence

namespace TimeOfDay

def position (t : TimeOfDay) : Nat := t.second * 2000000000 + t.nano

theorem position_lt (t : TimeOfDay) : t.position < 172800000000000 := by
  have second := t.second_lt
  have nano := t.nano_lt
  unfold position
  omega

theorem lt_iff {a b : TimeOfDay} : a < b ↔ a.position < b.position := by
  have left := a.nano_lt
  have right := b.nano_lt
  change (a.second < b.second ∨ (a.second = b.second ∧ a.nano < b.nano)) ↔ _
  unfold position
  omega

theorem eq_of_position_eq {a b : TimeOfDay} (h : a.position = b.position) : a = b := by
  have left := a.nano_lt
  have right := b.nano_lt
  cases a
  cases b
  simp only [position] at h left right
  simp only [mk.injEq]
  omega

end TimeOfDay

namespace Instant

/-- The place of an instant among all instants. -/
def position (t : Instant) : Int := t.day * 172800000000000 + t.time.position

theorem lt_iff {a b : Instant} : a < b ↔ a.position < b.position := by
  have left := a.time.position_lt
  have right := b.time.position_lt
  change (a.day < b.day ∨ (a.day = b.day ∧ a.time < b.time)) ↔ _
  rw [TimeOfDay.lt_iff]
  unfold position
  omega

theorem le_iff {a b : Instant} : a ≤ b ↔ a.position ≤ b.position := by
  change ¬ b < a ↔ _
  rw [lt_iff]
  omega

theorem eq_of_position_eq {a b : Instant} (h : a.position = b.position) : a = b := by
  have left := a.time.position_lt
  have right := b.time.position_lt
  have time : a.time = b.time := TimeOfDay.eq_of_position_eq (by unfold position at h; omega)
  cases a
  cases b
  simp only [position] at h
  simp only at time
  subst time
  simp only [mk.injEq, and_true]
  omega

theorem eq_iff {a b : Instant} : a = b ↔ a.position = b.position :=
  ⟨fun h => h ▸ rfl, eq_of_position_eq⟩

theorem le_refl (a : Instant) : a ≤ a := le_iff.2 (Int.le_refl _)

theorem le_trans {a b c : Instant} (h : a ≤ b) (k : b ≤ c) : a ≤ c := by
  rw [le_iff] at *
  omega

theorem le_antisymm {a b : Instant} (h : a ≤ b) (k : b ≤ a) : a = b := by
  rw [le_iff] at *
  exact eq_of_position_eq (by omega)

theorem le_total (a b : Instant) : a ≤ b ∨ b ≤ a := by
  rw [le_iff, le_iff]
  omega

theorem lt_iff_le_and_ne {a b : Instant} : a < b ↔ a ≤ b ∧ a ≠ b := by
  rw [lt_iff, le_iff, ne_eq, eq_iff]
  omega

theorem not_lt {a b : Instant} : ¬ a < b ↔ b ≤ a := Iff.rfl

theorem not_le {a b : Instant} : ¬ a ≤ b ↔ b < a := by
  rw [le_iff, lt_iff]
  omega

theorem lt_of_day_lt {a b : Instant} (h : a.day < b.day) : a < b := Or.inl h

theorem earliest_eq (a b : Instant) : (a.earliest b).position = min a.position b.position := by
  unfold earliest
  split
  · rename_i h
    rw [lt_iff] at h
    omega
  · rename_i h
    rw [not_lt, le_iff] at h
    omega

theorem latest_eq (a b : Instant) : (a.latest b).position = max a.position b.position := by
  unfold latest
  split
  · rename_i h
    rw [lt_iff] at h
    omega
  · rename_i h
    rw [not_lt, le_iff] at h
    omega

theorem truncate_le (t : Instant) : t.truncate ≤ t := by
  rw [le_iff]
  unfold position truncate TimeOfDay.truncate TimeOfDay.position
  split
  · simp only
    omega
  · simp only
    omega

theorem truncate_truncate (t : Instant) : t.truncate.truncate = t.truncate := by
  unfold truncate TimeOfDay.truncate
  by_cases h : 1000000000 ≤ t.time.nano <;> simp [h]

end Instant

end Recurrence
