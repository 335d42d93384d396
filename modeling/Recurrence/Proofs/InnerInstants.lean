import Mathlib.Data.Int.Interval
import Mathlib.Data.Set.Card
import Recurrence.Calendar.Lemmas
import Recurrence.Instant.Order

set_option autoImplicit false
set_option relaxedAutoImplicit false

/-!
The linear order of instants, and the instants that keep away from both ends of the calendar. Only
finitely many instants lie between two, so what comes before an instant can be counted.
-/

namespace Recurrence

open Calendar

namespace Calendar

theorem yearOf_mono {a b : Int} (hab : a ≤ b) : yearOf a ≤ yearOf b := by
  have ha := yearOf_bounds a
  have hb := yearOf_bounds b
  by_contra hlt
  have hstart := yearStart_le_iff.2 (show yearOf b + 1 ≤ yearOf a by omega)
  omega

theorem yearStart_le_day_iff {year d : Int} : yearStart year ≤ d ↔ year ≤ yearOf d := by
  have hd := yearOf_bounds d
  constructor
  · intro hyear
    by_contra hlt
    have hstart := yearStart_le_iff.2 (show yearOf d + 1 ≤ year by omega)
    omega
  · intro hyear
    have hstart := yearStart_le_iff.2 hyear
    omega

theorem lt_yearStart_iff {year d : Int} : d < yearStart year ↔ yearOf d < year := by
  have hd := @yearStart_le_day_iff year d
  omega

end Calendar

namespace Instant

instance : LinearOrder Instant where
  le_refl := le_refl
  le_trans _ _ _ := le_trans
  le_antisymm _ _ := le_antisymm
  le_total := le_total
  lt_iff_le_not_ge a b := by
    rw [not_le]
    constructor
    · intro hab
      exact ⟨(lt_iff_le_and_ne.1 hab).1, hab⟩
    · exact And.right
  toDecidableLE := inferInstance
  toDecidableEq := inferInstance
  toDecidableLT := inferInstance

theorem latest_le_iff {a b c : Instant} : a.latest b ≤ c ↔ a ≤ c ∧ b ≤ c := by
  rw [le_iff, latest_eq, le_iff, le_iff]
  omega

theorem le_earliest_iff {a b c : Instant} : c ≤ a.earliest b ↔ c ≤ a ∧ c ≤ b := by
  rw [le_iff, earliest_eq, le_iff, le_iff]
  omega

def nine (year : Int) (month dayOfMonth : Nat) : Instant :=
  ⟨Calendar.day year month dayOfMonth, (TimeOfDay.ofClock? 9 0 0 0).getD .midnight⟩

/-- An instant outside the first and the last year of the calendar. -/
def Inner (t : Instant) : Prop := firstYear < yearOf t.day ∧ yearOf t.day < lastYear

instance (t : Instant) : Decidable t.Inner := inferInstanceAs (Decidable (_ ∧ _))

theorem day_le_of_le {a b : Instant} (hab : a ≤ b) : a.day ≤ b.day := by
  by_contra hlt
  exact hab (lt_of_day_lt (by omega))

theorem Inner.of_between {a b t : Instant} (ha : a.Inner) (hb : b.Inner) (hat : a ≤ t)
    (htb : t ≤ b) : t.Inner := by
  have hlow := yearOf_mono (day_le_of_le hat)
  have hhigh := yearOf_mono (day_le_of_le htb)
  unfold Inner at *
  omega

theorem Inner.firstDay_add_le {t : Instant} (ht : t.Inner) : firstDay + 365 ≤ t.day := by
  have hstart := yearStart_le_day_iff.2 (show firstYear + 1 ≤ yearOf t.day from ht.1)
  have hyear := yearStart_add_365_le firstYear
  have hfirst : firstDay = yearStart firstYear := by decide
  omega

theorem Inner.day_add_lt {t : Instant} (ht : t.Inner) : t.day + 364 < lastDay := by
  have hstart := lt_yearStart_iff.2 ht.2
  have hyear := yearStart_add_365_le lastYear
  have hlast : lastDay + 1 = yearStart (lastYear + 1) := by decide
  omega

private theorem position_injective : Function.Injective position := fun _ _ => eq_of_position_eq

theorem finite_between (a b : Instant) : {t | a ≤ t ∧ t < b}.Finite := by
  refine ((Set.finite_Icc a.position b.position).preimage position_injective.injOn).subset ?_
  intro t ht
  have hat := le_iff.1 ht.1
  have htb := lt_iff.1 ht.2
  exact ⟨hat, by omega⟩

end Instant

end Recurrence
