import Recurrence.Proofs.RawCandidates

set_option autoImplicit false
set_option relaxedAutoImplicit false

/-!
Candidates by their number. The candidates of the periods, one after the other, make one ascending
list. The place of a candidate there is the number of candidates before it, and the candidate with a
given number is found at its place, by arithmetic where the periods are of one size.
-/

namespace Recurrence

open Calendar

namespace Ascending

universe u

variable {α : Type u} {r : α → α → Prop} [IsStrictOrder α r] [DecidableRel r]

theorem length_filter_of_getElem? {xs : List α} (hxs : xs.Pairwise r) {a : α} {i : Nat}
    (ha : xs[i]? = some a) : (xs.filter fun b => r b a).length = i := by
  induction xs generalizing i with
  | nil => simp at ha
  | cons x xs ih =>
    obtain ⟨hx, hrest⟩ := List.pairwise_cons.1 hxs
    cases i with
    | zero =>
      obtain rfl : x = a := by simpa using ha
      rw [List.length_eq_zero_iff, List.filter_eq_nil_iff]
      intro b hb hba
      have hba : r b x := of_decide_eq_true hba
      rcases List.mem_cons.1 hb with rfl | hb
      · exact irrefl_of r b hba
      · exact irrefl_of r x (trans_of r (hx b hb) hba)
    | succ i =>
      rw [List.getElem?_cons_succ] at ha
      have hxa : r x a := hx a (List.mem_of_getElem? ha)
      have hkeep : decide (r x a) = true := decide_eq_true hxa
      rw [List.filter_cons, if_pos hkeep, List.length_cons, ih hrest ha]

end Ascending

namespace Instant

private theorem Inner.unitOf_lt {t : Instant} (ht : t.Inner) (frequency : Frequency)
    (weekStart : Weekday) :
    frequency.unitOf weekStart t.day < frequency.unitOf weekStart lastDay := by
  have hroom := ht.day_add_lt
  cases frequency with
  | daily =>
    simp only [Frequency.unitOf]
    omega
  | weekly =>
    simp only [Frequency.unitOf]
    omega
  | monthly =>
    have hlast : Frequency.unitOf .monthly weekStart lastDay = 12 * lastYear + 11 := by
      change Frequency.unitOf .monthly .monday lastDay = 12 * lastYear + 11
      decide
    have hdate := date_bounds t.day
    have hyear : yearOf t.day < lastYear := ht.2
    rw [hlast]
    simp only [Frequency.unitOf, year_date]
    omega
  | yearly =>
    have hlast : Frequency.unitOf .yearly weekStart lastDay = lastYear := by
      change Frequency.unitOf .yearly .monday lastDay = lastYear
      decide
    rw [hlast]
    exact ht.2

end Instant

namespace Pattern

variable {p : Pattern} {c : Instant} {k n : Nat}

theorem periodEnd_le_lastDay {t : Instant} (ht : t.Inner) (hk : p.unit k ≤ p.unitOf t.day) :
    p.periodEnd k ≤ lastDay := by
  have hlt := ht.unitOf_lt p.rule.frequency p.rule.weekStart
  exact Frequency.unitStart_le_iff.2 (by unfold unitOf at hk; omega)

theorem seek_eq_getElem? (p : Pattern) (periods k n : Nat) :
    p.seek periods k n = (p.enumerate k periods)[n]? := by
  induction periods generalizing k n with
  | zero => rfl
  | succ periods ih =>
    rw [enumerate_succ, List.getElem?_append, ← ih]
    rfl

private theorem getElem?_enumerate_of_length {size periods : Nat} (hsize : 0 < size)
    (hall : ∀ j, k ≤ j → j < k + periods → (p.candidates j).length = size)
    (hn : n < periods * size) :
    (p.enumerate k periods)[n]? = (p.candidates (k + n / size))[n % size]? := by
  induction periods generalizing k n with
  | zero => omega
  | succ periods ih =>
    have hfirst := hall k le_rfl (by omega)
    rw [enumerate_succ, List.getElem?_append, hfirst]
    -- Quotient and remainder tell the period and the place in it, the first period taken off.
    by_cases hlt : n < size
    · rw [if_pos hlt, Nat.div_eq_of_lt hlt, Nat.mod_eq_of_lt hlt, Nat.add_zero]
    · have hle : size ≤ n := not_lt.1 hlt
      rw [Nat.succ_mul] at hn
      rw [if_neg hlt, ih (fun j hj hlast => hall j (by omega) (by omega)) (by omega),
        ← Nat.mod_eq_sub_mod hle, Nat.div_eq_sub_div hsize hle, Nat.add_assoc,
        Nat.add_comm 1]

theorem getElem?_enumerate_of_cardinality? {size upper : Nat} (hsize : p.cardinality? = some size)
    (hroom : p.periodEnd upper ≤ lastDay) (hn : n < (p.enumerate 1 upper).length) :
    0 < size ∧ n / size < upper ∧
      (p.enumerate 1 upper)[n]? = (p.candidates (1 + n / size))[n % size]? := by
  -- All periods but the first are full, the last one included.
  have hfull : ∀ j, 1 ≤ j → j < 1 + upper → (p.candidates j).length = size :=
    fun j hj hlast => length_candidates_of_cardinality? hsize hj
      ((p.periodEnd_mono (by omega)).trans hroom)
  rw [length_enumerate_of_length hfull] at hn
  have hpos : 0 < size := Nat.pos_of_ne_zero fun hzero => by simp [hzero] at hn
  exact ⟨hpos, Nat.div_lt_of_lt_mul (Nat.mul_comm upper size ▸ hn),
    getElem?_enumerate_of_length hpos hfull hn⟩

/-- The candidate with a number stands at its place in the list of all candidates, whether it is
looked for in the first period, by arithmetic or by going through the periods. -/
theorem nth?_eq_getElem? {upper : Nat} (hfirst : 1 ≤ n)
    (hlength : n ≤ (p.enumerate 0 (upper + 1)).length) (hroom : p.periodEnd upper ≤ lastDay) :
    p.nth? n upper = (p.enumerate 0 (upper + 1))[n - 1]? := by
  rw [enumerate_succ, Nat.zero_add, List.length_append] at hlength
  rw [enumerate_succ, Nat.zero_add, List.getElem?_append]
  unfold nth?
  rw [if_neg (by omega)]
  by_cases hle : n ≤ (p.candidates 0).length
  · rw [if_pos hle, if_pos (by omega)]
  · have hplace : n - 1 - (p.candidates 0).length = n - (p.candidates 0).length - 1 := by omega
    rw [if_neg hle, if_neg (by omega), hplace]
    simp only
    split
    · rename_i size hsize
      obtain ⟨-, -, hfound⟩ := getElem?_enumerate_of_cardinality?
        (n := n - (p.candidates 0).length - 1) hsize hroom (by omega)
      exact hfound.symm
    · exact p.seek_eq_getElem? upper 1 _

end Pattern

end Recurrence
