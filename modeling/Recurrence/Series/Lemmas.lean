import Recurrence.Series

set_option autoImplicit false
set_option relaxedAutoImplicit false

/-!
What gathering yields: of the candidates of the periods, in order, those that still count, of these
the ones between the bounds, and of these as many as there is room for.
-/

namespace Recurrence.Pattern

/-- The candidates of a number of periods from the `k`-th on, in order. -/
def enumerate (p : Pattern) (k periods : Nat) : List Instant :=
  (List.range' k periods).flatMap p.candidates

theorem enumerate_zero (p : Pattern) (k : Nat) : p.enumerate k 0 = [] := rfl

theorem enumerate_succ (p : Pattern) (k periods : Nat) :
    p.enumerate k (periods + 1) = p.candidates k ++ p.enumerate (k + 1) periods := rfl

theorem upTo_append {α : Type} (limit : Option Nat) (xs ys : List α) :
    upTo limit (xs ++ ys) = upTo limit xs ++ upTo (limit.map (· - xs.length)) ys := by
  cases limit with
  | none => rfl
  | some n => exact List.take_append

theorem choose_append (start bound : Instant) (left : Option Nat) (room : Nat)
    (xs ys : List Instant) :
    choose start bound left room (xs ++ ys) =
      choose start bound left room xs ++
        choose start bound (left.map (· - xs.length))
          (room - (choose start bound left room xs).length) ys := by
  unfold choose
  rw [upTo_append, List.filter_append, List.take_append, List.length_take]
  congr 2
  omega

theorem upTo_sublist {α : Type} (limit : Option Nat) (xs : List α) :
    (upTo limit xs).Sublist xs := by
  cases limit with
  | none => exact List.Sublist.refl xs
  | some n => exact List.take_sublist n xs

theorem choose_sublist (start bound : Instant) (left : Option Nat) (room : Nat)
    (cs : List Instant) : (choose start bound left room cs).Sublist cs :=
  (List.take_sublist _ _).trans (List.filter_sublist.trans (upTo_sublist left cs))

theorem of_mem_choose {start bound c : Instant} {left : Option Nat} {room : Nat}
    {cs : List Instant} (hc : c ∈ choose start bound left room cs) :
    c ∈ upTo left cs ∧ start ≤ c ∧ c ≤ bound := by
  obtain ⟨hleft, hinside⟩ := List.mem_filter.1 (List.mem_of_mem_take hc)
  exact ⟨hleft, of_decide_eq_true hinside⟩

theorem choose_cons (start bound : Instant) (left : Option Nat) (room : Nat) (c : Instant)
    (cs : List Instant) : choose start bound left room (c :: cs) =
      choose start bound left room [c] ++ choose start bound (left.map (· - 1))
        (room - (choose start bound left room [c]).length) cs :=
  choose_append start bound left room [c] cs

theorem choose_eq_nil_of_outside {start bound : Instant} {left : Option Nat} {room : Nat}
    {cs : List Instant} (h : ∀ c ∈ cs, ¬ (start ≤ c ∧ c ≤ bound)) :
    choose start bound left room cs = [] := by
  unfold choose
  rw [List.take_eq_nil_iff, List.filter_eq_nil_iff]
  refine Or.inr fun c hc => ?_
  rw [decide_eq_true_eq]
  exact h c ((upTo_sublist left cs).mem hc)

theorem choose_of_no_room (start bound : Instant) (left : Option Nat) (cs : List Instant) :
    choose start bound left 0 cs = [] := List.take_zero

theorem choose_of_none_left (start bound : Instant) (room : Nat) (cs : List Instant) :
    choose start bound (some 0) room cs = [] := by
  simp [choose, upTo]

private theorem gather_reverse (p : Pattern) (start bound : Instant) (periods k : Nat)
    (left : Option Nat) (room : Nat) (found : List Instant) :
    (p.gather start bound periods k left room found).reverse =
      found.reverse ++ choose start bound left room (p.enumerate k periods) := by
  induction periods generalizing k left room found with
  | zero => cases left <;> simp [gather, enumerate_zero, choose, upTo]
  | succ periods ih =>
    unfold gather
    split
    · rename_i stop
      rcases stop with rfl | rfl
      · rw [choose_of_no_room, List.append_nil]
      · rw [choose_of_none_left, List.append_nil]
    · rw [ih, enumerate_succ, choose_append]
      simp only [List.reverse_append, List.reverse_reverse, List.append_assoc]

/-- What an expansion yields: of the candidates of the window's own periods those that are not used
up, lie in the window and find room. -/
theorem expand_candidates (p : Pattern) (cap : Nat) (start stop : Instant) :
    (p.expand cap start stop).candidates =
      choose start (p.bound stop)
        ((p.rule.count.map (·.val.toNat)).map (· - (p.expand cap start stop).alreadyCounted)) cap
        (p.enumerate (p.firstPeriod start)
          (p.periodsBy (p.bound stop).day - p.firstPeriod start)) := by
  simp [expand, gather_reverse]

end Recurrence.Pattern

namespace Recurrence.Series

theorem expand_of_checkStart {r : Rule} {anchor : Instant}
    (hstart : (Pattern.of r anchor).checkStart = .ok ()) (cap : Nat) (start stop : Instant) :
    (⟨some r, anchor⟩ : Series).expand cap start stop =
      .ok ((Pattern.of r anchor).expand cap start stop) := by
  unfold expand
  simp only [hstart]
  rfl

end Recurrence.Series
