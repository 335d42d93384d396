import Recurrence.Trail

set_option autoImplicit false
set_option relaxedAutoImplicit false

/-!
Facts about trails. A trail visits what its way comes to, step by step, up to the first step that
comes to nothing, to a node outside, or to a node for the second time; which of these ends it, the
step behind the trail says.
-/

namespace Recurrence

universe u

variable {α : Type u} {next next' : α → Option α}

/-- What the way along a successor comes to after a number of steps. -/
def wayAfter (next : α → Option α) (start : Option α) : Nat → Option α
  | 0 => start
  | steps + 1 => (wayAfter next start steps).bind next

private theorem wayAfter_succ (next : α → Option α) (start : Option α) (steps : Nat) :
    wayAfter next start (steps + 1) = wayAfter next (start.bind next) steps := by
  induction steps with
  | zero => rfl
  | succ steps ih =>
    rw [wayAfter, ih]
    rfl

variable [DecidableEq α] {unvisited unvisited' : List α} {start : Option α} {a b : α}

theorem mem_of_mem_trail (ha : a ∈ trail next unvisited start) : a ∈ unvisited := by
  fun_induction trail next unvisited start with
  | case1 => cases ha
  | case2 unvisited current hcurrent ih =>
    rcases List.mem_cons.1 ha with rfl | ha
    · exact hcurrent
    · exact List.mem_of_mem_erase (ih ha)
  | case3 => cases ha

theorem nodup_trail (hnodup : unvisited.Nodup) : (trail next unvisited start).Nodup := by
  fun_induction trail next unvisited start with
  | case1 => exact List.nodup_nil
  | case2 unvisited current hcurrent ih =>
    refine List.nodup_cons.2 ⟨fun hagain => ?_, ih (hnodup.erase current)⟩
    exact (hnodup.mem_erase_iff.1 (mem_of_mem_trail hagain)).1 rfl
  | case3 => exact List.nodup_nil

theorem length_trail_le (next : α → Option α) (unvisited : List α) (start : Option α) :
    (trail next unvisited start).length ≤ unvisited.length := by
  fun_induction trail next unvisited start with
  | case1 => exact Nat.zero_le _
  | case2 unvisited current hcurrent ih =>
    have hshorter := List.length_erase_of_mem hcurrent
    have hpositive := List.length_pos_of_mem hcurrent
    rw [List.length_cons]
    omega
  | case3 => exact Nat.zero_le _

theorem getElem?_trail {k : Nat} (hk : k < (trail next unvisited start).length) :
    (trail next unvisited start)[k]? = wayAfter next start k := by
  fun_induction trail next unvisited start generalizing k with
  | case1 => exact absurd hk (Nat.not_lt_zero k)
  | case2 unvisited current hcurrent ih =>
    cases k with
    | zero => rfl
    | succ k =>
      rw [List.getElem?_cons_succ, ih (Nat.lt_of_succ_lt_succ hk), wayAfter_succ]
      rfl
  | case3 => exact absurd hk (Nat.not_lt_zero k)

theorem mem_trail_of_next (ha : a ∈ trail next unvisited start) (hb : next a = some b)
    (hmem : b ∈ unvisited) : b ∈ trail next unvisited start := by
  fun_induction trail next unvisited start with
  | case1 => cases ha
  | case2 unvisited current hcurrent ih =>
    by_cases heq : b = current
    · exact heq ▸ List.mem_cons_self
    · have hleft : b ∈ unvisited.erase current := (List.mem_erase_of_ne heq).2 hmem
      apply List.mem_cons_of_mem
      rcases List.mem_cons.1 ha with rfl | ha
      · rw [hb, trail, if_pos hleft]
        exact List.mem_cons_self
      · exact ih ha hleft
  | case3 => cases ha

/-- A dead end that may be visited after all, and to which the way leads, is its new last place. -/
theorem trail_append_dead_end {x : α} (hnodup : unvisited.Nodup) (hnodup' : unvisited'.Nodup)
    (hmem : ∀ a, a ≠ x → (a ∈ unvisited' ↔ a ∈ unvisited)) (hx : x ∈ unvisited')
    (hfresh : x ∉ unvisited) (hnext : ∀ a ∈ trail next unvisited start, next' a = next a)
    (hleads : ∃ a ∈ trail next unvisited start, next a = some x) (hend : next' x = none) :
    trail next' unvisited' start = trail next unvisited start ++ [x] := by
  fun_induction trail next unvisited start generalizing unvisited' with
  | case1 =>
    obtain ⟨a, ha, -⟩ := hleads
    cases ha
  | case2 unvisited current hcurrent ih =>
    have hne : current ≠ x := fun heq => hfresh (heq ▸ hcurrent)
    rw [trail, if_pos ((hmem current hne).2 hcurrent), hnext current List.mem_cons_self,
      List.cons_append]
    congr 1
    by_cases hlast : next current = some x
    · have hx' : x ∈ unvisited'.erase current := (List.mem_erase_of_ne hne.symm).2 hx
      have hout : x ∉ unvisited.erase current := fun hin => hfresh (List.mem_of_mem_erase hin)
      rw [hlast, trail, if_pos hx', hend, trail, trail, if_neg hout, List.nil_append]
    · refine ih (hnodup.erase current) (hnodup'.erase current) (fun a ha => ?_)
        ((List.mem_erase_of_ne hne.symm).2 hx) (fun hin => hfresh (List.mem_of_mem_erase hin))
        (fun a ha => hnext a (List.mem_cons_of_mem current ha)) ?_
      · rw [hnodup.mem_erase_iff, hnodup'.mem_erase_iff, hmem a ha]
      · obtain ⟨a, ha, hax⟩ := hleads
        rcases List.mem_cons.1 ha with rfl | ha
        · exact absurd hax hlast
        · exact ⟨a, ha, hax⟩
  | case3 =>
    obtain ⟨a, ha, -⟩ := hleads
    cases ha

/-- Behind a trail the way comes to nothing, to a node that may not be visited, or to one that was
visited before. -/
theorem wayAfter_length_trail
    (ha : wayAfter next start (trail next unvisited start).length = some a) :
    a ∉ unvisited ∨ a ∈ trail next unvisited start := by
  fun_induction trail next unvisited start with
  | case1 => cases ha
  | case2 unvisited current hcurrent ih =>
    rw [List.length_cons, wayAfter_succ] at ha
    by_cases hagain : a = current
    · exact Or.inr (hagain ▸ List.mem_cons_self)
    · rcases ih ha with hout | hin
      · exact Or.inl fun hmem => hout ((List.mem_erase_of_ne hagain).2 hmem)
      · exact Or.inr (List.mem_cons_of_mem current hin)
  | case3 unvisited current hcurrent =>
    obtain rfl := Option.some.inj ha
    exact Or.inl hcurrent

theorem leadsBack_eq_any (next : α → Option α) (nodes unvisited : List α) (start : Option α) :
    leadsBack next nodes unvisited start =
      (wayAfter next start (trail next unvisited start).length).any (· ∈ nodes) := by
  fun_induction leadsBack next nodes unvisited start with
  | case1 =>
    unfold trail
    rfl
  | case2 unvisited current hcurrent ih =>
    rw [ih, trail, if_pos hcurrent, List.length_cons, wayAfter_succ]
    rfl
  | case3 unvisited current hcurrent =>
    rw [trail, if_neg hcurrent]
    rfl

end Recurrence
