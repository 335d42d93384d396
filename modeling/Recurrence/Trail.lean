set_option autoImplicit false
set_option relaxedAutoImplicit false

/-!
Following a successor from node to node until it is absent, leads outside, or leads back.
-/

namespace Recurrence

universe u

variable {α : Type u} [DecidableEq α]

/-- The nodes met from `current` on, each once, as long as they are among the `unvisited`. -/
def trail (next : α → Option α) (unvisited : List α) : Option α → List α
  | none => []
  | some a =>
    if a ∈ unvisited then a :: trail next (unvisited.erase a) (next a) else []
  termination_by unvisited.length
  decreasing_by
    rename_i h
    have shorter := List.length_erase_of_mem h
    have nonempty := List.length_pos_of_mem h
    omega

/-- True if the way from `current` on leads back to one of the `nodes` that was met before. -/
def leadsBack (next : α → Option α) (nodes unvisited : List α) : Option α → Bool
  | none => false
  | some a =>
    if a ∈ unvisited then leadsBack next nodes (unvisited.erase a) (next a) else a ∈ nodes
  termination_by unvisited.length
  decreasing_by
    rename_i h
    have shorter := List.length_erase_of_mem h
    have nonempty := List.length_pos_of_mem h
    omega

end Recurrence
