set_option autoImplicit false
set_option relaxedAutoImplicit false

/-!
Finite sets kept as ascending lists. A set is determined by its members, so equal sets are equal
values, and its elements are always visited in one order.
-/

namespace Recurrence

universe u

/-- A type whose values are told apart and ordered by an integer rank. -/
class Ranked (α : Type u) where
  rank : α → Int
  eq_of_rank_eq : ∀ {a b : α}, rank a = rank b → a = b

/-- A finite set, held as its elements by strictly ascending rank. -/
structure SortedSet (α : Type u) [Ranked α] where
  elements : List α
  ascending : elements.Pairwise fun a b => Ranked.rank a < Ranked.rank b

namespace SortedSet

variable {α : Type u} [Ranked α]

instance [DecidableEq α] : DecidableEq (SortedSet α) := fun s t =>
  if h : s.elements = t.elements then
    isTrue (by cases s; cases t; simp_all)
  else
    isFalse (fun e => h (congrArg elements e))

def empty : SortedSet α := ⟨[], List.Pairwise.nil⟩

instance : EmptyCollection (SortedSet α) := ⟨empty⟩

instance : Inhabited (SortedSet α) := ⟨empty⟩

instance : Membership α (SortedSet α) := ⟨fun s a => a ∈ s.elements⟩

instance [DecidableEq α] (a : α) (s : SortedSet α) : Decidable (a ∈ s) :=
  inferInstanceAs (Decidable (a ∈ s.elements))

def isEmpty (s : SortedSet α) : Bool := s.elements.isEmpty

def size (s : SortedSet α) : Nat := s.elements.length

/-- Place `a` in an ascending list, unless it is there already. -/
def place (a : α) : List α → List α
  | [] => [a]
  | b :: rest =>
    if Ranked.rank a < Ranked.rank b then a :: b :: rest
    else if Ranked.rank b < Ranked.rank a then b :: place a rest
    else b :: rest

theorem mem_place {a x : α} {xs : List α} : x ∈ place a xs ↔ x = a ∨ x ∈ xs := by
  induction xs with
  | nil => simp [place]
  | cons b rest ih =>
    unfold place
    split
    · simp
    · split
      · simp only [List.mem_cons, ih]
        constructor
        · rintro (h | h | h) <;> simp [h]
        · rintro (h | h | h) <;> simp [h]
      · have same : a = b := Ranked.eq_of_rank_eq (by omega)
        subst same
        simp

theorem ascending_place {a : α} {xs : List α}
    (h : xs.Pairwise fun x y => Ranked.rank x < Ranked.rank y) :
    (place a xs).Pairwise fun x y => Ranked.rank x < Ranked.rank y := by
  induction xs with
  | nil => simp [place]
  | cons b rest ih =>
    rw [List.pairwise_cons] at h
    unfold place
    split
    · rename_i below
      refine List.pairwise_cons.2 ⟨?_, List.pairwise_cons.2 h⟩
      intro x hx
      rcases List.mem_cons.1 hx with rfl | hx
      · exact below
      · exact Int.lt_trans below (h.1 x hx)
    · split
      · rename_i above
        refine List.pairwise_cons.2 ⟨?_, ih h.2⟩
        intro x hx
        rcases mem_place.1 hx with rfl | hx
        · exact above
        · exact h.1 x hx
      · exact List.pairwise_cons.2 h

/-- The set with `a` added. -/
def insert (a : α) (s : SortedSet α) : SortedSet α :=
  ⟨place a s.elements, ascending_place s.ascending⟩

/-- The set of the members of a list, whatever their order and repetitions. -/
def ofList (xs : List α) : SortedSet α := xs.foldr insert empty

end SortedSet

end Recurrence
