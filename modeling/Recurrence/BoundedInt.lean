import Recurrence.SortedSet

set_option autoImplicit false
set_option relaxedAutoImplicit false

/-!
Integers of limited range. The numbers of a rule are stored in one, two or four bytes, and their
types say so: a number that does not fit has no value to be stored as.
-/

namespace Recurrence

/-- An integer from `low` to `high`, both included. -/
structure BoundedInt (low high : Int) where
  val : Int
  low_le : low ≤ val
  le_high : val ≤ high
  deriving DecidableEq, Repr

/-- A number of four bytes without a sign. -/
abbrev Word32 := BoundedInt 0 4294967295

/-- A number of one byte without a sign. -/
abbrev Octet := BoundedInt 0 255

/-- A number of one byte with a sign. -/
abbrev SignedOctet := BoundedInt (-128) 127

/-- A number of two bytes with a sign. -/
abbrev SignedWord16 := BoundedInt (-32768) 32767

/-- A number of eight bytes with a sign. -/
abbrev SignedWord64 := BoundedInt (-9223372036854775808) 9223372036854775807

/-- The number one, the step of a rule that names none. -/
def Word32.one : Word32 := ⟨1, by decide, by decide⟩

namespace BoundedInt

variable {low high : Int}

/-- The bounded number equal to `n`, if `n` is in range. -/
def ofInt? (n : Int) : Option (BoundedInt low high) :=
  if h : low ≤ n ∧ n ≤ high then some ⟨n, h.1, h.2⟩ else none

theorem ofInt?_eq_some_iff {n : Int} {b : BoundedInt low high} :
    ofInt? n = some b ↔ b.val = n := by
  cases b with
  | mk val h₁ h₂ =>
    unfold ofInt?
    split
    · simp [eq_comm]
    · rename_i out
      constructor
      · simp
      · rintro rfl
        exact absurd ⟨h₁, h₂⟩ out

instance : Ranked (BoundedInt low high) where
  rank b := b.val
  eq_of_rank_eq := by
    intro a b h
    cases a
    cases b
    simp_all

end BoundedInt

end Recurrence
