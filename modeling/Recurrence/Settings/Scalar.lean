import Recurrence.Decimal.Real

set_option autoImplicit false
set_option relaxedAutoImplicit false

/-!
The values of settings. Text is read as the narrowest kind of value that it fits, and a value is
turned back into text, or into a count, where one is wanted.
-/

namespace Recurrence

open Recurrence.Text

/-- The value of a setting. -/
inductive Scalar
  | truth (value : Bool)
  | integer (value : Int)
  | real (value : Decimal.Real)
  | text (value : String)
  deriving DecidableEq, Repr

namespace Scalar

/-- A word without regard to case. -/
def caseless (word : String) : String := String.ofList (word.toList.map Char.toLower)

/-- The value that a text stands for: a truth value in either case, an integer of eight bytes, a
real number, or else the text itself. -/
def ofText (value : String) : Scalar :=
  let word := caseless value
  if word = "true" then truth true
  else if word = "false" then truth false
  else match (BoundedInt.read? value.toList : Option SignedWord64) with
    | some n => integer n.val
    | none => match Decimal.Real.read? value.toList with
      | some x => real x
      | none => text value

/-- The value where a text is wanted. -/
def toText : Scalar → String
  | truth value => if value then "true" else "false"
  | integer value => String.ofList (ofInt value)
  | real value => value.text
  | text value => value

/-- The greatest count, that of eight bytes without a sign. -/
def greatestCount : Nat := 18446744073709551615

/-- The count that a word stands for. -/
def countOfWord? (word : String) : Option Nat :=
  if word = "on" ∨ word = "yes" then some 1
  else if word = "off" ∨ word = "no" then some 0
  else none

/-- The value where a count is wanted: 1 for true and 0 for false, an integer unless it is negative,
the nearest count for a real number, and words that say whether something is on. -/
def toCount? : Scalar → Option Nat
  | truth value => some value.toNat
  | integer value => if 0 ≤ value then some value.toNat else none
  | real value => some (value.nearestCount greatestCount)
  | text value => countOfWord? (caseless value)

end Scalar

end Recurrence
