import Recurrence.BoundedInt
import Recurrence.Text.Blank

set_option autoImplicit false
set_option relaxedAutoImplicit false

/-!
Decimal numerals: how numbers are written, padded and read.
-/

namespace Recurrence.Text

/-- The digits of a number, without leading zeros. -/
def ofNat (n : Nat) : List Char := Nat.toDigits 10 n

/-- The digits of a number, with a minus sign in front of a negative one. -/
def ofInt : Int → List Char
  | .ofNat n => ofNat n
  | .negSucc n => '-' :: ofNat (n + 1)

/-- The digits of a number, with leading zeros up to the given width. -/
def padded (width n : Nat) : List Char :=
  List.replicate (width - (ofNat n).length) '0' ++ ofNat n

/-- The value of a decimal digit. -/
def digit? (c : Char) : Option Nat :=
  if '0' ≤ c ∧ c ≤ '9' then some (c.toNat - 48) else none

/-- Read digits up to the end of the text, behind those already read. -/
def readDigits (value : Nat) : List Char → Option Nat
  | [] => some value
  | c :: rest => match digit? c with
    | some d => readDigits (10 * value + d) rest
    | none => none

/-- Read a text of one or more digits. -/
def readNat? : List Char → Option Nat
  | [] => none
  | c :: rest => readDigits 0 (c :: rest)

/-- Read an integer: at most one sign, then one or more digits. -/
def readInt? : List Char → Option Int
  | '+' :: rest => (readNat? rest).map Int.ofNat
  | '-' :: rest => (readNat? rest).map fun n => -(n : Int)
  | text => (readNat? text).map Int.ofNat

/-- Take between one and `width` digits off the front of a text, as many as there are. -/
def takeDigits? (width : Nat) (text : List Char) : Option (Nat × List Char) :=
  let digits := (text.take width).takeWhile fun c => (digit? c).isSome
  (readNat? digits).map fun n => (n, text.drop digits.length)

/-- Take all the digits off the front of a text, at least one. -/
def takeAllDigits? (text : List Char) : Option (Nat × List Char) := takeDigits? text.length text

end Recurrence.Text

namespace Recurrence.BoundedInt

variable {low high : Int}

/-- Read a number of the given range. A minus sign is admitted only where the range has
negative numbers, so that even `-0` is refused elsewhere. -/
def read? (text : List Char) : Option (BoundedInt low high) :=
  if text.head? = some '-' ∧ 0 ≤ low then none else (Text.readInt? text).bind ofInt?

end Recurrence.BoundedInt
