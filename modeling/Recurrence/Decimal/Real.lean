import Recurrence.Decimal.Shortest
import Recurrence.Text.Field

set_option autoImplicit false
set_option relaxedAutoImplicit false

/-!
Real numbers as they are read from text and written back: binary numbers with a sign, the two
infinities, and the value of what is no number.
-/

namespace Recurrence.Decimal

open Recurrence.Text

/-- A real number as it is held between reading and writing. -/
inductive Real
  | notANumber
  | infinite (negative : Bool)
  | finite (negative : Bool) (size : Binary)
  deriving DecidableEq, Repr

namespace Real

/-- Beyond this power of ten a number is infinite, and below its inverse it is zero. -/
def magnitudeLimit : Int := 400

/-- The real number nearest to `digits * 10 ^ exponent`, with a sign. -/
def nearest (negative : Bool) (digits : Nat) (exponent : Int) : Real :=
  let size := (ofNat digits).length + exponent
  if digits = 0 ∨ size < -magnitudeLimit then finite negative .zero
  else if magnitudeLimit < size then infinite negative
  else
    let num := digits * Nat.pow 10 exponent.toNat
    let den := Nat.pow 10 (-exponent).toNat
    (Binary.nearest? num den).elim (infinite negative) (finite negative)

/-- Read the digits at the front of a text, which may be none. -/
def spanDigits (text : List Char) : List Char × List Char :=
  text.span fun c => (digit? c).isSome

/-- Read an exponent, which may be left out, up to the end of the text. -/
def readExponent? : List Char → Option Int
  | [] => some 0
  | c :: rest => if c = 'e' ∨ c = 'E' then readInt? rest else none

/-- Read a number without a sign: digits with or without a point, at least one of them, and
an exponent. -/
def readNumber? (negative : Bool) (text : List Char) : Option Real :=
  let (whole, rest) := spanDigits text
  let (fraction, rest) := match rest with
    | '.' :: rest => spanDigits rest
    | rest => ([], rest)
  do
    let digits ← readNat? (whole ++ fraction)
    let exponent ← readExponent? rest
    return nearest negative digits (exponent - fraction.length)

/-- Read a number without a sign, or one of the words for what is not finite, in either case. -/
def readUnsigned? (negative : Bool) (text : List Char) : Option Real :=
  let word := String.ofList (text.map Char.toLower)
  if word = "inf" ∨ word = "infinity" then some (infinite negative)
  else if word = "nan" then some notANumber
  else readNumber? negative text

/-- Read a real number with an optional sign. -/
def read? : List Char → Option Real
  | '+' :: rest => readUnsigned? false rest
  | '-' :: rest => readUnsigned? true rest
  | text => readUnsigned? false text

def sizeText (size : Binary) : List Char :=
  if size.mantissa = 0 then ['0'] else (shortest size).positional

/-- A real number in its shortest positional form. -/
def text : Real → String
  | notANumber => "NaN"
  | infinite negative => if negative then "-inf" else "inf"
  | finite negative size =>
    String.ofList (if negative then '-' :: sizeText size else sizeText size)

/-- The number from 0 to `greatest` nearest to a real number; 0 for what is no number. -/
def nearestCount (greatest : Nat) : Real → Nat
  | notANumber => 0
  | infinite negative => if negative then 0 else greatest
  | finite negative size => if negative then 0 else min greatest size.nearestNat

end Real

end Recurrence.Decimal
