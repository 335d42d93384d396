import Recurrence.Decimal.Binary
import Recurrence.Text.Numeral

set_option autoImplicit false
set_option relaxedAutoImplicit false

/-!
The shortest decimal form of a binary number: the fewest digits that round to it and to no other,
and of those the nearest, a tie going to the larger.
-/

namespace Recurrence.Decimal

/-- The number `digits * 10 ^ exponent`. -/
structure Form where
  digits : Nat
  exponent : Int
  deriving DecidableEq, Repr

/-- The least power of ten that exceeds a positive fraction, by its exponent. -/
def magnitude (num den : Nat) : Int :=
  if den ≤ num then (Text.ofNat (num / den)).length
  else
    let width : Int := (Text.ofNat (den / num)).length
    if den % num = 0 ∧ den / num = Nat.pow 10 (width - 1).toNat then 2 - width else 1 - width

/-- The open or closed interval of the fractions that round to a binary number, over one
denominator. -/
structure Interval where
  low : Nat
  middle : Nat
  high : Nat
  den : Nat
  closed : Bool

/-- The interval of a binary number. It is closed if the mantissa is even, and reaches less far
down from a power of two, where the numbers below lie closer together. -/
def interval (b : Binary) : Interval :=
  let below := if b.mantissa = Binary.leastMantissa ∧ Binary.leastExponent < b.exponent then 1 else 2
  let exponent := b.exponent - 2
  let factor := if 0 ≤ exponent then Nat.pow 2 exponent.toNat else 1
  { low := (4 * b.mantissa - below) * factor
    middle := 4 * b.mantissa * factor
    high := (4 * b.mantissa + 2) * factor
    den := if 0 ≤ exponent then 1 else Nat.pow 2 (-exponent).toNat
    closed := b.mantissa % 2 = 0 }

def Interval.holds (i : Interval) (num den : Nat) : Bool :=
  let low := i.low * den
  let value := num * i.den
  let high := i.high * den
  if i.closed then low ≤ value && value ≤ high else low < value && value < high

/-- The form with the given number of digits that rounds to the middle of the interval: the nearer
one if there are two, and the upper one if both are equally near. -/
def formOfWidth? (i : Interval) (size : Int) (width : Nat) : Option Form :=
  let exponent := size - width
  let up := if 0 ≤ exponent then Nat.pow 10 exponent.toNat else 1
  let down := if 0 ≤ exponent then 1 else Nat.pow 10 (-exponent).toNat
  let lower := i.middle * down / (i.den * up)
  let upper := lower + 1
  let twice := 2 * i.middle * down
  let between := (lower + upper) * i.den * up
  let nearer := if twice < between then lower else upper
  let farther := if nearer = lower then upper else lower
  if i.holds (nearer * up) down then some ⟨nearer, exponent⟩
  else if i.holds (farther * up) down then some ⟨farther, exponent⟩
  else none

/-- The widths tried, shortest first. Seventeen digits always suffice. -/
def widths : List Nat := List.range' 1 17

/-- The shortest form of a positive binary number. -/
def shortest (b : Binary) : Form :=
  let i := interval b
  let size := magnitude i.middle i.den
  (widths.findSome? (formOfWidth? i size)).getD ⟨0, 0⟩

/-- The digits without the zeros at their end. -/
def withoutFinalZeros (digits : List Char) : List Char :=
  (digits.reverse.dropWhile (· = '0')).reverse

/-- A form written without an exponent, and without a point if it is a whole number. -/
def Form.positional (f : Form) : List Char :=
  if 0 ≤ f.exponent then Text.ofNat (f.digits * Nat.pow 10 f.exponent.toNat)
  else
    let scale := Nat.pow 10 (-f.exponent).toNat
    let fraction := withoutFinalZeros (Text.padded (-f.exponent).toNat (f.digits % scale))
    Text.ofNat (f.digits / scale) ++ if fraction = [] then [] else '.' :: fraction

end Recurrence.Decimal
