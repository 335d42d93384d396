set_option autoImplicit false
set_option relaxedAutoImplicit false

/-!
Fractions rounded to binary numbers of 53 significant bits. All arithmetic is on natural numbers,
so the result is the nearest such number and not an approximation to it.
-/

namespace Recurrence.Decimal

/-- The number `mantissa * 2 ^ exponent`. -/
structure Binary where
  mantissa : Nat
  exponent : Int
  deriving DecidableEq, Repr

namespace Binary

/-- The least exponent, that of the numbers nearest to zero. -/
def leastExponent : Int := -1074

/-- The greatest exponent, that of the largest numbers. -/
def greatestExponent : Int := 971

/-- The least mantissa of a number that is not near zero. -/
def leastMantissa : Nat := Nat.pow 2 52

def zero : Binary := ⟨0, leastExponent⟩

/-- The integer nearest to a fraction, the even one of two that are equally near. -/
def roundQuotient (num den : Nat) : Nat :=
  let quotient := num / den
  let twice := 2 * (num % den)
  if twice < den then quotient
  else if den < twice then quotient + 1
  else if quotient % 2 = 0 then quotient
  else quotient + 1

/-- The fraction `num / den / 2 ^ exponent`. -/
def descale (num den : Nat) (exponent : Int) : Nat × Nat :=
  if 0 ≤ exponent then (num, den * Nat.pow 2 exponent.toNat)
  else (num * Nat.pow 2 (-exponent).toNat, den)

/-- The exponent at which a positive fraction has a mantissa of 53 bits, or the least one. -/
def exponentOf (num den : Nat) : Int :=
  let estimate := max leastExponent (num.log2 - den.log2 - 52)
  let (scaledNum, scaledDen) := descale num den estimate
  if scaledNum / scaledDen < leastMantissa ∧ leastExponent < estimate then estimate - 1
  else estimate

/-- The binary number nearest to a positive fraction; none if it exceeds the largest one. -/
def nearest? (num den : Nat) : Option Binary :=
  let exponent := exponentOf num den
  let (scaledNum, scaledDen) := descale num den exponent
  let mantissa := roundQuotient scaledNum scaledDen
  let result : Binary :=
    if mantissa = 2 * leastMantissa then ⟨leastMantissa, exponent + 1⟩ else ⟨mantissa, exponent⟩
  if result.exponent ≤ greatestExponent then some result else none

/-- The integer nearest to a binary number, the larger one of two that are equally near. -/
def nearestNat (b : Binary) : Nat :=
  if 0 ≤ b.exponent then b.mantissa * Nat.pow 2 b.exponent.toNat
  else (2 * b.mantissa + Nat.pow 2 (-b.exponent).toNat) / Nat.pow 2 ((-b.exponent).toNat + 1)

end Binary

end Recurrence.Decimal
