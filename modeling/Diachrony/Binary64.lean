/-!
# Fractions in double precision

Rates and durations are computed with 53 significant bits, every step rounded to the nearest
number with that precision and a tie to the even one, and written with a fixed number of
decimal places.  Everything is done exactly on natural numbers; the numbers at hand are far
from the ends of the exponent range.
-/

namespace Diachrony

structure Fraction where
  numerator : Nat
  denominator : Nat
  deriving DecidableEq, Repr

namespace Fraction

/-- A quotient rounded to the nearest natural number, a tie to the even one. -/
def roundDiv (numerator denominator : Nat) : Nat :=
  let quotient := numerator / denominator
  let twice := 2 * (numerator % denominator)
  if twice < denominator then quotient
  else if twice > denominator then quotient + 1
  else quotient + quotient % 2

/-- The nearest number with 53 significant bits, a tie to the one with an even last bit. -/
def toDouble (value : Fraction) : Fraction :=
  if value.numerator = 0 then ⟨0, 1⟩
  else
    let shift : Int := 53 - ((value.numerator.log2 : Int) - (value.denominator.log2 : Int))
    let scaled (shift : Int) : Nat × Nat :=
      if shift ≥ 0 then (value.numerator * Nat.pow 2 shift.toNat, value.denominator)
      else (value.numerator, value.denominator * Nat.pow 2 (-shift).toNat)
    let (n, d) := scaled shift
    let shift := if n / d ≥ Nat.pow 2 53 then shift - 1 else shift
    let (n, d) := scaled shift
    let significand := roundDiv n d
    if shift ≥ 0 then ⟨significand, Nat.pow 2 shift.toNat⟩
    else ⟨significand * Nat.pow 2 (-shift).toNat, 1⟩

def addDouble (a b : Fraction) : Fraction :=
  toDouble ⟨a.numerator * b.denominator + b.numerator * a.denominator,
    a.denominator * b.denominator⟩

def mulDouble (a b : Fraction) : Fraction :=
  toDouble ⟨a.numerator * b.numerator, a.denominator * b.denominator⟩

/-- The decimal form with a fixed number of places, rounded to the nearest, a tie to the even
last digit. -/
def toFixed (places : Nat) (value : Fraction) : String :=
  let units := roundDiv (value.numerator * Nat.pow 10 places) value.denominator
  let digits := toString (units % Nat.pow 10 places)
  toString (units / Nat.pow 10 places) ++ "." ++
    String.ofList (List.replicate (places - digits.length) '0') ++ digits

end Fraction

end Diachrony
