import StrictJson.Binary64.Basic

/-!
# The Nearest Binary Number

Rounding of an exact quotient, of a decimal number and of an integer to the nearest binary64
number. A value half way between two neighbours goes to the one with the even pattern. A value
whose rounding would need an exponent past the last one becomes infinite.

All quantities are natural numbers. Rounding finds the binade from the whole part of the value in
units of 2 to the power -1074, divides by the spacing of that binade, and reads the pattern off the
rounded quotient: a carry into the next power of two is a carry into the exponent, so it needs no
case of its own.

## Main definitions

* `divNearest`: a quotient rounded to a whole number.
* `Binary64.nearest`: the magnitude nearest to a quotient.
* `Decimal`, `Decimal.nearest`: a decimal number and the magnitude nearest to it.
* `Binary64.ofInt`
-/

namespace StrictJson

/-- The whole number nearest to `num / den`, the even one of two that are equally near. -/
def divNearest (num den : Nat) : Nat :=
  let quotient := num / den
  let rest := num % den
  if 2 * rest < den ∨ (2 * rest = den ∧ quotient % 2 = 0) then quotient else quotient + 1

namespace Binary64

/-- The magnitude nearest to `num / den`. -/
def nearest (num den : Nat) : Nat :=
  let scaled := num * Nat.pow 2 1074
  let shift := (scaled / den).log2 - 52
  min (shift * binade + divNearest scaled (den * Nat.pow 2 shift)) infinity

/-- The number nearest to an integer. -/
def ofInt (n : Int) : Binary64 :=
  ofParts (n < 0) (nearest n.natAbs 1)

end Binary64

/-- A **decimal number** without a sign: `digits` times ten to the power `exponent`. -/
structure Decimal where
  digits : Nat
  exponent : Int
  deriving DecidableEq, Repr

namespace Decimal

/-- The magnitude of the binary64 number nearest to a decimal number. Exponents that lead past the
largest number or below half of the smallest one are settled before any power of ten is taken. -/
def nearest (d : Decimal) : Nat :=
  let scale := d.exponent.natAbs
  if d.digits = 0 then 0
  else if 0 ≤ d.exponent then
    if 342 ≤ scale then Binary64.infinity else Binary64.nearest (d.digits * Nat.pow 10 scale) 1
  else if d.digits.log2 + 1077 ≤ 3 * scale then 0
  else Binary64.nearest d.digits (Nat.pow 10 scale)

end Decimal

end StrictJson
