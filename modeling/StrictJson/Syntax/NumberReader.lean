import StrictJson.Syntax.Numeral

/-!
# Readers of Number Texts

What the standard readers of integers and of reals make of a whole text. They are more lenient than
the grammar of documents: a plus sign and leading zeros are as good as none, digits may be missing
on one side of the point, and a real may be one of the words for what is not finite.

## Main definitions

* `integerOfText?`: the 64-bit integer that a text spells.
* `realOfText?`: the real nearest to what a text spells.
-/

namespace StrictJson.Syntax

/-- The 64-bit integer that a text spells: an optional sign and digits, within the range. -/
def integerOfText? (text : List UInt8) : Option Int64 :=
  let (sign, digits) := Numeral.scanSign text
  let n : Int := if sign = some 0x2d then -(digitsValue digits : Int) else digitsValue digits
  if digits ≠ [] ∧ digits.all isDigit ∧ -0x8000000000000000 ≤ n ∧ n < 0x8000000000000000 then
    some (Int64.ofInt n)
  else none

/-- The magnitude that a word stands for, in letters of either case. -/
def wordMagnitude? (word : List UInt8) : Option Nat :=
  let letters := word.map fun b => if 0x41 ≤ b ∧ b ≤ 0x5a then b + 0x20 else b
  if letters = [0x69, 0x6e, 0x66] then some Binary64.infinity
  else if letters = [0x69, 0x6e, 0x66, 0x69, 0x6e, 0x69, 0x74, 0x79] then some Binary64.infinity
  else if letters = [0x6e, 0x61, 0x6e] then some 0x7ff8000000000000
  else none

/-- Reads a point and the digits after it, if there is a point. There may be no digits. -/
def looseFraction : List UInt8 → Option (List UInt8) × List UInt8
  | 0x2e :: rest => (some (rest.takeWhile isDigit), rest.dropWhile isDigit)
  | bytes => (none, bytes)

/-- The parts of a text without a sign, which must be a number to its end. Of the digits before and
after the point one side may be missing. -/
def looseNumeral? (negative : Bool) (bytes : List UInt8) : Option Numeral :=
  let whole := bytes.takeWhile isDigit
  let (fraction, afterFraction) := looseFraction (bytes.dropWhile isDigit)
  if whole = [] ∧ fraction.getD [] = [] then none
  else
    match Numeral.scanExponent afterFraction with
    | .ok (exponent, []) => some ⟨negative, whole, fraction, exponent⟩
    | _ => none

/-- The real nearest to what a text spells. A number that is too large becomes infinite. -/
def realOfText? (text : List UInt8) : Option Binary64 :=
  let (sign, unsigned) := Numeral.scanSign text
  let negative : Bool := sign = some 0x2d
  match wordMagnitude? unsigned with
  | some magnitude => some (.ofParts negative magnitude)
  | none =>
    match looseNumeral? negative unsigned with
    | some n => some (.ofParts negative n.decimal.nearest)
    | none => none

end StrictJson.Syntax
