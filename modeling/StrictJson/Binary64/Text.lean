import StrictJson.Binary64.Shortest

/-!
# The Text of a Real

How the shortest digits of a number are laid out. Numbers of ordinary size are written in full with
at least one digit after the point. The others have one digit, a fraction if there are more, and
the power of ten after an `e`. Two styles are in use: they differ in the smallest number written in
full, in the sign of a positive power, and in the choice between two digits that are equally near.

A number without a JSON form, an infinity or a not-a-number, is written as the word `null`.

## Main definitions

* `RealStyle`, `RealStyle.compact`, `RealStyle.interchange`
* `Binary64.text`
-/

namespace StrictJson

/-- A **style** for reals. -/
structure RealStyle where
  /-- The least power of ten of the leading digit for which a number is written in full. -/
  leastPlain : Int
  /-- Whether a positive power of ten has a plus sign. -/
  plusSign : Bool
  /-- The choice between equally near digits. -/
  tie : Tie
  deriving DecidableEq, Repr

namespace RealStyle

/-- The style of compact text: in full from 0.0001 on, powers without a plus sign, ties upwards. -/
def compact : RealStyle := ⟨-4, false, .up⟩

/-- The style of the interchange writer: in full from 0.00001 on, powers always with their sign,
ties to the even digit. -/
def interchange : RealStyle := ⟨-5, true, .even⟩

end RealStyle

namespace Decimal

/-- The digits of a number written out. -/
def digitText (d : Decimal) : List Char :=
  Nat.toDigits 10 d.digits

/-- The power of ten of the leading digit. -/
def leadingExponent (d : Decimal) : Int :=
  d.exponent + d.digitText.length - 1

/-- A number written in full, with a point and at least one digit on each side of it. -/
def plainText (d : Decimal) : List Char :=
  let ds := d.digitText
  let k := d.leadingExponent
  if 0 ≤ d.exponent then ds ++ List.replicate d.exponent.toNat '0' ++ ['.', '0']
  else if 0 ≤ k then ds.take (k.toNat + 1) ++ '.' :: ds.drop (k.toNat + 1)
  else ['0', '.'] ++ List.replicate (k.natAbs - 1) '0' ++ ds

/-- A number written with a power of ten. -/
def scientificText (plusSign : Bool) (d : Decimal) : List Char :=
  let ds := d.digitText
  let k := d.leadingExponent
  let fraction := ds.drop 1
  ds.take 1 ++ (if fraction.isEmpty then [] else '.' :: fraction) ++ ['e'] ++
    (if k < 0 then ['-'] else if plusSign then ['+'] else []) ++ Nat.toDigits 10 k.natAbs

/-- A decimal number in the layout of a style. The greatest number written in full is below ten to
the power 16. -/
def text (style : RealStyle) (d : Decimal) : List Char :=
  if style.leastPlain ≤ d.leadingExponent ∧ d.leadingExponent < 16 then d.plainText
  else d.scientificText style.plusSign

end Decimal

namespace Binary64

/-- The text of a real in a style. -/
def text (style : RealStyle) (x : Binary64) : List Char :=
  if !x.isFinite then ['n', 'u', 'l', 'l']
  else
    (if x.isNegative then ['-'] else []) ++
      if x.isZero then ['0', '.', '0']
      else (Decimal.shortest style.tie x.magnitude).text style

end Binary64

end StrictJson
