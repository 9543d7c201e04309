/-!
# Binary Numbers of 64 Bits

The reals of a document are the numbers of the IEEE 754 format binary64. A `Binary64` is its bit
pattern and nothing else, so the sign of zero and the payload of a not-a-number are kept, and every
operation below is exact arithmetic on natural numbers.

The **magnitude** of a number is its pattern without the sign. Magnitudes of finite numbers are
ordered as the numbers are, and every finite number is a whole multiple of the smallest positive
one, which is 2 to the power -1074: `units` is that multiple.

## Main definitions

* `Binary64`, `Binary64.magnitude`, `Binary64.isNegative`, `Binary64.ofParts`
* `Binary64.isFinite`, `Binary64.isNaN`, `Binary64.isZero`
* `Binary64.equal`: equality of numbers, as opposed to that of patterns.
* `Binary64.units`: the exact value.
-/

namespace StrictJson

/-- A **binary64** number, given by its bit pattern. -/
structure Binary64 where
  bits : UInt64
  deriving DecidableEq, Repr, Inhabited

namespace Binary64

/-! ### The parts of a pattern -/

/-- The magnitude of infinity. Those of the finite numbers are less. -/
def infinity : Nat := 0x7ff0000000000000

/-- The sign of a pattern. -/
def signBit : Nat := 0x8000000000000000

/-- The number of magnitudes in a binade: of the patterns that share an exponent. -/
def binade : Nat := 0x10000000000000

/-- The pattern without its sign. -/
def magnitude (x : Binary64) : Nat :=
  x.bits.toNat % signBit

/-- Whether the sign is set. -/
def isNegative (x : Binary64) : Bool :=
  signBit ≤ x.bits.toNat

/-- The number with the given sign and magnitude. -/
def ofParts (negative : Bool) (magnitude : Nat) : Binary64 :=
  ⟨UInt64.ofNat (magnitude + if negative then signBit else 0)⟩

/-- Whether the number is neither an infinity nor a not-a-number. -/
def isFinite (x : Binary64) : Bool :=
  x.magnitude < infinity

/-- Whether the pattern stands for no number. -/
def isNaN (x : Binary64) : Bool :=
  infinity < x.magnitude

/-- Whether the number is one of the two zeros. -/
def isZero (x : Binary64) : Bool :=
  x.magnitude == 0

/-- Equality of numbers: the two zeros are equal, and a not-a-number equals nothing. -/
def equal (x y : Binary64) : Bool :=
  !x.isNaN && !y.isNaN && (x.bits == y.bits || x.isZero && y.isZero)

/-! ### The exact value -/

/-- The value of a finite magnitude as a multiple of 2 to the power -1074. The upper eleven bits
choose the binade; in all but the lowest the leading bit of the significand is implied. -/
def units (magnitude : Nat) : Nat :=
  let exponent := magnitude / binade
  let fraction := magnitude % binade
  if exponent = 0 then fraction else (binade + fraction) * Nat.pow 2 (exponent - 1)

end Binary64

end StrictJson
