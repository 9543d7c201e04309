/-!
# Hexadecimal Digits

Numbers in base sixteen, as messages and escapes show them. Digits are written in lower case unless
a name says otherwise and are read in either case.

## Main definitions

* `Hex.digits`, `Hex.padded`, `Hex.upperPadded`: the text of a number.
* `Hex.digitValue?`: the value of one digit.
-/

namespace StrictJson.Hex

/-! ### Numbers -/

/-- The digits of a number without leading zeros. -/
def digits (n : Nat) : List Char :=
  Nat.toDigits 16 n

/-- The digits of a number, filled up with leading zeros to the given width. -/
def padded (width n : Nat) : List Char :=
  List.replicate (width - (digits n).length) '0' ++ digits n

/-- As `padded`, in upper case. -/
def upperPadded (width n : Nat) : List Char :=
  (padded width n).map Char.toUpper

/-- A byte as it is named in messages: `0x` and two digits. -/
def byteName (b : UInt8) : String :=
  "0x" ++ String.ofList (padded 2 b.toNat)

/-! ### Digits of a text -/

/-- The value of a character that is a hexadecimal digit, given as a byte. -/
def digitValue? (b : UInt8) : Option Nat :=
  if 0x30 ≤ b ∧ b ≤ 0x39 then some (b.toNat - 0x30)
  else if 0x61 ≤ b ∧ b ≤ 0x66 then some (b.toNat - 0x61 + 10)
  else if 0x41 ≤ b ∧ b ≤ 0x46 then some (b.toNat - 0x41 + 10)
  else none

end StrictJson.Hex
