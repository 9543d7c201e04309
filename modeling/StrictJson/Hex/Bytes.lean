import StrictJson.Hex.Basic
import StrictJson.Text.Quoted

/-!
# Bytes in Hexadecimal

Rows of bytes as two digits each, which is how packed units are shown and entered.

## Main definitions

* `Hex.encode`, `Hex.decode`
* `Hex.Fault`, `Hex.Fault.text`: why a text is no row of bytes.
-/

namespace StrictJson.Hex

/-- Two digits for each byte. -/
def encode (bytes : List UInt8) : List Char :=
  bytes.flatMap fun b => [Nat.digitChar (b.toNat / 16), Nat.digitChar (b.toNat % 16)]

/-- The reasons why a text is not a row of bytes in hexadecimal. -/
inductive Fault where
  /-- The number of digits is odd. -/
  | oddLength
  /-- The byte at this position is no digit. -/
  | badDigit (byte : UInt8) (position : Nat)
  deriving DecidableEq, Repr

/-- The sentence that reports a fault. A byte is shown as the character of its number. -/
def Fault.text : Fault → String
  | oddLength => "Odd number of digits"
  | badDigit byte position =>
    "Invalid character " ++ Text.quotedSingle (Char.ofNat byte.toNat) ++ " at position " ++
      toString position

/-- Reads pairs of digits, the first of which stands at `position`. A digit left over at the end
counts as an odd length. -/
def decodePairs (position : Nat) : List UInt8 → Except Fault (List UInt8)
  | [] => .ok []
  | [_] => .error .oddLength
  | high :: low :: rest =>
    match digitValue? high, digitValue? low with
    | none, _ => .error (.badDigit high position)
    | some _, none => .error (.badDigit low (position + 1))
    | some h, some l =>
      match decodePairs (position + 2) rest with
      | .ok bytes => .ok (UInt8.ofNat (16 * h + l) :: bytes)
      | .error fault => .error fault

/-- The bytes that a text of hexadecimal digits stands for. An odd length is noticed before any
digit is looked at. -/
def decode (text : List UInt8) : Except Fault (List UInt8) :=
  if text.length % 2 = 1 then .error .oddLength else decodePairs 0 text

end StrictJson.Hex
