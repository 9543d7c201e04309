import StrictJson.Error
import StrictJson.Hex.Basic
import StrictJson.Text.Quoted

/-!
# Faults of a Document

Everything that can be wrong with a document, as causes. A `Failure` adds the byte where the fault
was noticed. What a fault is called, and under which code it is reported, is settled here and
nowhere else.

## Main definitions

* `Expectation`, `Fault`, `Failure`
* `Fault.code`, `Fault.text`, `Failure.toError`
-/

namespace StrictJson.Syntax

/-- What the grammar wants at a place where something else stands. -/
inductive Expectation where
  | value
  | key
  | colon
  | objectEnd
  | arrayEnd
  deriving DecidableEq, Repr

/-- The wording of an expectation. -/
def Expectation.text : Expectation → String
  | value => "a JSON value"
  | key => "a string key"
  | colon => "':' after object key"
  | objectEnd => "',' or '\x7d' in object"
  | arrayEnd => "',' or ']' in array"

/-- Whether a string is the key of a member or a value. -/
inductive Role where
  | key
  | value
  deriving DecidableEq, Repr

/-- A **fault** of a document. -/
inductive Fault where
  /-- Another byte, or none, stands where the grammar wants something. -/
  | unexpected (wanted : Expectation) (found : Option UInt8)
  /-- A byte other than white space follows the value of the document. -/
  | trailing (found : UInt8)
  /-- A container opens inside as many containers as are allowed. -/
  | tooDeep (limit : Nat)
  /-- A key is repeated where keys must be distinct. -/
  | duplicateKey (key : String)
  /-- A run of letters is none of the three words. -/
  | unknownWord (word : List UInt8)
  /-- The input ends inside a string. -/
  | unterminatedString
  /-- A control character stands unescaped in a string. -/
  | controlCharacter (found : UInt8)
  /-- The bytes of a string are not well-formed UTF-8. -/
  | malformedText
  /-- A backslash is followed by no known escape. -/
  | unknownEscape (found : UInt8)
  /-- The input ends inside the four digits of an escape. -/
  | truncatedEscape
  /-- One of the four digits of an escape is no digit. -/
  | badHexDigit (found : UInt8)
  /-- The first half of a surrogate pair is followed by no second escape. -/
  | unpairedHigh (unit : Nat)
  /-- The first half of a surrogate pair is followed by an escape that is no second half. -/
  | mismatchedLow (high low : Nat)
  /-- The second half of a surrogate pair comes first. -/
  | unpairedLow (unit : Nat)
  /-- The character of number zero is spelled where it is not allowed. -/
  | nul (role : Role)
  /-- A number starts with a zero and goes on with a digit. -/
  | leadingZero
  /-- A number has no digit. -/
  | missingDigit
  /-- A number has no digit after its point. -/
  | missingFraction
  /-- A number has no digit in its exponent. -/
  | missingExponent
  /-- A number is too large for a real. -/
  | unrepresentable (numeral : List UInt8)
  deriving DecidableEq, Repr

/-- A byte as a message shows it: the character itself if it is visible and ASCII, or its number. -/
def describe (b : UInt8) : String :=
  if 0x21 ≤ b ∧ b ≤ 0x7e then String.ofList ['\'', Char.ofNat b.toNat, '\'']
  else "byte " ++ Hex.byteName b

/-- Bytes that are known to be ASCII, as a text. -/
def asciiText (bytes : List UInt8) : String :=
  String.ofList (bytes.map fun b => Char.ofNat b.toNat)

/-- An escape of four digits as it is shown in messages. -/
def escapeText (unit : Nat) : String :=
  "\\u" ++ String.ofList (Hex.upperPadded 4 unit)

namespace Fault

/-- The code under which a fault is reported. -/
def code : Fault → ErrorCode
  | unexpected _ none => .prematureEndOfInput
  | unexpected _ (some _) => .invalidSyntax
  | trailing _ => .endOfInputExpected
  | tooDeep _ => .stackOverflow
  | duplicateKey _ => .duplicateKey
  | unknownWord _ | unterminatedString | controlCharacter _ | unknownEscape _ | truncatedEscape
  | badHexDigit _ => .invalidSyntax
  | malformedText | unpairedHigh _ | mismatchedLow _ _ | unpairedLow _ => .invalidUtf8
  | nul .key => .nullByteInKey
  | nul .value => .nullCharacter
  | leadingZero | missingDigit | missingFraction | missingExponent => .invalidNumber
  | unrepresentable _ => .numericOverflow

/-- The sentence that describes a fault. -/
def text : Fault → String
  | unexpected wanted none => "expected " ++ wanted.text ++ ", found end of input"
  | unexpected wanted (some b) => "expected " ++ wanted.text ++ ", found " ++ describe b
  | trailing b => "unexpected " ++ describe b ++ " after JSON value"
  | tooDeep limit => "nesting deeper than " ++ toString limit ++ " levels"
  | duplicateKey key => "duplicate key " ++ Text.quoted key
  | unknownWord word => "invalid literal '" ++ asciiText word ++ "'"
  | unterminatedString => "unterminated string"
  | controlCharacter b => "unescaped control character " ++ Hex.byteName b ++ " in string"
  | malformedText => "invalid UTF-8 sequence in string"
  | unknownEscape b => "invalid escape sequence: backslash followed by " ++ describe b
  | truncatedEscape => "truncated \\u escape"
  | badHexDigit b => "invalid hex digit " ++ describe b ++ " in \\u escape"
  | unpairedHigh unit => "unpaired high surrogate " ++ escapeText unit
  | mismatchedLow high low =>
    "high surrogate " ++ escapeText high ++ " followed by " ++ escapeText low
  | unpairedLow unit => "unpaired low surrogate " ++ escapeText unit
  | nul _ => "\\u0000 is not allowed"
  | leadingZero => "leading zeros are not allowed"
  | missingDigit => "expected digit"
  | missingFraction => "expected digit after decimal point"
  | missingExponent => "expected digit in exponent"
  | unrepresentable numeral => "cannot represent number " ++ asciiText numeral

end Fault

/-- A fault and the byte of the input where it was noticed. -/
structure Failure where
  fault : Fault
  offset : Nat
  deriving DecidableEq, Repr

/-- Reports a failure. -/
def Failure.toError (f : Failure) : Error :=
  .atByte f.fault.code f.offset f.fault.text

end StrictJson.Syntax
