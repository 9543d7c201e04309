import StrictJson.Packed.Scalar
import StrictJson.Packed.Word
import StrictJson.Utf8.Basic

/-!
# Writing Units

A **unit** is a tag byte and a payload of the shape that belongs to the tag: eight bytes for an
integer or a real, one for a boolean, none for null, four for the number of an error code, and for a
text four bytes of length and then the text itself.

A scalar is only written under its own tag. What is refused leaves a buffer as it was.

## Main definitions

* `Scalar.payload`, `unitBytes`: the bytes of a scalar.
* `pack`, `packInto`, `packValue`
-/

namespace StrictJson.Packed

/-- The reasons why something cannot be packed. -/
inductive PackFault where
  /-- An array or object was offered under a tag. -/
  | container (tag : Tag)
  /-- A scalar was offered under another tag than its own. -/
  | mismatch (found wanted : Tag)
  /-- Raw bytes are not well-formed UTF-8. -/
  | malformedText
  /-- A text is longer than its length field can say. -/
  | tooLong (length : Nat)
  /-- A value of this kind has no tag of its own. -/
  | noTag (kind : Kind)
  deriving DecidableEq, Repr

/-- Reports a failure to pack. -/
def PackFault.toError : PackFault → Error
  | container tag =>
    { code := .invalidArgument, detail := "arrays and objects cannot be packed as " ++ tag.name }
  | mismatch found wanted =>
    { code := .invalidArgument,
      detail := "cannot pack " ++ found.name ++ " value as " ++ wanted.name }
  | malformedText => { code := .invalidUtf8, detail := "string payload is not valid UTF-8" }
  | tooLong length =>
    { code := .invalidArgument,
      detail := "string of " ++ toString length ++ " bytes exceeds the 32-bit length field" }
  | noTag kind =>
    { code := .invalidArgument, detail := kind.name ++ " values have no binary form" }

/-- The payload of a text: its length and its bytes. The length has to fit four bytes. -/
def textPayload (raw : List UInt8) : Except PackFault (List UInt8) :=
  if raw.length < 0x100000000 then .ok (wordBytes 4 raw.length ++ raw)
  else .error (.tooLong raw.length)

/-- The payload of a scalar. -/
def Scalar.payload : Scalar → Except PackFault (List UInt8)
  | null => .ok []
  | boolean b => .ok [if b then 1 else 0]
  | integer n => .ok (wordBytes 8 n.toUInt64.toNat)
  | real x => .ok (wordBytes 8 x.bits.toNat)
  | text s => textPayload (Utf8.ofString s)
  | bytes raw => if Utf8.isValid raw then textPayload raw else .error .malformedText
  | error code => .ok (wordBytes 4 code.number)

/-- The **unit** of a scalar. -/
def Scalar.unitBytes (s : Scalar) : Except PackFault (List UInt8) :=
  match s.payload with
  | .ok payload => .ok (s.tag.byte :: payload)
  | .error e => .error e

/-- The unit of a source under a tag, which must be the one of its scalar. -/
def pack (tag : Tag) (source : Source) : Except PackFault (List UInt8) :=
  match source.scalar? with
  | none => .error (.container tag)
  | some s => if s.tag = tag then s.unitBytes else .error (.mismatch s.tag tag)

/-- A buffer with the unit of a source at its end. -/
def packInto (buffer : List UInt8) (tag : Tag) (source : Source) : Except PackFault (List UInt8) :=
  match pack tag source with
  | .ok unit => .ok (buffer ++ unit)
  | .error e => .error e

/-- The unit of a value under its own tag. -/
def packValue (v : Value) : Except PackFault (List UInt8) :=
  match Tag.ofKind? v.kind with
  | none => .error (.noTag v.kind)
  | some tag => pack tag (.value v)

end StrictJson.Packed
