import StrictJson.Machine.Utf8
import StrictJson.Packed.Target

/-!
# Units in a Buffer

Reading units from a buffer, with a position that is moved on by hand: by the lengths of the pieces
of a unit, one of which the unit declares itself.

## Main definitions

* `take`: the bytes of a piece, and the position past it.
* `readUnit`: the scalar at a position, and the position past it.
* `unpack`: one unit at a position, which moves on past it.
* `unpackAll`: the units of a whole buffer.
-/

namespace StrictJson.Machine

open Packed (Piece Scalar Tag Target UnpackFault)

/-- **Reading** returns something, or is refused, unless it ends in a trap. -/
abbrev Reading := ExceptT UnpackFault Run

/-! ### Pieces -/

/-- The bytes of a piece at a position, and the position past it. -/
def take (b : Buffer) (position : UInt64) (piece : Piece) (needed : UInt64) :
    Reading (Buffer × UInt64) := do
  let left := saturatingSub b.size position
  if left < needed then throw (.missing piece needed.toNat left.toNat position.toNat)
  else
    let next ← add position needed
    return (← b.slice position next, next)

/-- The single byte of a piece at a position. -/
def takeByte (b : Buffer) (position : UInt64) (piece : Piece) : Reading (UInt8 × UInt64) := do
  let (bytes, next) ← take b position piece 1
  return (← bytes.get 0, next)

/-- The number that a piece at a position spells, whose bytes are copied to a place of its width. -/
def takeWord (b : Buffer) (position : UInt64) (piece : Piece) (width : UInt64) :
    Reading (Nat × UInt64) := do
  let (bytes, next) ← take b position piece width
  if bytes.size = width then return (Packed.wordValue bytes.bytes, next)
  else throwThe Trap .sizeMismatch

/-! ### Payloads -/

/-- Reads the payload of a string: its length, and then as many bytes of text. -/
def readText (b : Buffer) (position : UInt64) : Reading (Scalar × UInt64) := do
  let (length, payload) ← takeWord b position .stringLength 4
  let (raw, next) ← take b payload .stringPayload (UInt32.ofNat length).toUInt64
  if ← isValid raw then
    match Utf8.decode? raw.bytes with
    | some chars => return (.text (String.ofList chars), next)
    | none => throw (.malformedText payload.toNat)
  else throw (.malformedText payload.toNat)

/-- Reads the payload that belongs to a tag. -/
def readPayload (b : Buffer) (position : UInt64) : Tag → Reading (Scalar × UInt64)
  | .null => return (.null, position)
  | .integer => do
    let (n, next) ← takeWord b position .integer 8
    return (.integer (UInt64.ofNat n).toInt64, next)
  | .real => do
    let (n, next) ← takeWord b position .real 8
    return (.real ⟨UInt64.ofNat n⟩, next)
  | .boolean => do
    let (byte, next) ← takeByte b position .boolean
    if byte = 0 then return (.boolean false, next)
    else if byte = 1 then return (.boolean true, next)
    else throw (.badBoolean byte position.toNat)
  | .string => readText b position
  | .error => do
    let (n, next) ← takeWord b position .errorCode 4
    match ErrorCode.ofNumber? n with
    | some code => return (.error code, next)
    | none => throw (.badErrorCode n position.toNat)

/-! ### Units -/

/-- Reads the unit at a position: its scalar, and the position just past it. -/
def readUnit (b : Buffer) (start : UInt64) : Reading (Scalar × UInt64) := do
  let (byte, position) ← takeByte b start .typeTag
  match Tag.ofByte? byte with
  | some tag => readPayload b position tag
  | none => throw (.unknownTag byte start.toNat)

/-- Reads the unit at a position for a target, and moves the position past it. On failure the
position stays. -/
def unpack (target : Target) (b : Buffer) (position : UInt64) :
    Run (Except UnpackFault target.Carrier × UInt64) := do
  match ← (readUnit b position).run with
  | .error e => return (.error e, position)
  | .ok (s, next) =>
    match target.ofScalar s with
    | .error e => return (.error e, position)
    | .ok x => return (.ok x, next)

/-- Reads the units of a whole buffer. -/
def unpackAll (target : Target) (b : Buffer) : Run (Except UnpackFault (List target.Carrier)) :=
  b.readAll (unpack target b) fun x => [x]

end StrictJson.Machine
