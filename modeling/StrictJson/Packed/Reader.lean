import StrictJson.Packed.Scalar
import StrictJson.Packed.Word
import StrictJson.Utf8.Basic

/-!
# Reading Units

Units are read from a buffer at a position, which may be any number, also far past the end. Every
piece of a unit is asked for before it is looked at, so bytes that are missing are noticed before
anything that is wrong with those that are there.

## Main definitions

* `UnpackFault`: why no unit, or not the wanted one, was read.
* `readUnit`: the scalar at a position and the position past it.

## Main results

* `readUnit_progress`: a unit is not empty and lies within the buffer.
-/

namespace StrictJson.Packed

/-- The pieces of which units are made. -/
inductive Piece where
  | typeTag
  | integer
  | real
  | boolean
  | stringLength
  | stringPayload
  | errorCode
  deriving DecidableEq, Repr

/-- The name of a piece in messages. -/
def Piece.name : Piece → String
  | typeTag => "type tag"
  | integer => "integer"
  | real => "real"
  | boolean => "boolean"
  | stringLength => "string length"
  | stringPayload => "string payload"
  | errorCode => "error code"

/-- The reasons why nothing was unpacked. -/
inductive UnpackFault where
  /-- The buffer ends before a piece does. -/
  | missing (piece : Piece) (needed left position : Nat)
  /-- The first byte of a unit is no tag. -/
  | unknownTag (found : UInt8) (position : Nat)
  /-- The payload of a boolean is neither 0 nor 1. -/
  | badBoolean (found : UInt8) (position : Nat)
  /-- The payload of a string is not well-formed UTF-8. -/
  | malformedText (position : Nat)
  /-- The payload of an error unit is not the number of a code. -/
  | badErrorCode (number position : Nat)
  /-- The unit has another tag than the one that was wanted. -/
  | wrongUnit (wanted found : Tag)
  /-- Raw bytes that were to be taken for a string are not well-formed UTF-8. -/
  | malformedBytes
  /-- An error unit stands where a value was wanted, and fails with the code that it carries. -/
  | carried (code : ErrorCode)
  deriving DecidableEq, Repr

/-- Reports a failure to unpack. -/
def UnpackFault.toError : UnpackFault → Error
  | missing piece needed left position =>
    .atByte .prematureEndOfInput position
      (piece.name ++ " needs " ++ toString needed ++ " bytes, " ++ toString left ++ " left")
  | unknownTag found position =>
    .atByte .unknown position ("unknown type tag " ++ Hex.byteName found)
  | badBoolean found position =>
    .atByte .invalidFormat position
      ("boolean payload " ++ Hex.byteName found ++ " is neither 0 nor 1")
  | malformedText position =>
    .atByte .invalidUtf8 position "string payload is not valid UTF-8"
  | badErrorCode number position =>
    .atByte .invalidFormat position (toString number ++ " is not an error code")
  | wrongUnit wanted found =>
    { code := .wrongType,
      detail := "expected " ++ wanted.name ++ " unit, found " ++ found.name }
  | malformedBytes => { code := .invalidUtf8, detail := "string payload is not valid UTF-8" }
  | carried code => { code, detail := "unpacked an error unit" }

/-! ### Pieces -/

/-- The bytes of a piece at a position. -/
def take (buffer : List UInt8) (position : Nat) (piece : Piece) (needed : Nat) :
    Except UnpackFault (List UInt8) :=
  let left := buffer.length - position
  if left < needed then .error (.missing piece needed left position)
  else .ok ((buffer.drop position).take needed)

/-- The single byte of a piece at a position. -/
def takeByte (buffer : List UInt8) (position : Nat) (piece : Piece) : Except UnpackFault UInt8 :=
  match buffer[position]? with
  | some b => .ok b
  | none => .error (.missing piece 1 0 position)

/-- The number that a piece at a position spells. -/
def takeWord (buffer : List UInt8) (position : Nat) (piece : Piece) (width : Nat) :
    Except UnpackFault Nat :=
  (take buffer position piece width).map wordValue

theorem take_length {buffer bytes : List UInt8} {position needed : Nat} {piece : Piece}
    (h : take buffer position piece needed = .ok bytes) :
    needed = 0 ∨ position + needed ≤ buffer.length := by
  simp only [take] at h
  split at h
  · simp at h
  · omega

theorem takeByte_length {buffer : List UInt8} {position : Nat} {piece : Piece} {b : UInt8}
    (h : takeByte buffer position piece = .ok b) : position + 1 ≤ buffer.length := by
  unfold takeByte at h
  split at h
  · next b' hb => exact (List.getElem?_eq_some_iff.1 hb).1
  · simp at h

theorem takeWord_length {buffer : List UInt8} {position width n : Nat} {piece : Piece}
    (h : takeWord buffer position piece width = .ok n) :
    width = 0 ∨ position + width ≤ buffer.length := by
  unfold takeWord at h
  cases ht : take buffer position piece width with
  | error e => simp [ht, Except.map] at h
  | ok bytes => exact take_length ht

/-! ### Payloads -/

/-- Reads the payload of a string: its length, and then as many bytes of text. -/
def readText (buffer : List UInt8) (position : Nat) : Except UnpackFault (Scalar × Nat) :=
  match takeWord buffer position .stringLength 4 with
  | .error e => .error e
  | .ok length =>
    match take buffer (position + 4) .stringPayload length with
    | .error e => .error e
    | .ok raw =>
      match Utf8.decode? raw with
      | some chars => .ok (.text (String.ofList chars), position + 4 + length)
      | none => .error (.malformedText (position + 4))

/-- Reads the payload that belongs to a tag. -/
def readPayload (buffer : List UInt8) (position : Nat) :
    Tag → Except UnpackFault (Scalar × Nat)
  | .null => .ok (.null, position)
  | .integer =>
    match takeWord buffer position .integer 8 with
    | .ok n => .ok (.integer (UInt64.ofNat n).toInt64, position + 8)
    | .error e => .error e
  | .real =>
    match takeWord buffer position .real 8 with
    | .ok n => .ok (.real ⟨UInt64.ofNat n⟩, position + 8)
    | .error e => .error e
  | .boolean =>
    match takeByte buffer position .boolean with
    | .ok b =>
      if b = 0 then .ok (.boolean false, position + 1)
      else if b = 1 then .ok (.boolean true, position + 1)
      else .error (.badBoolean b position)
    | .error e => .error e
  | .string => readText buffer position
  | .error =>
    match takeWord buffer position .errorCode 4 with
    | .ok n =>
      match ErrorCode.ofNumber? n with
      | some code => .ok (.error code, position + 4)
      | none => .error (.badErrorCode n position)
    | .error e => .error e

/-- Reads the unit at a position: its scalar, and the position just past it. -/
def readUnit (buffer : List UInt8) (position : Nat) : Except UnpackFault (Scalar × Nat) :=
  match takeByte buffer position .typeTag with
  | .error e => .error e
  | .ok b =>
    match Tag.ofByte? b with
    | some tag => readPayload buffer (position + 1) tag
    | none => .error (.unknownTag b position)

/-! ### Progress -/

theorem readText_progress {buffer : List UInt8} {position next : Nat} {s : Scalar}
    (h : readText buffer position = .ok (s, next)) :
    position ≤ next ∧ next ≤ buffer.length := by
  unfold readText at h
  split at h
  · simp at h
  · next length hl =>
    have h1 := takeWord_length hl
    split at h
    · simp at h
    · next raw hr =>
      have h2 := take_length hr
      split at h
      · simp only [Except.ok.injEq, Prod.mk.injEq] at h
        omega
      · simp at h

theorem readPayload_progress {buffer : List UInt8} {position next : Nat} {tag : Tag} {s : Scalar}
    (hp : position ≤ buffer.length) (h : readPayload buffer position tag = .ok (s, next)) :
    position ≤ next ∧ next ≤ buffer.length := by
  cases tag with
  | null =>
    simp only [readPayload, Except.ok.injEq, Prod.mk.injEq] at h
    omega
  | string => exact readText_progress h
  | boolean =>
    simp only [readPayload] at h
    split at h
    · next b hb =>
      have := takeByte_length hb
      repeat' split at h
      all_goals simp only [Except.ok.injEq, Prod.mk.injEq, reduceCtorEq] at h
      all_goals omega
    · simp at h
  | integer | real =>
    simp only [readPayload] at h
    split at h
    · next n hn =>
      have := takeWord_length hn
      simp only [Except.ok.injEq, Prod.mk.injEq] at h
      omega
    · simp at h
  | error =>
    simp only [readPayload] at h
    split at h
    · next n hn =>
      have := takeWord_length hn
      split at h
      · simp only [Except.ok.injEq, Prod.mk.injEq] at h
        omega
      · simp at h
    · simp at h

/-- A unit is not empty and lies within the buffer. -/
theorem readUnit_progress {buffer : List UInt8} {position next : Nat} {s : Scalar}
    (h : readUnit buffer position = .ok (s, next)) :
    position < next ∧ next ≤ buffer.length := by
  unfold readUnit at h
  split at h
  · simp at h
  · next b hb =>
    have h1 := takeByte_length hb
    split at h
    · have := readPayload_progress h1 h
      omega
    · simp at h

end StrictJson.Packed
