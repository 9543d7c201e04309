import StrictJson.Machine.Buffer
import StrictJson.Utf8.Basic

/-!
# UTF-8 in a Buffer

Decoding and checking over a buffer, with an index that is moved on by hand and a code point that is
put together in a word of 32 bits.

## Main definitions

* `decodeAt`: the code point at an index and the length of its sequence.
* `decode`: the character at an index, which moves on past it.
* `isValid`: whether a walk through a buffer comes to its end.
-/

namespace StrictJson.Machine

/-- The part of a code point that the lead byte of a sequence of the given length carries. -/
def leadWord (length : UInt64) (lead : UInt8) : UInt32 :=
  if length = 1 then lead.toUInt32
  else if length = 2 then (lead &&& 0x1f).toUInt32
  else if length = 3 then (lead &&& 0x0f).toUInt32
  else (lead &&& 0x07).toUInt32

/-- Puts the six bits of a trail byte behind those that there are. -/
def shiftIn (n : UInt32) (b : UInt8) : UInt32 :=
  n <<< 6 ||| (b &&& 0x3f).toUInt32

/-- The least code point that needs a sequence of the given length. -/
def leastWord (length : UInt64) : UInt32 :=
  if length = 1 then 0
  else if length = 2 then 0x80
  else if length = 3 then 0x800
  else 0x10000

/-- The code point that a lead byte and its trail bytes spell, if they are well-formed. -/
def spelled? (length : UInt64) (lead : UInt8) (trail : List UInt8) : Option UInt32 :=
  if trail.all Utf8.isTrail then
    let n := trail.foldl shiftIn (leadWord length lead)
    if n < leastWord length ∨ 0x10ffff < n ∨ 0xd800 ≤ n ∧ n ≤ 0xdfff then none else some n
  else none

/-- The code point whose sequence starts at an index, and the length of the sequence. -/
def decodeAt (b : Buffer) (start : UInt64) : Run (Option (UInt32 × UInt64)) := do
  match b.get? start with
  | none => return none
  | some lead =>
    match Utf8.sequenceLength? lead with
    | none => return none
    | some length =>
      let length := UInt64.ofNat length
      match b.range? start (← add start length) with
      | none => return none
      | some sequence =>
        let trail ← sequence.slice 1 sequence.size
        return (spelled? length lead trail.bytes).map (·, length)

/-- The character with the given code point, if it is one. -/
def charOfWord? (n : UInt32) : Option Char :=
  if n.toNat.isValidChar then some (Char.ofNat n.toNat) else none

/-- Decodes the character at an index, which moves on past its sequence. If there is none the index
stays. -/
def decode (b : Buffer) (index : UInt64) : Run (Option Char × UInt64) := do
  match ← decodeAt b index with
  | none => return (none, index)
  | some (n, length) =>
    match charOfWord? n with
    | none => return (none, index)
    | some c => return (some c, ← add index length)

/-- Moves past a sequence, or ends a check. -/
def checkNext (b : Buffer) (index : UInt64) : Run (Turn UInt64 Bool) := do
  if index < b.size then
    match ← decodeAt b index with
    | some (_, length) => return .go (← add index length)
    | none => return .leave false
  else return .stop true

/-- Whether the bytes of a buffer are **well-formed**. -/
def isValid (b : Buffer) : Run Bool :=
  b.loop (checkNext b) 0

end StrictJson.Machine
