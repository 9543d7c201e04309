import StrictJson.Utf8.Basic

/-!
# The Table of Well-Formed Sequences

The sequences of UTF-8 as nine rows of byte ranges, which is how the Unicode standard lists them.
Where a sequence goes wrong the table also says how far it went well: `Fault` reports the longest
start of a row that the bytes follow.

## Main definitions

* `rows`: the table.
* `Fault`, `decodeText`: the first malformed place of a text and its extent.
-/

namespace StrictJson.Utf8

/-- A range of bytes, both ends included. -/
structure ByteRange where
  first : UInt8
  last : UInt8
  deriving DecidableEq, Repr

/-- Whether a byte lies in a range. -/
def ByteRange.contains (r : ByteRange) (b : UInt8) : Bool :=
  r.first ≤ b && b ≤ r.last

/-- A row of the table: the range of the lead byte, and those of the trail bytes in order. -/
structure Row where
  lead : ByteRange
  trail : List ByteRange
  deriving DecidableEq, Repr

/-- The whole range of trail bytes. -/
def anyTrail : ByteRange := ⟨0x80, 0xbf⟩

/-- The **table of well-formed sequences**. The rows with a narrower second byte leave out the
numbers that a shorter sequence spells, the surrogates, and what lies past the last code point. -/
def rows : List Row :=
  [⟨⟨0x00, 0x7f⟩, []⟩,
    ⟨⟨0xc2, 0xdf⟩, [anyTrail]⟩,
    ⟨⟨0xe0, 0xe0⟩, [⟨0xa0, 0xbf⟩, anyTrail]⟩,
    ⟨⟨0xe1, 0xec⟩, [anyTrail, anyTrail]⟩,
    ⟨⟨0xed, 0xed⟩, [⟨0x80, 0x9f⟩, anyTrail]⟩,
    ⟨⟨0xee, 0xef⟩, [anyTrail, anyTrail]⟩,
    ⟨⟨0xf0, 0xf0⟩, [⟨0x90, 0xbf⟩, anyTrail, anyTrail]⟩,
    ⟨⟨0xf1, 0xf3⟩, [anyTrail, anyTrail, anyTrail]⟩,
    ⟨⟨0xf4, 0xf4⟩, [⟨0x80, 0x8f⟩, anyTrail, anyTrail]⟩]

/-- How many of the bytes, from the front, lie in the ranges at their places. -/
def followed : List ByteRange → List UInt8 → Nat
  | r :: ranges, b :: bytes => if r.contains b then followed ranges bytes + 1 else 0
  | _, _ => 0

/-- A place where a text is malformed: the index, and the number of bytes there that start a
sequence and then break off. The number is missing when the text ends before the sequence does. -/
structure Fault where
  index : Nat
  length : Option Nat
  deriving DecidableEq, Repr

/-- The sentence that reports a malformed text. -/
def Fault.text (f : Fault) : String :=
  match f.length with
  | some n => "invalid utf-8 sequence of " ++ toString n ++ " bytes from index " ++ toString f.index
  | none => "incomplete utf-8 byte sequence from index " ++ toString f.index

/-- The extent of the malformed sequence that the bytes start with, by the row of its lead byte. A
byte that leads no row is malformed by itself. -/
def brokenLength : List UInt8 → Option Nat
  | [] => none
  | lead :: rest =>
    match rows.find? fun row => row.lead.contains lead with
    | none => some 1
    | some row =>
      let n := followed row.trail rest
      if n = rest.length then none else some (n + 1)

/-- The text that bytes spell, or the first place where they spell none. -/
def decodeText (bytes : List UInt8) : Except Fault (List Char) :=
  match decodePrefix bytes with
  | (chars, []) => .ok chars
  | (_, rest) => .error ⟨bytes.length - rest.length, brokenLength rest⟩

end StrictJson.Utf8
