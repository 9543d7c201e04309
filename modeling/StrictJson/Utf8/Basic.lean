import StrictJson.Error
import StrictJson.Hex.Basic

/-!
# UTF-8

Decoding, checking and encoding of UTF-8 over plain bytes. The decoder is arithmetic: the lead byte
gives the length of a sequence, the trail bytes carry six bits each, and what they spell must be a
Unicode scalar value that needs a sequence of this length. The same rule serves all three
operations, so what `isValid` accepts is what `decodePrefix` decodes and what `encodeChar` writes.

## Main definitions

* `next?`: the character at the front of some bytes and the length of its sequence.
* `decodeAt?`: the same at an index into a buffer.
* `decodePrefix`: all characters up to the first malformed sequence.
* `isValid`: whether bytes are well-formed to their end.
* `encodeChar`, `encode`: the sequence of a character, and of a number that claims to be one.
* `encodeInto`: the same at the end of a buffer.
-/

namespace StrictJson.Utf8

/-! ### Decoding -/

/-- The length of the sequence that a **lead byte** announces. A trail byte announces none. -/
def sequenceLength? (lead : UInt8) : Option Nat :=
  if lead < 0x80 then some 1
  else if lead < 0xc0 then none
  else if lead < 0xe0 then some 2
  else if lead < 0xf0 then some 3
  else if lead < 0xf5 then some 4
  else none

/-- Whether a byte is a **trail byte**, one that continues a sequence. -/
def isTrail (b : UInt8) : Bool :=
  0x80 ≤ b && b ≤ 0xbf

/-- The part of a code point that the lead byte of a sequence of the given length carries. -/
def leadBits : Nat → UInt8 → Nat
  | 1, lead => lead.toNat
  | 2, lead => lead.toNat % 32
  | 3, lead => lead.toNat % 16
  | _, lead => lead.toNat % 8

/-- The number that a lead byte and its trail bytes spell. -/
def codePoint (lead : UInt8) (trail : List UInt8) : Nat :=
  trail.foldl (fun n b => n * 64 + b.toNat % 64) (leadBits (trail.length + 1) lead)

/-- The least code point that needs a sequence of the given length. -/
def minimum : Nat → Nat
  | 1 => 0
  | 2 => 0x80
  | 3 => 0x800
  | _ => 0x10000

/-- The character at the front of `bytes` and the length of its sequence. There is none when the
bytes are at their end, when the sequence is cut short or malformed, when a shorter sequence would
do, and when the number spelled is not a Unicode scalar value. -/
def next? : List UInt8 → Option (Char × Nat)
  | [] => none
  | lead :: rest =>
    match sequenceLength? lead with
    | none => none
    | some length =>
      let trail := rest.take (length - 1)
      let n := codePoint lead trail
      if trail.length = length - 1 ∧ trail.all isTrail ∧ minimum length ≤ n ∧ n.isValidChar then
        some (Char.ofNat n, length)
      else none

theorem sequenceLength?_pos {lead : UInt8} {n : Nat} (h : sequenceLength? lead = some n) :
    0 < n := by
  unfold sequenceLength? at h
  repeat' split at h
  all_goals simp at h
  all_goals omega

/-- A decoded sequence is not empty and lies within the bytes. -/
theorem next?_length {bytes : List UInt8} {c : Char} {n : Nat} (h : next? bytes = some (c, n)) :
    0 < n ∧ n ≤ bytes.length := by
  cases bytes with
  | nil => simp [next?] at h
  | cons lead rest =>
    simp only [next?] at h
    split at h
    · simp at h
    · next length hlen =>
      split at h
      · next hc =>
        simp only [Option.some.injEq, Prod.mk.injEq] at h
        have hpos := sequenceLength?_pos hlen
        have := hc.1
        simp only [List.length_take] at this
        simp only [List.length_cons]
        omega
      · simp at h

/-- The character whose sequence starts at `index`, and the index just past it. -/
def decodeAt? (bytes : List UInt8) (index : Nat) : Option (Char × Nat) :=
  match next? (bytes.drop index) with
  | some (c, n) => some (c, index + n)
  | none => none

/-- The characters from the front of `bytes` up to the first place where none can be decoded, and
the bytes from that place on. -/
def decodePrefix (bytes : List UInt8) : List Char × List UInt8 :=
  match _h : next? bytes with
  | none => ([], bytes)
  | some (c, n) =>
    let (chars, rest) := decodePrefix (bytes.drop n)
    (c :: chars, rest)
termination_by bytes.length
decreasing_by
  have := next?_length ‹_›
  simp only [List.length_drop]
  omega

/-- The characters of well-formed bytes. -/
def decode? (bytes : List UInt8) : Option (List Char) :=
  match decodePrefix bytes with
  | (chars, []) => some chars
  | _ => none

/-! ### Checking -/

/-- Whether `bytes` are **well-formed**: a row of whole sequences and nothing else. -/
def isValid (bytes : List UInt8) : Bool :=
  match _h : next? bytes with
  | none => bytes.isEmpty
  | some (_, n) => isValid (bytes.drop n)
termination_by bytes.length
decreasing_by
  have := next?_length ‹_›
  simp only [List.length_drop]
  omega

/-! ### Encoding -/

/-- The shortest sequence that spells the number `n`. -/
def sequence (n : Nat) : List UInt8 :=
  if n < 0x80 then [.ofNat n]
  else if n < 0x800 then [.ofNat (0xc0 + n / 64), .ofNat (0x80 + n % 64)]
  else if n < 0x10000 then
    [.ofNat (0xe0 + n / 4096), .ofNat (0x80 + n / 64 % 64), .ofNat (0x80 + n % 64)]
  else
    [.ofNat (0xf0 + n / 262144), .ofNat (0x80 + n / 4096 % 64), .ofNat (0x80 + n / 64 % 64),
      .ofNat (0x80 + n % 64)]

/-- The sequence of a character. -/
def encodeChar (c : Char) : List UInt8 :=
  sequence c.toNat

/-- The sequences of some characters, one after the other. -/
def encodeChars (chars : List Char) : List UInt8 :=
  chars.flatMap encodeChar

/-- The bytes of a text. -/
def ofString (text : String) : List UInt8 :=
  encodeChars text.toList

/-- The reasons why a number has no UTF-8 form. -/
inductive EncodeFault where
  /-- The number is negative or greater than the last code point. -/
  | outOfRange (codePoint : Int32)
  /-- The number is one half of a surrogate pair. -/
  | surrogate (codePoint : Int32)
  deriving DecidableEq, Repr

/-- Reports a number without a UTF-8 form, as a word of 32 bits in hexadecimal. -/
def EncodeFault.toError : EncodeFault → Error
  | .outOfRange n =>
    { code := .invalidArgument,
      detail := "code point 0x" ++ String.ofList (Hex.digits n.toUInt32.toNat) ++ " out of range" }
  | .surrogate n =>
    { code := .invalidUtf8,
      detail := "surrogate code point 0x" ++ String.ofList (Hex.padded 4 n.toUInt32.toNat) ++
        " cannot be encoded" }

/-- The sequence of the character with the given number. The numbers that have none are refused. -/
def encode (codePoint : Int32) : Except EncodeFault (List UInt8) :=
  if codePoint < 0 ∨ 0x10ffff < codePoint then .error (.outOfRange codePoint)
  else if 0xd800 ≤ codePoint ∧ codePoint ≤ 0xdfff then .error (.surrogate codePoint)
  else .ok (sequence codePoint.toUInt32.toNat)

/-- Writes the sequence of the character with the given number at the end of a buffer, and counts
its bytes. Nothing is written for a number that is refused. -/
def encodeInto (buffer : List UInt8) (codePoint : Int32) : Except EncodeFault Nat × List UInt8 :=
  match encode codePoint with
  | .ok bytes => (.ok bytes.length, buffer ++ bytes)
  | .error e => (.error e, buffer)

end StrictJson.Utf8
