/-!
# Cursors

A place in the input: how many bytes lie before it, and the bytes from it on. A reader only ever
moves forward.
-/

namespace StrictJson.Syntax

/-- A **cursor**: its position from the start of the input and the bytes that remain. -/
structure Cursor where
  position : Nat
  rest : List UInt8
  deriving DecidableEq, Repr

namespace Cursor

/-- The cursor at the start of an input. -/
def start (input : List UInt8) : Cursor := ⟨0, input⟩

/-- The byte at the cursor. -/
def peek? (c : Cursor) : Option UInt8 := c.rest.head?

/-- The cursor `n` bytes further on. -/
def advance (c : Cursor) (n : Nat) : Cursor := ⟨c.position + n, c.rest.drop n⟩

/-- The cursor past all bytes that satisfy `p`. -/
def skipWhile (c : Cursor) (p : UInt8 → Bool) : Cursor :=
  c.advance (c.rest.takeWhile p).length

@[simp] theorem position_advance (c : Cursor) (n : Nat) :
    (c.advance n).position = c.position + n := rfl

@[simp] theorem rest_advance (c : Cursor) (n : Nat) : (c.advance n).rest = c.rest.drop n := rfl

/-- Skipping leaves what does not satisfy the predicate. -/
theorem rest_skipWhile (c : Cursor) (p : UInt8 → Bool) :
    (c.skipWhile p).rest = c.rest.dropWhile p := by
  simp only [skipWhile, rest_advance]
  induction c.rest with
  | nil => rfl
  | cons b bs ih => by_cases h : p b <;> simp [h, ih]

/-- Skipping never leaves more bytes. -/
theorem length_skipWhile_le (c : Cursor) (p : UInt8 → Bool) :
    (c.skipWhile p).rest.length ≤ c.rest.length := by
  simp only [skipWhile, rest_advance, List.length_drop]
  omega

end Cursor

end StrictJson.Syntax
