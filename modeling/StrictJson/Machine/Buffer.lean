import Mathlib.Algebra.Group.Nat.Defs

/-!
# Buffers of a Machine

Bytes as they lie in a memory. There are fewer than 2⁶³ of them, and lengths and positions are words
of 64 bits. Any word can be a position, also one far past the end, and a length can be whatever some
bytes declare it to be. So a sum of the two may not fit a word, and the bytes between two positions
may not be there. A run that comes to such a point is lost: it ends in a **trap**. A loop whose
turns outnumber the bytes that it walks through ends in a trap, too.

Some accesses are checked: they answer that there is nothing where the others trap.

## Main definitions

* `Trap`, `Run`: computations that can be lost.
* `Buffer`, `Buffer.size`: bytes in a memory, and how many they are.
* `add`, `saturatingSub`: sums and differences of words.
* `Buffer.get?`, `Buffer.range?`, `Buffer.get`, `Buffer.slice`: checked and unchecked accesses.
* `Turn`, `Buffer.loop`: loops through a buffer.
* `Buffer.readAll`: the loop that reads one thing after the other.
-/

namespace StrictJson.Machine

/-- What no run survives. -/
inductive Trap where
  /-- A sum does not fit a word. -/
  | overflow
  /-- An access is not within the bytes. -/
  | outOfBounds
  /-- Bytes are copied to where another number of them belongs. -/
  | sizeMismatch
  /-- A loop does not end. -/
  | endless
  deriving DecidableEq, Repr

/-- A **run** has a result, unless it ends in a trap. -/
abbrev Run := Except Trap

/-! ### Words -/

/-- The sum of two words, which must fit a word. -/
def add (a b : UInt64) : Run UInt64 :=
  if a.toNat + b.toNat < 2 ^ 64 then return a + b else throw .overflow

/-- The difference of two words, or zero if it would be negative. -/
def saturatingSub (a b : UInt64) : UInt64 :=
  if b ≤ a then a - b else 0

/-! ### Bytes in a memory -/

/-- A **buffer**: as many bytes as a memory can hold. -/
structure Buffer where
  bytes : List UInt8
  length_lt : bytes.length < 2 ^ 63

namespace Buffer

/-- The number of bytes in a buffer. -/
def size (b : Buffer) : UInt64 :=
  .ofNat b.bytes.length

/-- The byte at an index, if there is one. -/
def get? (b : Buffer) (index : UInt64) : Option UInt8 :=
  b.bytes[index.toNat]?

/-- The byte at an index, which must be there. -/
def get (b : Buffer) (index : UInt64) : Run UInt8 :=
  match b.get? index with
  | some byte => return byte
  | none => throw .outOfBounds

/-- The bytes between two positions, if they are there. -/
def range? (b : Buffer) (start stop : UInt64) : Option Buffer :=
  if start ≤ stop ∧ stop ≤ b.size then
    some
      { bytes := (b.bytes.drop start.toNat).take (stop.toNat - start.toNat)
        length_lt := by
          have hlt := b.length_lt
          simp only [List.length_take, List.length_drop]
          omega }
  else none

/-- The bytes between two positions, which must be there. -/
def slice (b : Buffer) (start stop : UInt64) : Run Buffer :=
  match b.range? start stop with
  | some bytes => return bytes
  | none => throw .outOfBounds

end Buffer

/-! ### Loops -/

/-- A **turn** of a loop: its condition, and then its body. -/
inductive Turn (σ α : Type) where
  /-- The condition does not hold, so no turn is taken. -/
  | stop (result : α)
  /-- The body leaves the loop. -/
  | leave (result : α)
  /-- The body is done, and a new state is there for the next turn. -/
  | go (next : σ)

/-- Takes turns, of which there may be as many as a limit says. Then the condition must not hold any
more. -/
def repeatTurns {σ α : Type} (turn : σ → Run (Turn σ α)) : Nat → σ → Run α
  | 0, s => do
    match ← turn s with
    | .stop a => return a
    | .leave _ | .go _ => throw .endless
  | limit + 1, s => do
    match ← turn s with
    | .stop a | .leave a => return a
    | .go next => repeatTurns turn limit next

/-- A loop **through a buffer**. It may take no more turns than there are bytes in the buffer. -/
def Buffer.loop {σ α : Type} (b : Buffer) (turn : σ → Run (Turn σ α)) (s : σ) : Run α :=
  repeatTurns turn b.bytes.length s

/-- Reads at a position, and puts what was read behind what was there. At the end of the buffer
nothing more is read. -/
def Buffer.readNext {ε α γ : Type} (b : Buffer) (read : UInt64 → Run (Except ε α × UInt64))
    (put : α → List γ) : UInt64 × List γ → Run (Turn (UInt64 × List γ) (Except ε (List γ)))
  | (position, gathered) => do
    if position < b.size then
      match ← read position with
      | (.ok x, next) => return .go (next, gathered ++ put x)
      | (.error e, _) => return .leave (.error e)
    else return .stop (.ok gathered)

/-- **Reads a whole buffer**, one thing after the other, and gathers what was read. -/
def Buffer.readAll {ε α γ : Type} (b : Buffer) (read : UInt64 → Run (Except ε α × UInt64))
    (put : α → List γ) : Run (Except ε (List γ)) :=
  b.loop (b.readNext read put) (0, [])

end StrictJson.Machine
