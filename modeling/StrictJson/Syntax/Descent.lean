import StrictJson.Syntax.Document
import StrictJson.Syntax.NumberReader
import StrictJson.Value.Writer

/-!
# Descent

The reader of documents once more, as procedures that call one another: one for each construct of
the grammar. They share one position in the input and one count of the open containers, and keep
both by hand. What `step` cannot get wrong because of the data that it works on can go wrong here in
principle, and has a name: an access that leaves the input, a count below zero, a loop or a chain of
calls without an end is a **trap**. Where a procedure checks what cannot be otherwise, the branch
that is never taken is a **guard**.

All that a procedure does is noted down in the order in which it happens, each note with the
position and the depth that the reader then has. So whatever is to be said of the states that a
reader passes through can be said of its notes.

## Main definitions

* `Reader`, `Event`, `Moment`: the state of the reader and what it remembers of the earlier ones.
* `Proc`, `Halt`: procedures and the ways in which they break off.
* `peek`, `moveTo`, `slice`, `enter`, `leave`, `call`, `loop`: all that procedures do to a reader.
* `readValue`, `readDocument`: the procedures for values and for a document.
* `descend`: a whole run.
-/

namespace StrictJson.Syntax.Descent

/-! ### Readers and procedures -/

/-- What is worth a note. -/
inductive Event where
  /-- The position has changed. -/
  | moved
  /-- A container has been entered. -/
  | entered
  /-- A container has been left. -/
  | left
  /-- A value is asked for. -/
  | called
  /-- A value has been read. -/
  | returned
  /-- The bytes between two positions have been taken out of the input. -/
  | sliced (start stop : Nat)
  /-- The bytes of a string as far as it has been read. -/
  | collected (buffer : List UInt8)
  /-- The code point that an escape spells. -/
  | assembled (codePoint : Int)
  /-- The text of a number. -/
  | measured (text : List UInt8)
  deriving DecidableEq, Repr

/-- An event, and the position and depth that the reader had then. -/
structure Moment where
  event : Event
  position : Nat
  depth : Nat
  deriving DecidableEq, Repr

/-- A **reader**: where it stands, how many containers are open, and what has happened, the latest
first. -/
structure Reader where
  position : Nat := 0
  depth : Nat := 0
  history : List Moment := []
  deriving DecidableEq, Repr

/-- A check that cannot fail, and what was found if it did. -/
inductive Guard where
  /-- The bytes of a string are not well-formed. -/
  | string
  /-- The bytes of a number are not well-formed. -/
  | number
  /-- The text of a number is not one for the reader of reals. -/
  | real (text : List UInt8)
  /-- The code point of an escape cannot be encoded. -/
  | codePoint (fault : Utf8.EncodeFault)
  deriving DecidableEq, Repr

/-- What no run survives. -/
inductive Trap where
  /-- An access is not within the input. -/
  | outOfBounds
  /-- A difference is below zero. -/
  | underflow
  /-- A loop does not end. -/
  | endless
  /-- A chain of calls does not end. -/
  | tooNested
  deriving DecidableEq, Repr

/-- Why a procedure **halts**. -/
inductive Halt where
  | refused (failure : Failure)
  | guarded (guard : Guard) (offset : Nat)
  | trapped (trap : Trap)
  deriving DecidableEq, Repr

/-- A **procedure** works on a reader, and returns something or halts. -/
abbrev Proc := EStateM Halt Reader

/-- Notes an event. -/
def note (event : Event) : Proc Unit :=
  modify fun r => { r with history := ⟨event, r.position, r.depth⟩ :: r.history }

/-- The position of the reader. -/
def here : Proc Nat := do
  return (← get).position

/-- The depth of the reader. -/
def level : Proc Nat := do
  return (← get).depth

/-- Moves the reader to a position. -/
def moveTo (position : Nat) : Proc Unit := do
  modify fun r => { r with position }
  note .moved

/-- Moves the reader `n` bytes on. -/
def advance (n : Nat) : Proc Unit := do
  moveTo ((← here) + n)

/-- Fails with a fault at an offset. -/
def refuse {α : Type} (fault : Fault) (offset : Nat) : Proc α :=
  throw (.refused ⟨fault, offset⟩)

/-- The difference of two numbers, the first of which must not be the smaller one. -/
def minus (a b : Nat) : Proc Nat :=
  if b ≤ a then return a - b else throw (.trapped .underflow)

/-- **Calls** a procedure: notes that something is asked for, and that it has been read. -/
def call {α : Type} (p : Proc α) : Proc α := do
  note .called
  let a ← p
  note .returned
  return a

/-- Takes turns until one of them has a result, or the number of turns is used up. -/
def repeatTurns {σ α : Type} (turn : σ → Proc (σ ⊕ α)) : Nat → σ → Proc α
  | 0, _ => throw (.trapped .endless)
  | turns + 1, s => do
    match ← turn s with
    | .inl next => repeatTurns turn turns next
    | .inr a => return a

section Input

variable (input : List UInt8)

/-- The byte at the position of the reader. -/
def peek : Proc (Option UInt8) := do
  return input[(← here)]?

/-- The bytes between two positions. -/
def slice (start stop : Nat) : Proc (List UInt8) := do
  if start ≤ stop ∧ stop ≤ input.length then
    note (.sliced start stop)
    return (input.drop start).take (stop - start)
  else throw (.trapped .outOfBounds)

/-- Takes turns until one of them has a result. No loop can take more of them than the input has
bytes, and one. -/
def loop {σ α : Type} (turn : σ → Proc (σ ⊕ α)) (s : σ) : Proc α :=
  repeatTurns turn (input.length + 1) s

/-- Moves past one byte if it satisfies `p`, and tells whether it does. -/
def skipIf (p : UInt8 → Bool) : Proc Bool := do
  if (← peek input).any p then
    advance 1
    return true
  else return false

/-- Moves past a byte that satisfies `p`, or ends a run of them. -/
def skipNext (p : UInt8 → Bool) (_ : Unit) : Proc (Unit ⊕ Unit) := do
  if ← skipIf input p then return .inl () else return .inr ()

/-- Moves past all bytes that satisfy `p`. -/
def skipWhile (p : UInt8 → Bool) : Proc Unit :=
  loop input (skipNext input p) ()

/-- Moves past white space. -/
def skipSpace : Proc Unit :=
  skipWhile input isSpace

/-- Fails because something else than wanted stands at the position of the reader. -/
def unexpected {α : Type} (wanted : Expectation) : Proc α := do
  refuse (.unexpected wanted (← peek input)) (← here)

/-! ### Strings -/

/-- Reads four hexadecimal digits. -/
def readUnit : Proc Nat := do
  let start ← here
  if start + 4 ≤ input.length then
    match hexValue 0 ((input.drop start).take 4) with
    | .ok unit =>
      advance 4
      return unit
    | .error b => refuse (.badHexDigit b) start
  else refuse .truncatedEscape start

/-- Reads the second half of a pair whose first one is `high`, and puts them together. -/
def readLowHalf (high escapeStart : Nat) : Proc Int := do
  match ← slice input (← here) input.length with
  | 0x5c :: 0x75 :: _ =>
    advance 2
    let low ← readUnit input
    if 0xdc00 ≤ low ∧ low ≤ 0xdfff then
      return 0x10000 + ((high : Int) - 0xd800) * 0x400 + ((low : Int) - 0xdc00)
    else refuse (.mismatchedLow high low) escapeStart
  | _ => refuse (.unpairedHigh high) escapeStart

/-- Reads the digits of an escape, and those of a second one if they are half of a pair. -/
def readCodePoint (escapeStart : Nat) : Proc Int := do
  let unit ← readUnit input
  if 0xd800 ≤ unit ∧ unit ≤ 0xdbff then readLowHalf input unit escapeStart
  else if 0xdc00 ≤ unit ∧ unit ≤ 0xdfff then refuse (.unpairedLow unit) escapeStart
  else return unit

/-- Writes a code point that an escape spells to a buffer. -/
def writeCodePoint (buffer : List UInt8) (codePoint : Int) (escapeStart : Nat) :
    Proc (List UInt8) := do
  note (.assembled codePoint)
  match Utf8.encodeInto buffer (Int32.ofInt codePoint) with
  | (.ok _, written) => return written
  | (.error fault, _) => throw (.guarded (.codePoint fault) escapeStart)

variable (options : Options)

/-- Reads an escape of four digits, or a pair of them, from behind its letter on. -/
def readNumericEscape (role : Role) (buffer : List UInt8) (escapeStart : Nat) :
    Proc (List UInt8) := do
  let codePoint ← readCodePoint input escapeStart
  if codePoint = 0 ∧ options.allowNul = false then refuse (.nul role) escapeStart
  else writeCodePoint buffer codePoint escapeStart

/-- Reads an escape from behind its backslash on. -/
def readEscape (context : StringContext) (buffer : List UInt8) : Proc (List UInt8) := do
  let escapeStart ← minus (← here) 1
  match ← peek input with
  | none => refuse .unterminatedString context.start
  | some letter =>
    advance 1
    match shortEscape? letter with
    | some char => return buffer ++ [UInt8.ofNat char.toNat]
    | none =>
      if letter = 0x75 then readNumericEscape input options context.role buffer escapeStart
      else refuse (.unknownEscape letter) escapeStart

/-- Copies a character of several bytes to a buffer. -/
def copyCharacter (buffer : List UInt8) : Proc (List UInt8) := do
  let start ← here
  match Utf8.decodeAt? input start with
  | some (_, stop) =>
    moveTo stop
    return buffer ++ (← slice input start stop)
  | none => refuse .malformedText start

/-- Reads one **element** of a string into a buffer, or the closing quotation mark. -/
def readElement (context : StringContext) (buffer : List UInt8) :
    Proc (List UInt8 ⊕ List UInt8) := do
  note (.collected buffer)
  match ← peek input with
  | none => refuse .unterminatedString context.start
  | some b =>
    if b = 0x22 then
      advance 1
      return .inr buffer
    else if b = 0x5c then
      advance 1
      return .inl (← readEscape input options context buffer)
    else if b < 0x20 then refuse (.controlCharacter b) (← here)
    else if b < 0x80 then
      advance 1
      return .inl (buffer ++ [b])
    else return .inl (← copyCharacter input buffer)

/-- Reads a **string** from its opening quotation mark on. -/
def readString (role : Role) : Proc String := do
  let start ← here
  advance 1
  let buffer ← loop input (readElement input options ⟨role, start⟩) []
  match Utf8.decode? buffer with
  | some chars => return String.ofList chars
  | none => throw (.guarded .string start)

/-! ### Words and numbers -/

/-- Reads one of the three **words**, which is compared with the whole run of letters. -/
def readWord : Proc Value := do
  let start ← here
  let length := ((← slice input start input.length).takeWhile isLetter).length
  let word ← slice input start (start + length)
  match wordValue? word with
  | some v =>
    advance length
    return v
  | none => refuse (.unknownWord word) start

/-- Moves past a run of digits and counts them. -/
def skipDigits : Proc Nat := do
  let start ← here
  skipWhile input isDigit
  minus (← here) start

/-- Reads the digits before the point. -/
def readWhole (start : Nat) : Proc Unit := do
  match ← peek input with
  | none => refuse .missingDigit start
  | some b =>
    if b = 0x30 then
      advance 1
      if (← peek input).any isDigit then refuse .leadingZero start
    else if isDigit b then discard (skipDigits input)
    else refuse .missingDigit start

/-- Moves past a run of digits that must not be empty. -/
def readDigits (fault : Fault) (start : Nat) : Proc Unit := do
  if (← skipDigits input) = 0 then refuse fault start

/-- Reads a point and the digits after it, and tells whether there is one. -/
def readFraction (start : Nat) : Proc Bool := do
  if ← skipIf input (· == 0x2e) then
    readDigits input .missingFraction start
    return true
  else return false

/-- Reads an exponent, and tells whether there is one. -/
def readExponent (start : Nat) : Proc Bool := do
  if ← skipIf input (fun b => b == 0x65 || b == 0x45) then
    discard (skipIf input fun b => b == 0x2b || b == 0x2d)
    readDigits input .missingExponent start
    return true
  else return false

/-- Moves past the parts of a number, and tells whether it has neither a point nor an exponent. -/
def skipNumeral (start : Nat) : Proc Bool := do
  discard (skipIf input (· == 0x2d))
  readWhole input start
  let fraction ← readFraction input start
  let exponent ← readExponent input start
  return !fraction && !exponent

/-- The integer or real that the text of a number stands for. Only a text that is the one that the
integer would be written as stands for an integer. -/
def classify (text : List UInt8) (integral : Bool) (start : Nat) : Proc Value :=
  match (integerOfText? text).filter fun n =>
    integral && Utf8.encodeChars (integerText n) == text with
  | some n => return .integer n
  | none =>
    match realOfText? text with
    | some x => if x.isFinite then return .real x else refuse (.unrepresentable text) start
    | none => throw (.guarded (.real text) start)

/-- Reads a **number**. -/
def readNumber : Proc Value := do
  let start ← here
  let integral ← skipNumeral input start
  let text ← slice input start (← here)
  note (.measured text)
  if Utf8.isValid text then classify text integral start
  else throw (.guarded .number start)

/-! ### Containers -/

/-- Changes the depth, and notes why. -/
def setDepth (depth : Nat) (event : Event) : Proc Unit := do
  modify fun r => { r with depth }
  note event

/-- Enters a container, which counts even if it is one too many. -/
def enter : Proc Unit := do
  setDepth ((← level) + 1) .entered
  if options.maxDepth < (← level) then refuse (.tooDeep options.maxDepth) (← here)

/-- Leaves a container. -/
def leave : Proc Unit := do
  setDepth (← minus (← level) 1) .left

/-- Reads what follows a part of a container: a comma, behind which there are more of them, or the
closing bracket. -/
def readSeparator {β : Type} (closing : UInt8) (wanted : Expectation) (parts : β) :
    Proc (β ⊕ β) := do
  skipSpace input
  let found ← peek input
  if found = some 0x2c then
    advance 1
    return .inl parts
  else if found = some closing then
    advance 1
    return .inr parts
  else unexpected input wanted

/-- Reads a **container** from its opening bracket on, given its closing one, how a part of it is
read, and what its parts make up. -/
def readContainer {β : Type} (closing : UInt8) (container : List β → Value)
    (part : List β → Proc (List β ⊕ List β)) : Proc Value := do
  enter options
  advance 1
  skipSpace input
  if (← peek input) = some closing then
    advance 1
    leave
    return container []
  else
    let parts ← loop input part []
    leave
    return container parts

/-- Reads an item of an array and what follows it, given how a value is read. -/
def readItem (value : Proc Value) (items : List Value) : Proc (List Value ⊕ List Value) := do
  let v ← value
  readSeparator input 0x5d .arrayEnd (items ++ [v])

/-- Reads an **array**, given how a value is read. -/
def readArray (value : Proc Value) : Proc Value :=
  readContainer input options 0x5d .array (readItem input value)

/-- Reads a key that may stand in an object with the given members. -/
def readKey (members : List (String × Value)) : Proc String := do
  if (← peek input) = some 0x22 then
    let start ← here
    let key ← readString input options .key
    if options.rejectDuplicates ∧ Members.contains key members then
      refuse (.duplicateKey key) start
    else return key
  else unexpected input .key

/-- Reads a colon. -/
def readColon : Proc Unit := do
  if (← peek input) = some 0x3a then advance 1 else unexpected input .colon

/-- Reads the key of a member and the colon behind it. -/
def readLabel (members : List (String × Value)) : Proc String := do
  skipSpace input
  let key ← readKey input options members
  skipSpace input
  readColon input
  return key

/-- Reads a member of an object and what follows it, given how a value is read. -/
def readMember (value : Proc Value) (members : List (String × Value)) :
    Proc (List (String × Value) ⊕ List (String × Value)) := do
  let key ← readLabel input options members
  let v ← value
  readSeparator input 0x7d .objectEnd (Members.insert key v members)

/-- Reads an **object**, given how a value is read. -/
def readObject (value : Proc Value) : Proc Value :=
  readContainer input options 0x7d .object (readMember input options value)

/-! ### Values and documents -/

/-- Reads what the first byte of a value announces, given how a value inside it is read. -/
def readAnnounced (value : Proc Value) : Proc Value := do
  match ← peek input with
  | none => unexpected input .value
  | some b =>
    if b = 0x7b then readObject input options value
    else if b = 0x5b then readArray input options value
    else if b = 0x22 then return .string (← readString input options .value)
    else if b = 0x74 ∨ b = 0x66 ∨ b = 0x6e then readWord input
    else if b = 0x2d ∨ isDigit b then readNumber input
    else unexpected input .value

/-- Reads a **value**, with no more calls inside one another than `levels`. -/
def readValue : Nat → Proc Value
  | 0 => throw (.trapped .tooNested)
  | levels + 1 => call do
    skipSpace input
    readAnnounced input options (readValue levels)

/-- Reads a **document**: a value with white space around it and nothing else. The containers that
may be open and the document itself are as many values inside one another as there can be. -/
def readDocument : Proc Value := do
  let v ← readValue input options (options.maxDepth + 1)
  skipSpace input
  match ← peek input with
  | some b => refuse (.trailing b) (← here)
  | none => return v

end Input

/-! ### Whole runs -/

/-- The **run** of a reader over an input. -/
def descend (options : Options) (input : List UInt8) : EStateM.Result Halt Reader Value :=
  (readDocument input options).run {}

end StrictJson.Syntax.Descent
