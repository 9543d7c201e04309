import StrictJson.Syntax.Cursor
import StrictJson.Syntax.Fault
import StrictJson.Syntax.Options
import StrictJson.Utf8.Basic

/-!
# Strings

The strings of a document, read one **element** at a time. An element is a character as it is, an
escape that spells a character, or the closing quotation mark. Two escapes of four digits may spell
one character, as the halves of a surrogate pair, and then they are one element.

A character is known as soon as its element has been read, so a string is a list of Unicode scalar
values from the start and needs no check at its end.

## Main definitions

* `readElement`: the element at a cursor.
* `readString`: the characters up to the closing quotation mark.
-/

namespace StrictJson.Syntax

/-- Where a string stands in a document: what it is for, and its opening quotation mark. -/
structure StringContext where
  role : Role
  start : Nat
  deriving DecidableEq, Repr

/-- The character that a one-letter escape stands for. -/
def shortEscape? (letter : UInt8) : Option Char :=
  if letter = 0x22 then some '"'
  else if letter = 0x5c then some '\\'
  else if letter = 0x2f then some '/'
  else if letter = 0x62 then some '\x08'
  else if letter = 0x66 then some '\x0c'
  else if letter = 0x6e then some '\n'
  else if letter = 0x72 then some '\r'
  else if letter = 0x74 then some '\t'
  else none

/-- The number that hexadecimal digits spell, given the number spelled before them, or the first
byte among them that is no digit. -/
def hexValue (n : Nat) : List UInt8 → Except UInt8 Nat
  | [] => .ok n
  | b :: bs =>
    match Hex.digitValue? b with
    | some d => hexValue (n * 16 + d) bs
    | none => .error b

/-- Reads the four digits of an escape. What is wrong with them is reported at the first one. -/
def readUnit (c : Cursor) : Except Failure Nat :=
  let digits := c.rest.take 4
  if digits.length < 4 then .error ⟨.truncatedEscape, c.position⟩
  else
    match hexValue 0 digits with
    | .ok n => .ok n
    | .error b => .error ⟨.badHexDigit b, c.position⟩

/-- The character that two halves of a surrogate pair spell. -/
def pairChar (high low : Nat) : Char :=
  Char.ofNat (0x10000 + (high - 0xd800) * 0x400 + (low - 0xdc00))

/-- Reads the second half of a pair. The escape of the first half, `high`, has its backslash at the
cursor and takes six bytes. -/
def readLowHalf (high : Nat) (c : Cursor) : Except Failure (Char × Cursor) :=
  match (c.advance 6).rest with
  | 0x5c :: 0x75 :: _ =>
    match readUnit (c.advance 8) with
    | .error e => .error e
    | .ok low =>
      if 0xdc00 ≤ low ∧ low ≤ 0xdfff then .ok (pairChar high low, c.advance 12)
      else .error ⟨.mismatchedLow high low, c.position⟩
  | _ => .error ⟨.unpairedHigh high, c.position⟩

/-- Reads an escape of four digits, or a pair of them, whose backslash is at the cursor. -/
def readNumericEscape (options : Options) (role : Role) (c : Cursor) :
    Except Failure (Char × Cursor) :=
  match readUnit (c.advance 2) with
  | .error e => .error e
  | .ok unit =>
    if 0xd800 ≤ unit ∧ unit ≤ 0xdbff then readLowHalf unit c
    else if 0xdc00 ≤ unit ∧ unit ≤ 0xdfff then .error ⟨.unpairedLow unit, c.position⟩
    else if unit = 0 ∧ options.allowNul = false then .error ⟨.nul role, c.position⟩
    else .ok (Char.ofNat unit, c.advance 6)

/-- Reads the escape whose backslash is at the cursor. -/
def readEscape (options : Options) (context : StringContext) (c : Cursor) :
    Except Failure (Char × Cursor) :=
  match (c.advance 1).peek? with
  | none => .error ⟨.unterminatedString, context.start⟩
  | some letter =>
    match shortEscape? letter with
    | some char => .ok (char, c.advance 2)
    | none =>
      if letter = 0x75 then readNumericEscape options context.role c
      else .error ⟨.unknownEscape letter, c.position⟩

/-- Reads the **element** at the cursor: a character, or nothing for the closing mark. -/
def readElement (options : Options) (context : StringContext) (c : Cursor) :
    Except Failure (Option Char × Cursor) :=
  match c.peek? with
  | none => .error ⟨.unterminatedString, context.start⟩
  | some b =>
    if b = 0x22 then .ok (none, c.advance 1)
    else if b = 0x5c then (readEscape options context c).map fun (char, next) => (some char, next)
    else if b < 0x20 then .error ⟨.controlCharacter b, c.position⟩
    else
      match Utf8.next? c.rest with
      | some (char, n) => .ok (some char, c.advance n)
      | none => .error ⟨.malformedText, c.position⟩

/-! ### Progress -/

theorem Cursor.rest_ne_nil {c : Cursor} {b : UInt8} (h : c.peek? = some b) : c.rest ≠ [] := by
  intro hr
  simp [Cursor.peek?, hr] at h

theorem Cursor.length_advance_lt {c : Cursor} {n : Nat} (hr : c.rest ≠ []) (hn : 0 < n) :
    (c.advance n).rest.length < c.rest.length := by
  have := List.length_pos_iff.2 hr
  simp only [Cursor.rest_advance, List.length_drop]
  omega

theorem readNumericEscape_progress {options : Options} {role : Role} {c next : Cursor} {char : Char}
    (hr : c.rest ≠ []) (h : readNumericEscape options role c = .ok (char, next)) :
    next.rest.length < c.rest.length := by
  unfold readNumericEscape readLowHalf at h
  repeat' split at h
  all_goals simp only [Except.ok.injEq, Prod.mk.injEq, reduceCtorEq] at h
  all_goals obtain ⟨-, rfl⟩ := h
  all_goals exact Cursor.length_advance_lt hr (by decide)

theorem readEscape_progress {options : Options} {context : StringContext} {c next : Cursor}
    {char : Char} (hr : c.rest ≠ []) (h : readEscape options context c = .ok (char, next)) :
    next.rest.length < c.rest.length := by
  unfold readEscape at h
  repeat' split at h
  all_goals try simp only [Except.ok.injEq, Prod.mk.injEq, reduceCtorEq] at h
  · obtain ⟨-, rfl⟩ := h
    exact Cursor.length_advance_lt hr (by decide)
  · exact readNumericEscape_progress hr h

/-- Reading an element moves the cursor forward. -/
theorem readElement_progress {options : Options} {context : StringContext} {c next : Cursor}
    {element : Option Char} (h : readElement options context c = .ok (element, next)) :
    next.rest.length < c.rest.length := by
  unfold readElement at h
  split at h
  · simp at h
  · next b hb =>
    have hr := Cursor.rest_ne_nil hb
    split at h
    · simp only [Except.ok.injEq, Prod.mk.injEq] at h
      obtain ⟨-, rfl⟩ := h
      exact Cursor.length_advance_lt hr (by decide)
    · split at h
      · cases he : readEscape options context c with
        | error e => simp [he, Except.map] at h
        | ok r =>
          simp only [he, Except.map, Except.ok.injEq, Prod.mk.injEq] at h
          obtain ⟨-, rfl⟩ := h
          exact readEscape_progress hr he
      · split at h
        · simp at h
        · split at h
          · next char n hn =>
            simp only [Except.ok.injEq, Prod.mk.injEq] at h
            obtain ⟨-, rfl⟩ := h
            exact Cursor.length_advance_lt hr (Utf8.next?_length hn).1
          · simp at h

/-! ### Whole strings -/

/-- Reads elements up to the closing quotation mark. -/
def readElements (options : Options) (context : StringContext) (c : Cursor) :
    Except Failure (List Char × Cursor) :=
  match _h : readElement options context c with
  | .error e => .error e
  | .ok (none, next) => .ok ([], next)
  | .ok (some char, next) =>
    match readElements options context next with
    | .error e => .error e
    | .ok (chars, final) => .ok (char :: chars, final)
termination_by c.rest.length
decreasing_by exact readElement_progress ‹_›

/-- Reads the **string** whose opening quotation mark is at the cursor. -/
def readString (options : Options) (role : Role) (c : Cursor) : Except Failure (String × Cursor) :=
  match readElements options ⟨role, c.position⟩ (c.advance 1) with
  | .error e => .error e
  | .ok (chars, next) => .ok (String.ofList chars, next)

/-- Reading elements moves the cursor forward. -/
theorem readElements_progress {options : Options} {context : StringContext} {c final : Cursor}
    {chars : List Char} (h : readElements options context c = .ok (chars, final)) :
    final.rest.length < c.rest.length := by
  fun_induction readElements options context c generalizing chars final with
  | case1 => simp at h
  | case2 c next hn =>
    simp only [Except.ok.injEq, Prod.mk.injEq] at h
    obtain ⟨-, rfl⟩ := h
    exact readElement_progress hn
  | case3 c char next hn e he ih => simp at h
  | case4 c char next hn rest final' hf ih =>
    simp only [Except.ok.injEq, Prod.mk.injEq] at h
    obtain ⟨-, rfl⟩ := h
    exact Nat.lt_trans (ih hf) (readElement_progress hn)

/-- Reading a string moves the cursor forward. -/
theorem readString_progress {options : Options} {role : Role} {c next : Cursor} {s : String}
    (h : readString options role c = .ok (s, next)) : next.rest.length < c.rest.length := by
  unfold readString at h
  split at h
  · simp at h
  · next chars final hf =>
    simp only [Except.ok.injEq, Prod.mk.injEq] at h
    obtain ⟨-, rfl⟩ := h
    have := readElements_progress hf
    simp only [Cursor.rest_advance, List.length_drop] at this
    omega

end StrictJson.Syntax
