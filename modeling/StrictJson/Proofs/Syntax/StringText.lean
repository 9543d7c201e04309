import StrictJson.Proofs.Syntax.NumberText
import StrictJson.Proofs.Utf8.WellFormed

/-!
# The Text of Strings

The compact text of a string is a string token: each character is written by one of its spellings,
itself or the shortest escape, so the spellings stand for the characters of the string and for no
others.

## Main results

* `writtenSpelling`: a character as it is written.
* `quotedText_written`, `spelledString_written`: the token of a string and what it stands for.
-/

namespace StrictJson.Syntax

/-! ### Characters -/

/-- The byte of a hexadecimal digit has the value of the digit. -/
theorem digitValue?_digitChar {n : ℕ} (h : n < 16) :
    Hex.digitValue? (asciiByte n.digitChar) = some n := by
  interval_cases n <;> rfl

/-- The escape of a control character spells it. -/
theorem spells_control {c : Char} (h : c.toNat < 0x20) :
    Spells (Utf8.encodeChars (['\\', 'u'] ++ Hex.padded 4 c.toNat)) c := by
  have htext : ∀ n < 0x20, Utf8.encodeChars (['\\', 'u'] ++ Hex.padded 4 n) =
      0x5c :: 0x75 :: [asciiByte (Nat.digitChar 0), asciiByte (Nat.digitChar 0),
        asciiByte (n / 16).digitChar, asciiByte (n % 16).digitChar] := by
    decide
  have hunit := SpellsUnit.mk (digitValue?_digitChar (n := 0) (by decide))
    (digitValue?_digitChar (n := 0) (by decide))
    (digitValue?_digitChar (n := c.toNat / 16) (by omega))
    (digitValue?_digitChar (n := c.toNat % 16) (by omega))
  have hvalue : 0 * 4096 + 0 * 256 + c.toNat / 16 * 16 + c.toNat % 16 = c.toNat := by
    omega
  rw [hvalue] at hunit
  have hspells := Spells.unit hunit (.inl (by omega))
  rw [Char.ofNat_toNat] at hspells
  rw [htext _ h]
  exact hspells

/-- **A character is written by one of its spellings.** -/
theorem spells_escapedChar (c : Char) : Spells (Utf8.encodeChars (escapedChar c)) c := by
  rw [escapedChar]
  split_ifs with h1 h2 h3 h4 h5 h6 h7 h8
  · subst h1
    exact .short .quotationMark
  · subst h2
    exact .short .backslash
  · subst h3
    exact .short .lineFeed
  · subst h4
    exact .short .carriageReturn
  · subst h5
    exact .short .tab
  · subst h6
    exact .short .backspace
  · subst h7
    exact .short .formFeed
  · exact spells_control h8
  · rw [Utf8.encodeChars, List.flatMap_cons, List.flatMap_nil, List.append_nil,
      Utf8.encodeChar_eq_utf8EncodeChar]
    exact .plain (Nat.le_of_not_lt h8) h1 h2

/-- A character as it is **written** in compact text. -/
def writtenSpelling (c : Char) : Spelling :=
  ⟨_, c, spells_escapedChar c⟩

/-! ### Strings -/

/-- The spellings by which a string is written. -/
def writtenSpellings (s : String) : List Spelling :=
  s.toList.map writtenSpelling

/-- The text of a string is a string token. -/
theorem quotedText_written (s : String) :
    quotedText (writtenSpellings s) = Utf8.encodeChars (stringText s) := by
  have hinside : ∀ chars : List Char, spelledText (chars.map writtenSpelling) =
      Utf8.encodeChars (chars.flatMap escapedChar) := by
    intro chars
    induction chars with
    | nil => rfl
    | cons c cs ih =>
        rw [List.map_cons, spelledText, List.flatMap_cons, ← spelledText, ih, List.flatMap_cons,
          Utf8.encodeChars_append]
        rfl
  rw [quotedText, writtenSpellings, hinside, stringText, Utf8.encodeChars_append]
  rfl

/-- What is written of a string stands for it. -/
theorem spelledString_written (s : String) : spelledString (writtenSpellings s) = s := by
  have hchars : (writtenSpellings s).map Spelling.char = s.toList := by
    rw [writtenSpellings, List.map_map]
    exact List.map_id _
  rw [spelledString, hchars, String.ofList_toList]

end StrictJson.Syntax
