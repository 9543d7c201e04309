import StrictJson.Hex.Basic
import StrictJson.Text.Combining
import StrictJson.Text.Unprintable

/-!
# Quoted Names

How a message shows a name or a character that came from the input: between marks, with every
character that could not be seen spelled by its number. A quoted name is a single line.

This is a form for people. The strings of a document are written by `StrictJson.Value.Writer`.
-/

namespace StrictJson.Text

/-- One character of a quoted text. The mark that encloses the text and the backslash get a
backslash, four controls have short names, and what would not be seen is spelled by its number. -/
def quotedChar (mark c : Char) : List Char :=
  if c = mark ∨ c = '\\' then ['\\', c]
  else if c = '\x00' then ['\\', '0']
  else if c = '\t' then ['\\', 't']
  else if c = '\n' then ['\\', 'n']
  else if c = '\r' then ['\\', 'r']
  else if isCombining c || isUnprintable c then ['\\', 'u', '{'] ++ Hex.digits c.toNat ++ ['}']
  else [c]

/-- A name between double quotation marks. -/
def quoted (name : String) : String :=
  String.ofList ('"' :: name.toList.flatMap (quotedChar '"') ++ ['"'])

/-- A character between single quotation marks. -/
def quotedSingle (c : Char) : String :=
  String.ofList ('\'' :: quotedChar '\'' c ++ ['\''])

end StrictJson.Text
