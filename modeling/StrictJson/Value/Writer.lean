import StrictJson.Binary64.Text
import StrictJson.Utf8.Basic
import StrictJson.Value.Basic

/-!
# Compact Text

The text of a value without any white space, members in their order. Strings are written as they
are, except that the quotation mark, the backslash and the controls are escaped in the shortest way.
Integers are exact, and reals follow a `RealStyle`.

## Main definitions

* `Value.render`: the characters of a value in a style.
* `Value.dump`, `Value.dumpBytes`: the compact text and its bytes.
-/

namespace StrictJson

/-! ### Strings -/

/-- One character inside a string of a document. -/
def escapedChar (c : Char) : List Char :=
  if c = '"' then ['\\', '"']
  else if c = '\\' then ['\\', '\\']
  else if c = '\n' then ['\\', 'n']
  else if c = '\r' then ['\\', 'r']
  else if c = '\t' then ['\\', 't']
  else if c = '\x08' then ['\\', 'b']
  else if c = '\x0c' then ['\\', 'f']
  else if c.toNat < 0x20 then ['\\', 'u'] ++ Hex.padded 4 c.toNat
  else [c]

/-- A string of a document with its quotation marks. -/
def stringText (s : String) : List Char :=
  '"' :: s.toList.flatMap escapedChar ++ ['"']

/-! ### Numbers -/

/-- The decimal text of an integer. -/
def integerText (n : Int64) : List Char :=
  (if n.toInt < 0 then ['-'] else []) ++ Nat.toDigits 10 n.toInt.natAbs

/-! ### Values -/

/-- Some texts with commas between them. -/
def commaSeparated : List (List Char) → List Char
  | [] => []
  | [t] => t
  | t :: u :: ts => t ++ ',' :: commaSeparated (u :: ts)

namespace Value

mutual

/-- The characters of a value, with reals in the given style. -/
def render (style : RealStyle) : Value → List Char
  | null => ['n', 'u', 'l', 'l']
  | boolean true => ['t', 'r', 'u', 'e']
  | boolean false => ['f', 'a', 'l', 's', 'e']
  | integer n => integerText n
  | real x => x.text style
  | string s => stringText s
  | array items => '[' :: commaSeparated (renderItems style items) ++ [']']
  | object members => '{' :: commaSeparated (renderMembers style members) ++ ['}']

/-- The characters of each item. -/
def renderItems (style : RealStyle) : List Value → List (List Char)
  | [] => []
  | v :: vs => v.render style :: renderItems style vs

/-- The characters of each member. -/
def renderMembers (style : RealStyle) : List (String × Value) → List (List Char)
  | [] => []
  | (k, v) :: ms => (stringText k ++ ':' :: v.render style) :: renderMembers style ms

end

/-- The **compact text** of a value. -/
def dump (v : Value) : String :=
  String.ofList (v.render .compact)

/-- The bytes of the compact text. -/
def dumpBytes (v : Value) : List UInt8 :=
  Utf8.encodeChars (v.render .compact)

end Value

end StrictJson
