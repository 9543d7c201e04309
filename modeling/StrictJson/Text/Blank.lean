/-!
# Blank Characters

The characters with the property White_Space of Unicode. Hexadecimal input may be broken up by
them at any place.

A document is stricter: between its tokens only four bytes count as white space
(`StrictJson.Syntax.isSpace`).
-/

namespace StrictJson.Text

/-- Whether a character is **blank**: the five controls from the tab to the carriage return, the
space, and the separators of other scripts. The zero-width space is not among them. -/
def isBlank (c : Char) : Bool :=
  let n := c.toNat
  (0x9 ≤ n && n ≤ 0xd) || n == 0x20 || n == 0x85 || n == 0xa0 || n == 0x1680 ||
    (0x2000 ≤ n && n ≤ 0x200a) || n == 0x2028 || n == 0x2029 || n == 0x202f || n == 0x205f ||
    n == 0x3000

end StrictJson.Text
