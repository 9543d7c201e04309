import StrictJson.Command.Run
import StrictJson.Machine.Units

/-!
# Commands over a Buffer

The two loops of the command line: through the units of a buffer, of which each is shown, and
through the characters of a buffer, which are counted.

## Main definitions

* `unitValue`, `unitLines`: the value shown for a unit, and the lines for all units.
* `utf8Text`: the report on the UTF-8 of a buffer.
-/

namespace StrictJson.Machine

open Command (Fault)

/-! ### Units -/

/-- The value shown for the unit at a position, which moves on past it. The unit is read for an
error code first, and again for a value if it holds something else. -/
def unitValue (b : Buffer) (position : UInt64) : Run (Except Fault Value × UInt64) := do
  match ← unpack .error b position with
  | (.ok code, next) => return (.ok (Command.errorValue code), next)
  | (.error (.wrongUnit _ _), position) =>
    match ← unpack .value b position with
    | (.ok v, next) => return (.ok v, next)
    | (.error e, next) => return (.error (.notUnit position.toNat e), next)
  | (.error e, next) => return (.error (.notUnit position.toNat e), next)

/-- The values of the units of a buffer, a line for each. -/
def unitLines (b : Buffer) : Run (Except Fault (List Char)) :=
  b.readAll (unitValue b) fun v => v.render .compact ++ ['\n']

/-! ### UTF-8 -/

/-- Decodes and counts a character, or ends. -/
def countNext (b : Buffer) : UInt64 × UInt64 → Run (Turn (UInt64 × UInt64) (UInt64 × UInt64))
  | (index, count) => do
    match ← decode b index with
    | (some _, next) => return .go (next, ← add count 1)
    | (none, index) => return .stop (index, count)

/-- The report on a buffer that is well-formed UTF-8. -/
def utf8Text (b : Buffer) : Run (Except Fault (List Char)) := do
  let (index, count) ← b.loop (countNext b) (0, 0)
  if index < b.size then return .error (.malformed index.toNat)
  else
    return .ok ("valid UTF-8: ".toList ++ Nat.toDigits 10 b.size.toNat ++ " bytes, ".toList ++
      Nat.toDigits 10 count.toNat ++ " code points\n".toList)

end StrictJson.Machine
