import StrictJson.Value.Members
import StrictJson.Value.Serializer

/-!
# Interchange Trees

The tree in which values are handed to other software. It differs from a `Value` in its numbers
alone: whole numbers reach up to the greatest unsigned word, and reals are finite. So a value that
is not a finite number becomes null on the way out, and a word too large for an integer becomes the
nearest real on the way in. Nothing else changes. On either way the members are collected one by
one, and as their keys are distinct they keep their order.

## Main definitions

* `Number`, `Tree`
* `Tree.ofValue`, `Tree.toValue`
-/

namespace StrictJson.Exchange

/-- A **number** of an interchange tree. -/
inductive Number where
  /-- A whole number that is an integer. -/
  | integer (n : Int64)
  /-- A whole number greater than every integer. -/
  | large (n : UInt64) (beyond : 0x8000000000000000 ≤ n.toNat)
  /-- A finite real. -/
  | real (x : Binary64) (finite : x.isFinite = true)
  deriving DecidableEq, Repr

namespace Number

/-- The number that an unsigned word is. -/
def ofWord (n : UInt64) : Number :=
  if h : 0x8000000000000000 ≤ n.toNat then .large n h else .integer n.toInt64

/-- The number that a real is, if it is finite. -/
def ofReal? (x : Binary64) : Option Number :=
  if h : x.isFinite = true then some (.real x h) else none

end Number

/-- An **interchange tree**. -/
inductive Tree where
  | null
  | boolean (b : Bool)
  | number (n : Number)
  | string (s : String)
  | array (items : List Tree)
  | object (members : List (String × Tree))
  deriving Inhabited, Repr

namespace Tree

mutual

/-- The tree that stands for a value. -/
def ofValue : Value → Tree
  | .null => .null
  | .boolean b => .boolean b
  | .integer n => .number (.integer n)
  | .real x =>
    match Number.ofReal? x with
    | some n => .number n
    | none => .null
  | .string s => .string s
  | .array items => .array (ofItems items)
  | .object members => .object (Members.ofPairs (ofMembers members))

/-- The trees that stand for items. -/
def ofItems : List Value → List Tree
  | [] => []
  | v :: vs => ofValue v :: ofItems vs

/-- The keys with the trees that stand for their values. -/
def ofMembers : List (String × Value) → List (String × Tree)
  | [] => []
  | (k, v) :: ms => (k, ofValue v) :: ofMembers ms

end

/-- The value that stands for a number. -/
def numberValue : Number → Value
  | .integer n => .integer n
  | .large n _ => .real (.ofInt n.toNat)
  | .real x _ => .real x

mutual

/-- The value that stands for a tree. -/
def toValue : Tree → Value
  | .null => .null
  | .boolean b => .boolean b
  | .number n => numberValue n
  | .string s => .string s
  | .array items => .array (toItems items)
  | .object members => .object (Members.ofPairs (toMembers members))

/-- The values that stand for items. -/
def toItems : List Tree → List Value
  | [] => []
  | t :: ts => t.toValue :: toItems ts

/-- The keys with the values that stand for their trees. -/
def toMembers : List (String × Tree) → List (String × Value)
  | [] => []
  | (k, t) :: ms => (k, t.toValue) :: toMembers ms

end

end Tree

end StrictJson.Exchange

namespace StrictJson

/-- The text of a value as the interchange writer lays it out. -/
def Value.interchangeText (v : Value) : String :=
  String.ofList (v.serialize .interchange)

end StrictJson
