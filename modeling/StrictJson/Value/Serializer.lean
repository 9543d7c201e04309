import StrictJson.Value.Writer

/-!
# Serializers

A value can be written in other ways than as compact text. It is then handed to a **serializer**,
which says what becomes of each kind of value, part by part: a container is handed over with what
has become of its items or members, in their order. What the result is, is the business of the
serializer.

## Main definitions

* `Serializer`, `Value.serialize`
* `Serializer.json`: the serializers that write JSON without white space, by how they lay out reals.
* `Serializer.interchange`
-/

namespace StrictJson

/-- A **serializer**: what becomes of a value of each kind. -/
structure Serializer (α : Type) where
  null : α
  boolean : Bool → α
  integer : Int64 → α
  real : Binary64 → α
  string : String → α
  array : List α → α
  object : List (String × α) → α

namespace Value

variable {α : Type}

mutual

/-- What a serializer makes of a value. -/
def serialize (S : Serializer α) : Value → α
  | null => S.null
  | boolean b => S.boolean b
  | integer n => S.integer n
  | real x => S.real x
  | string s => S.string s
  | array items => S.array (serializeItems S items)
  | object members => S.object (serializeMembers S members)

/-- What it makes of each item. -/
def serializeItems (S : Serializer α) : List Value → List α
  | [] => []
  | v :: vs => v.serialize S :: serializeItems S vs

/-- What it makes of the value of each member. -/
def serializeMembers (S : Serializer α) : List (String × Value) → List (String × α)
  | [] => []
  | (k, v) :: ms => (k, v.serialize S) :: serializeMembers S ms

end

end Value

namespace Serializer

/-- The text of a member. -/
def memberText (member : String × List Char) : List Char :=
  stringText member.1 ++ ':' :: member.2

/-- The serializer that writes **JSON** without white space, and reals as it is told. -/
def json (real : Binary64 → List Char) : Serializer (List Char) where
  null := ['n', 'u', 'l', 'l']
  boolean b := if b then ['t', 'r', 'u', 'e'] else ['f', 'a', 'l', 's', 'e']
  integer := integerText
  real := real
  string := stringText
  array items := '[' :: commaSeparated items ++ [']']
  object members := '{' :: commaSeparated (members.map memberText) ++ ['}']

/-- The **interchange writer**. -/
def interchange : Serializer (List Char) :=
  json (Binary64.text .interchange)

end Serializer

end StrictJson
