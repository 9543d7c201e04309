import StrictJson.Binary64.Nearest
import StrictJson.Text.Quoted
import StrictJson.Error

/-!
# Values

The tree of a JSON document. Whole numbers that fit 64 bits are integers and all others reals, and
the two are never mixed up. The members of an object stand in the order of insertion.

A reader that asks a value for something it does not hold gets an `AccessFault` and never a
substitute.

## Main definitions

* `Kind`, `Value`, `Value.kind`
* `AccessFault`: why something was not found in a value.
* `Value.asBoolean` and its companions: the content of a value of a given kind.
* `Value.KeysDistinct`: no object of the tree has two members of one name.
-/

namespace StrictJson

/-- The **kind** of a value. -/
inductive Kind where
  | null
  | boolean
  | integer
  | real
  | string
  | array
  | object
  deriving DecidableEq, Repr

namespace Kind

/-- All kinds, in the order in which they are listed. -/
def all : List Kind := [null, boolean, integer, real, string, array, object]

/-- The name of a kind in messages and statistics. -/
def name : Kind → String
  | null => "null"
  | boolean => "boolean"
  | integer => "integer"
  | real => "real"
  | string => "string"
  | array => "array"
  | object => "object"

end Kind

/-- A **value**: the tree that a document stands for. -/
inductive Value where
  | null
  | boolean (b : Bool)
  | integer (n : Int64)
  | real (x : Binary64)
  | string (s : String)
  | array (items : List Value)
  | object (members : List (String × Value))
  deriving Inhabited, Repr

/-- What a reader may ask a value for: the content of one kind, or a number of either kind. -/
inductive Wanted where
  | kind (k : Kind)
  | number
  deriving DecidableEq, Repr

/-- The name of what was asked for. -/
def Wanted.name : Wanted → String
  | kind k => k.name
  | number => "number"

/-- The reasons why a value does not hold what was asked for, or does not take an edit. -/
inductive AccessFault where
  /-- The value is of another kind. -/
  | wrongType (wanted : Wanted) (found : Kind)
  /-- The array has no such place. -/
  | indexOutOfRange (index length : Nat)
  /-- The object has no such member. -/
  | noMember (key : String)
  /-- The object already has such a member. -/
  | duplicateMember (key : String)
  deriving DecidableEq, Repr

/-- Reports a failed access. None of them has a place in a text. -/
def AccessFault.toError : AccessFault → Error
  | wrongType wanted found =>
    { code := .wrongType, detail := "expected " ++ wanted.name ++ ", found " ++ found.name }
  | indexOutOfRange index length =>
    { code := .indexOutOfRange,
      detail := "index " ++ toString index ++ " out of range for array of length " ++
        toString length }
  | noMember key => { code := .itemNotFound, detail := "no member named " ++ Text.quoted key }
  | duplicateMember key =>
    { code := .duplicateKey, detail := "duplicate member " ++ Text.quoted key }

namespace Value

/-- The kind of a value. -/
def kind : Value → Kind
  | null => .null
  | boolean _ => .boolean
  | integer _ => .integer
  | real _ => .real
  | string _ => .string
  | array _ => .array
  | object _ => .object

/-- Whether a value is a number of either kind. -/
def isNumber : Value → Bool
  | integer _ | real _ => true
  | _ => false

/-! ### Content by kind -/

/-- The truth value of a boolean. -/
def asBoolean : Value → Except AccessFault Bool
  | boolean b => .ok b
  | v => .error (.wrongType (.kind .boolean) v.kind)

/-- The number of an integer. -/
def asInteger : Value → Except AccessFault Int64
  | integer n => .ok n
  | v => .error (.wrongType (.kind .integer) v.kind)

/-- The number of a real. -/
def asReal : Value → Except AccessFault Binary64
  | real x => .ok x
  | v => .error (.wrongType (.kind .real) v.kind)

/-- The number of a real, or the real nearest to an integer. -/
def asNumber : Value → Except AccessFault Binary64
  | integer n => .ok (.ofInt n.toInt)
  | real x => .ok x
  | v => .error (.wrongType .number v.kind)

/-- The text of a string. -/
def asString : Value → Except AccessFault String
  | string s => .ok s
  | v => .error (.wrongType (.kind .string) v.kind)

/-- The items of an array. -/
def asItems : Value → Except AccessFault (List Value)
  | array items => .ok items
  | v => .error (.wrongType (.kind .array) v.kind)

/-- The members of an object. -/
def asMembers : Value → Except AccessFault (List (String × Value))
  | object members => .ok members
  | v => .error (.wrongType (.kind .object) v.kind)

/-! ### Distinct keys -/

mutual

/-- The **keys are distinct** in every object of a tree. All values that the library produces have
this property; it is the one that makes a list of members a map. -/
def KeysDistinct : Value → Prop
  | array items => KeysDistinctItems items
  | object members => (members.map Prod.fst).Nodup ∧ KeysDistinctMembers members
  | _ => True

/-- The keys are distinct in every item. -/
def KeysDistinctItems : List Value → Prop
  | [] => True
  | v :: vs => v.KeysDistinct ∧ KeysDistinctItems vs

/-- The keys are distinct in the value of every member. -/
def KeysDistinctMembers : List (String × Value) → Prop
  | [] => True
  | (_, v) :: ms => v.KeysDistinct ∧ KeysDistinctMembers ms

end

end Value

end StrictJson
