import StrictJson.Value.Basic

/-!
# Scalars and Tags

The binary format holds single scalars, each introduced by a **tag** byte. Tags are not kinds of
values: there is one for an error code, which is no value, and none for arrays and objects.

Whatever can be packed says what scalar it is. A `Source` is one of the things that can be offered;
those that are arrays or objects are no scalar.

## Main definitions

* `Tag`, `Tag.byte`, `Tag.ofByte?`
* `Scalar`, `Scalar.tag`
* `Source`, `Source.scalar?`
-/

namespace StrictJson.Packed

/-! ### Tags -/

/-- A **tag**: the kind of a packed scalar. -/
inductive Tag where
  | integer
  | real
  | boolean
  | string
  | null
  | error
  deriving DecidableEq, Repr

namespace Tag

/-- The byte that stands for a tag. -/
def byte : Tag → UInt8
  | integer => 0x69
  | real => 0x64
  | boolean => 0x62
  | string => 0x73
  | null => 0x4e
  | error => 0x45

/-- The tag that a byte stands for. -/
def ofByte? (b : UInt8) : Option Tag :=
  if b = 0x69 then some integer
  else if b = 0x64 then some real
  else if b = 0x62 then some boolean
  else if b = 0x73 then some string
  else if b = 0x4e then some null
  else if b = 0x45 then some error
  else none

/-- The name of a tag in messages. -/
def name : Tag → String
  | integer => "integer"
  | real => "real"
  | boolean => "boolean"
  | string => "string"
  | null => "null"
  | error => "error"

/-- The tag under which values of a kind are packed. -/
def ofKind? : Kind → Option Tag
  | .null => some null
  | .boolean => some boolean
  | .integer => some integer
  | .real => some real
  | .string => some string
  | .array | .object => none

@[simp] theorem ofByte?_byte (tag : Tag) : ofByte? tag.byte = some tag := by
  cases tag <;> rfl

/-- A byte stands for at most one tag. -/
theorem byte_of_ofByte? {b : UInt8} {tag : Tag} (h : ofByte? b = some tag) : tag.byte = b := by
  unfold ofByte? at h
  repeat' split at h
  all_goals simp only [Option.some.injEq, reduceCtorEq] at h
  all_goals subst h
  all_goals simp_all [byte]

end Tag

/-! ### Scalars -/

/-- A **scalar**: what one packed unit holds. A text can also be offered as raw bytes, which are
checked when they are packed. -/
inductive Scalar where
  | null
  | boolean (b : Bool)
  | integer (n : Int64)
  | real (x : Binary64)
  | text (s : String)
  | bytes (raw : List UInt8)
  | error (code : ErrorCode)
  deriving DecidableEq, Repr

/-- The tag of a scalar. -/
def Scalar.tag : Scalar → Tag
  | null => .null
  | boolean _ => .boolean
  | integer _ => .integer
  | real _ => .real
  | text _ | bytes _ => .string
  | error _ => .error

/-- The scalar that a value is, unless it is an array or an object. -/
def Scalar.ofValue? : Value → Option Scalar
  | .null => some null
  | .boolean b => some (boolean b)
  | .integer n => some (integer n)
  | .real x => some (real x)
  | .string s => some (text s)
  | .array _ | .object _ => none

/-! ### Sources -/

/-- A **source**: something that is offered for packing. -/
inductive Source where
  | integer (n : Int64)
  | smallInteger (n : Int32)
  | real (x : Binary64)
  | boolean (b : Bool)
  | text (s : String)
  | bytes (raw : List UInt8)
  | unit
  | error (code : ErrorCode)
  /-- Something that may be missing, and is. -/
  | none
  /-- Something that may be missing, and is not. -/
  | some (source : Source)
  | value (v : Value)

/-- The scalar that a source is, if it is one. What is missing is null. -/
def Source.scalar? : Source → Option Scalar
  | integer n => Option.some (.integer n)
  | smallInteger n => Option.some (.integer n.toInt64)
  | real x => Option.some (.real x)
  | boolean b => Option.some (.boolean b)
  | text s => Option.some (.text s)
  | bytes raw => Option.some (.bytes raw)
  | unit => Option.some .null
  | error code => Option.some (.error code)
  | none => Option.some .null
  | some source => source.scalar?
  | value v => Scalar.ofValue? v

end StrictJson.Packed
