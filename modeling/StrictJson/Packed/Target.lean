import StrictJson.Packed.Reader

/-!
# Targets

What a reader wants from a unit. A **target** is a type of results together with the scalars that it
accepts. An optional target takes null for a missing result and leaves every other scalar to the
target inside; a value takes every scalar except an error code, which it fails with.

## Main definitions

* `Target`, `Target.Carrier`, `Target.ofScalar`
* `unpack`: one unit at a position.
* `unpackAll`: the units of a whole buffer.
-/

namespace StrictJson.Packed

/-- What is wanted from a unit. -/
inductive Target where
  | integer
  | real
  | boolean
  | text
  | null
  | error
  | value
  | optional (inner : Target)
  deriving DecidableEq, Repr

namespace Target

/-- The type that a target produces. -/
def Carrier : Target → Type
  | integer => Int64
  | real => Binary64
  | boolean => Bool
  | text => String
  | null => Unit
  | error => ErrorCode
  | value => Value
  | optional inner => Option inner.Carrier

/-- The value that a scalar is, unless it is an error code. -/
def valueOfScalar : Scalar → Except UnpackFault Value
  | .null => .ok .null
  | .boolean b => .ok (.boolean b)
  | .integer n => .ok (.integer n)
  | .real x => .ok (.real x)
  | .text s => .ok (.string s)
  | .bytes raw =>
    match Utf8.decode? raw with
    | some chars => .ok (.string (String.ofList chars))
    | none => .error .malformedBytes
  | .error code => .error (.carried code)

/-- What a target makes of a scalar. -/
def ofScalar : (target : Target) → Scalar → Except UnpackFault target.Carrier
  | integer, .integer n => .ok n
  | integer, s => .error (.wrongUnit .integer s.tag)
  | real, .real x => .ok x
  | real, s => .error (.wrongUnit .real s.tag)
  | boolean, .boolean b => .ok b
  | boolean, s => .error (.wrongUnit .boolean s.tag)
  | text, .text t => .ok t
  | text, s => .error (.wrongUnit .string s.tag)
  | null, .null => .ok ()
  | null, s => .error (.wrongUnit .null s.tag)
  | error, .error code => .ok code
  | error, s => .error (.wrongUnit .error s.tag)
  | value, s => valueOfScalar s
  | optional _, .null => .ok none
  | optional inner, s =>
    match inner.ofScalar s with
    | .ok x => .ok (some x)
    | .error e => .error e

end Target

/-- Reads the unit at a position for a target. The new position is the one past the unit; on failure
there is none, so a caller stays where it was. -/
def unpack (target : Target) (buffer : List UInt8) (position : Nat) :
    Except UnpackFault (target.Carrier × Nat) :=
  match readUnit buffer position with
  | .error e => .error e
  | .ok (s, next) =>
    match target.ofScalar s with
    | .ok x => .ok (x, next)
    | .error e => .error e

/-- A unit read for a target is not empty and lies within the buffer. -/
theorem unpack_progress {target : Target} {buffer : List UInt8} {position next : Nat}
    {x : target.Carrier} (h : unpack target buffer position = .ok (x, next)) :
    position < next ∧ next ≤ buffer.length := by
  unfold unpack at h
  split at h
  · simp at h
  · next s q hq =>
    split at h
    · simp only [Except.ok.injEq, Prod.mk.injEq] at h
      exact h.2 ▸ readUnit_progress hq
    · simp at h

/-- Reads the units from a position to the end of the buffer. -/
def unpackFrom (target : Target) (buffer : List UInt8) (position : Nat) :
    Except UnpackFault (List target.Carrier) :=
  if position < buffer.length then
    match _h : unpack target buffer position with
    | .error e => .error e
    | .ok (x, next) =>
      match unpackFrom target buffer next with
      | .ok xs => .ok (x :: xs)
      | .error e => .error e
  else .ok []
termination_by buffer.length - position
decreasing_by
  have := unpack_progress ‹_›
  omega

/-- Reads the units of a whole buffer. -/
def unpackAll (target : Target) (buffer : List UInt8) : Except UnpackFault (List target.Carrier) :=
  unpackFrom target buffer 0

end StrictJson.Packed
