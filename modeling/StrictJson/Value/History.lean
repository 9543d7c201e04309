import StrictJson.Value.Members

/-!
# Operations on an Object

What can be done to an object, one operation after the other. An operation answers with the value
that it displaced, if it displaced one, or fails. One that fails leaves the members as they are, and
the next operation finds them so.

## Main definitions

* `Members.Operation`, `Members.Operation.apply`: an operation and its outcome.
* `Members.run`: the members after some operations.
-/

namespace StrictJson.Members

/-- An **operation** on the members of an object. -/
inductive Operation (α : Type) where
  /-- Collects pairs into new members that take the place of the old ones. -/
  | collect (pairs : List (String × α))
  /-- Writes a member, new or not. -/
  | insert (key : String) (value : α)
  /-- Writes a member that must be new. -/
  | tryInsert (key : String) (value : α)
  /-- Takes out a member. -/
  | remove (key : String)
  /-- Overwrites a member that must be there. -/
  | assign (key : String) (value : α)
  /-- Writes pairs one after the other. -/
  | extend (pairs : List (String × α))
  /-- Visits all members and overwrites some of them. -/
  | rewrite (f : String → α → Option α)
  /-- Takes out all members. -/
  | clear

variable {α : Type}

namespace Operation

/-- The outcome of an operation: the value that it displaced, if it displaced one, and the members
as they are afterwards. -/
def apply (members : List (String × α)) :
    Operation α → Except AccessFault (Option α × List (String × α))
  | collect pairs => .ok (none, ofPairs pairs)
  | insert key value => .ok (members.lookup key, Members.insert key value members)
  | tryInsert key value => (Members.tryInsert key value members).map (none, ·)
  | remove key => (Members.remove key members).map (·.map some id)
  | assign key value => (Members.assign key value members).map (none, ·)
  | extend pairs => .ok (none, Members.extend members pairs)
  | rewrite f => .ok (none, Members.rewrite f members)
  | clear => .ok (none, [])

/-- The members after an operation. If it fails they are the same as before. -/
def after (members : List (String × α)) (op : Operation α) : List (String × α) :=
  match op.apply members with
  | .ok (_, new) => new
  | .error _ => members

end Operation

/-- The members after some operations. -/
def run (members : List (String × α)) (ops : List (Operation α)) : List (String × α) :=
  ops.foldl Operation.after members

end StrictJson.Members
