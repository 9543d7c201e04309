import StrictJson.Value.Items
import StrictJson.Value.Members

/-!
# Places in a Tree

A place in a tree is reached by a path of steps, each into a member of an object or an item of an
array. An edit at a place takes effect at once or not at all: if a step of the path or the edit
itself fails, the error says so and no changed tree exists.

## Main definitions

* `Step`, `Value.follow`: what stands at a place.
* `Value.editAt`: a change at a place, with an answer.
* `Edit`, `Edit.apply`: the changes that arrays, objects and values offer.
-/

namespace StrictJson

/-- A **step** from a container to one of its children. -/
inductive Step where
  /-- Into the member with the key. -/
  | member (key : String)
  /-- Into the item at the index. -/
  | item (index : Nat)
  deriving DecidableEq, Repr

namespace Value

/-- The child that a step leads to. -/
def child (v : Value) : Step → Except AccessFault Value
  | .member key =>
    match v.asMembers with
    | .ok members => Members.get key members
    | .error e => .error e
  | .item i =>
    match v.asItems with
    | .ok items => Items.get i items
    | .error e => .error e

/-- The value with the child of an existing step replaced. -/
def withChild (v : Value) (step : Step) (new : Value) : Value :=
  match step, v with
  | .member key, object members => object (Members.insert key new members)
  | .item i, array items => array (items.set i new)
  | _, _ => v

/-- The value at the end of a path. -/
def follow (v : Value) : List Step → Except AccessFault Value
  | [] => .ok v
  | step :: path =>
    match v.child step with
    | .ok w => w.follow path
    | .error e => .error e

/-- Applies `f` at the end of a path and gives its answer and the tree as it is afterwards. -/
def editAt {β : Type} (f : Value → Except AccessFault (β × Value)) (v : Value) :
    List Step → Except AccessFault (β × Value)
  | [] => f v
  | step :: path =>
    match v.child step with
    | .error e => .error e
    | .ok w =>
      match editAt f w path with
      | .error e => .error e
      | .ok (answer, new) => .ok (answer, v.withChild step new)

end Value

/-- An **edit** of the value at a place. -/
inductive Edit where
  /-- Puts another value in its place. -/
  | replace (new : Value)
  /-- Appends an item to an array. -/
  | push (item : Value)
  /-- Puts an item before a place of an array. -/
  | insert (index : Nat) (item : Value)
  /-- Replaces an item of an array. -/
  | set (index : Nat) (item : Value)
  /-- Takes an item out of an array. -/
  | remove (index : Nat)
  /-- Writes a member of an object. -/
  | put (key : String) (value : Value)
  /-- Writes a new member of an object. -/
  | tryPut (key : String) (value : Value)
  /-- Takes a member out of an object. -/
  | delete (key : String)
  deriving Repr

namespace Edit

/-- Changes the items of an array, or reports that there is none. -/
def onItems (f : List Value → Except AccessFault (Option Value × List Value)) (v : Value) :
    Except AccessFault (Option Value × Value) :=
  match v.asItems with
  | .error e => .error e
  | .ok items =>
    match f items with
    | .error e => .error e
    | .ok (old, new) => .ok (old, .array new)

/-- Changes the members of an object, or reports that there is none. -/
def onMembers
    (f : List (String × Value) → Except AccessFault (Option Value × List (String × Value)))
    (v : Value) : Except AccessFault (Option Value × Value) :=
  match v.asMembers with
  | .error e => .error e
  | .ok members =>
    match f members with
    | .error e => .error e
    | .ok (old, new) => .ok (old, .object new)

/-- The outcome of an edit: the value that it displaced, if it displaced one, and the value that
stands at the place afterwards. -/
def apply : Edit → Value → Except AccessFault (Option Value × Value)
  | replace new, _ => .ok (none, new)
  | push item, v => onItems (fun items => .ok (none, items ++ [item])) v
  | insert i item, v => onItems (fun items => (Items.insert i item items).map (none, ·)) v
  | set i item, v => onItems (fun items => (Items.set i item items).map (·.map some id)) v
  | remove i, v => onItems (fun items => (Items.remove i items).map (·.map some id)) v
  | put key value, v =>
    onMembers (fun members => .ok (members.lookup key, Members.insert key value members)) v
  | tryPut key value, v =>
    onMembers (fun members => (Members.tryInsert key value members).map (none, ·)) v
  | delete key, v => onMembers (fun members => (Members.remove key members).map (·.map some id)) v

end Edit

/-- Carries out an edit at the end of a path. -/
def Value.edit (v : Value) (path : List Step) (e : Edit) :
    Except AccessFault (Option Value × Value) :=
  v.editAt e.apply path

end StrictJson
