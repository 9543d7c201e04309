import StrictJson.Value.Basic

/-!
# Items of an Array

Access to the places of a list with a report of the places that it does not have. An edit answers
with what it took out and the list as it is afterwards.
-/

namespace StrictJson.Items

variable {α : Type}

/-- The item at a place. -/
def get (i : Nat) (items : List α) : Except AccessFault α :=
  match items[i]? with
  | some x => .ok x
  | none => .error (.indexOutOfRange i items.length)

/-- Puts an item in the place of another one, which is given back. -/
def set (i : Nat) (x : α) (items : List α) : Except AccessFault (α × List α) :=
  match items[i]? with
  | some old => .ok (old, items.set i x)
  | none => .error (.indexOutOfRange i items.length)

/-- Puts an item before the place `i`. The place past the last item appends. -/
def insert (i : Nat) (x : α) (items : List α) : Except AccessFault (List α) :=
  if i ≤ items.length then .ok (items.insertIdx i x) else .error (.indexOutOfRange i items.length)

/-- Takes out the item at a place. The items after it move up. -/
def remove (i : Nat) (items : List α) : Except AccessFault (α × List α) :=
  match items[i]? with
  | some old => .ok (old, items.eraseIdx i)
  | none => .error (.indexOutOfRange i items.length)

/-- Takes out the last item. -/
def pop? (items : List α) : Option (α × List α) :=
  match items.getLast? with
  | some last => some (last, items.dropLast)
  | none => none

end StrictJson.Items
