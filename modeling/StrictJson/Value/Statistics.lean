import StrictJson.Value.Basic

/-!
# Statistics of a Tree

How many nodes of each kind a value has and how deep its containers are nested, gathered in one walk
over the tree.
-/

namespace StrictJson

/-- The counts of nodes by kind, and the greatest number of containers around one another. -/
structure Statistics where
  nulls : Nat := 0
  booleans : Nat := 0
  integers : Nat := 0
  reals : Nat := 0
  strings : Nat := 0
  arrays : Nat := 0
  objects : Nat := 0
  depth : Nat := 0
  deriving DecidableEq, Repr

namespace Statistics

/-- The number of nodes of a kind. -/
def count (s : Statistics) : Kind → Nat
  | .null => s.nulls
  | .boolean => s.booleans
  | .integer => s.integers
  | .real => s.reals
  | .string => s.strings
  | .array => s.arrays
  | .object => s.objects

/-- The number of all nodes. -/
def total (s : Statistics) : Nat :=
  s.nulls + s.booleans + s.integers + s.reals + s.strings + s.arrays + s.objects

/-- Takes note that containers are nested to a depth. -/
def reach (depth : Nat) (s : Statistics) : Statistics :=
  { s with depth := max s.depth depth }

mutual

/-- Adds a value that stands inside `level` containers. -/
def visit (level : Nat) (s : Statistics) (v : Value) : Statistics :=
  let s := s.reach level
  match v with
  | .null => { s with nulls := s.nulls + 1 }
  | .boolean _ => { s with booleans := s.booleans + 1 }
  | .integer _ => { s with integers := s.integers + 1 }
  | .real _ => { s with reals := s.reals + 1 }
  | .string _ => { s with strings := s.strings + 1 }
  | .array items =>
    visitItems (level + 1) (reach (level + 1) { s with arrays := s.arrays + 1 }) items
  | .object members =>
    visitMembers (level + 1) (reach (level + 1) { s with objects := s.objects + 1 }) members

/-- Adds the items of an array. -/
def visitItems (level : Nat) (s : Statistics) : List Value → Statistics
  | [] => s
  | v :: vs => visitItems level (visit level s v) vs

/-- Adds the values of the members of an object. -/
def visitMembers (level : Nat) (s : Statistics) : List (String × Value) → Statistics
  | [] => s
  | (_, v) :: ms => visitMembers level (visit level s v) ms

end

/-- The statistics of a value. -/
def collect (v : Value) : Statistics :=
  visit 0 {} v

end Statistics

end StrictJson
