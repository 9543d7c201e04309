import StrictJson.Value.Basic

/-!
# Equality of Values

Two values are equal when they have the same kind and content. The members of objects are compared
as maps, so their order does not count. Reals are compared as numbers: the two zeros are equal and a
not-a-number differs even from itself. An integer never equals a real.
-/

namespace StrictJson.Value

mutual

/-- **Equality** of values, `==`. -/
def equal : Value → Value → Bool
  | null, null => true
  | boolean a, boolean b => a == b
  | integer a, integer b => a == b
  | real a, real b => a.equal b
  | string a, string b => a == b
  | array a, array b => equalItems a b
  | object a, object b => a.length == b.length && equalMembers a b
  | _, _ => false

/-- Equality of items, place by place. -/
def equalItems : List Value → List Value → Bool
  | [], [] => true
  | v :: vs, w :: ws => v.equal w && equalItems vs ws
  | _, _ => false

/-- Whether every member on the left is found with an equal value on the right. -/
def equalMembers : List (String × Value) → List (String × Value) → Bool
  | [], _ => true
  | (k, v) :: ms, ns =>
    (match ns.lookup k with
      | some w => v.equal w
      | none => false) && equalMembers ms ns

end

instance : BEq Value := ⟨equal⟩

end StrictJson.Value
