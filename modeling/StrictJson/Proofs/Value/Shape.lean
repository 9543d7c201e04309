import StrictJson.Proofs.Value.Members
import StrictJson.Value.Basic

/-!
# The Shape of a Value

Properties of a value that are about all of its parts at once: that each part has some property, and
how deep containers are nested. A reader that checks a text while it goes along establishes such
properties of the value that it builds, and a writer preserves them.

## Main definitions

* `Value.Every`: a property holds of a value and of all values inside it.
* `Value.Finite`, `Value.NulFree`: every real is finite; no string or key has the character of
  number zero.
* `Value.depth`: the greatest number of containers around one another.
* `Value.reread`: the value with null in place of every real that is not finite.

## Main results

* `Value.induction`: induction over values, with the items and the members of a container.
* `Value.reread_of_finite`: a value of finite reals stays as it is.
-/

namespace StrictJson.Value

/-- **Induction over values**: a container has the property if all values in it do. -/
theorem induction {P : Value → Prop} (null : P .null) (boolean : ∀ b, P (.boolean b))
    (integer : ∀ n, P (.integer n)) (real : ∀ x, P (.real x)) (string : ∀ s, P (.string s))
    (array : ∀ items, (∀ v ∈ items, P v) → P (.array items))
    (object : ∀ members, (∀ m ∈ members, P m.2) → P (.object members)) (v : Value) : P v :=
  @Value.rec P (fun items => ∀ v ∈ items, P v) (fun members => ∀ m ∈ members, P m.2)
    (fun m => P m.2) null boolean integer real string array object
    (List.forall_mem_nil _) (fun _ _ hv hvs => List.forall_mem_cons.2 ⟨hv, hvs⟩)
    (List.forall_mem_nil _) (fun _ _ hm hms => List.forall_mem_cons.2 ⟨hm, hms⟩)
    (fun _ _ hv => hv) v

/-! ### Properties of every part -/

mutual

/-- The property holds of a value and of **every** value inside it. -/
def Every (P : Value → Prop) : Value → Prop
  | .array items => P (.array items) ∧ EveryItem P items
  | .object members => P (.object members) ∧ EveryMember P members
  | .null => P .null
  | .boolean b => P (.boolean b)
  | .integer n => P (.integer n)
  | .real x => P (.real x)
  | .string s => P (.string s)

/-- The property holds of every value in a list and inside it. -/
def EveryItem (P : Value → Prop) : List Value → Prop
  | [] => True
  | v :: vs => v.Every P ∧ EveryItem P vs

/-- The property holds of every value under a key and inside it. -/
def EveryMember (P : Value → Prop) : List (String × Value) → Prop
  | [] => True
  | (_, v) :: ms => v.Every P ∧ EveryMember P ms

end

variable {P : Value → Prop}

theorem everyItem_iff {items : List Value} : EveryItem P items ↔ ∀ v ∈ items, v.Every P := by
  induction items with
  | nil => exact iff_of_true trivial (List.forall_mem_nil _)
  | cons v vs ih => rw [EveryItem, ih, List.forall_mem_cons]

theorem everyMember_iff {members : List (String × Value)} :
    EveryMember P members ↔ ∀ m ∈ members, m.2.Every P := by
  induction members with
  | nil => exact iff_of_true trivial (List.forall_mem_nil _)
  | cons m ms ih => rw [EveryMember, ih, List.forall_mem_cons]

/-- Every part of an array: the array itself and the parts of its items. -/
theorem every_array_iff {items : List Value} :
    (Value.array items).Every P ↔ P (.array items) ∧ ∀ v ∈ items, v.Every P := by
  rw [Every, everyItem_iff]

/-- Every part of an object: the object itself and the parts of its values. -/
theorem every_object_iff {members : List (String × Value)} :
    (Value.object members).Every P ↔ P (.object members) ∧ ∀ m ∈ members, m.2.Every P := by
  rw [Every, everyMember_iff]

/-- A real, if it is one, is finite. -/
def FiniteReal : Value → Prop
  | .real x => x.isFinite = true
  | _ => True

/-- A string, or the keys of an object, do not have the character of number zero. -/
def NulFreeText : Value → Prop
  | .string s => '\x00' ∉ s.toList
  | .object members => ∀ m ∈ members, '\x00' ∉ m.1.toList
  | _ => True

/-- The keys of an object are distinct. -/
def DistinctKeys : Value → Prop
  | .object members => (members.map Prod.fst).Nodup
  | _ => True

/-- **Every real is finite.** -/
def Finite (v : Value) : Prop := v.Every FiniteReal

/-- **No string and no key** has the character of number zero. -/
def NulFree (v : Value) : Prop := v.Every NulFreeText

theorem keysDistinctItems_iff {items : List Value} :
    KeysDistinctItems items ↔ ∀ v ∈ items, v.KeysDistinct := by
  induction items with
  | nil => exact iff_of_true trivial (List.forall_mem_nil _)
  | cons v vs ih => rw [KeysDistinctItems, ih, List.forall_mem_cons]

theorem keysDistinctMembers_iff {members : List (String × Value)} :
    KeysDistinctMembers members ↔ ∀ m ∈ members, m.2.KeysDistinct := by
  induction members with
  | nil => exact iff_of_true trivial (List.forall_mem_nil _)
  | cons m ms ih => rw [KeysDistinctMembers, ih, List.forall_mem_cons]

/-- Keys are distinct throughout a value if they are in every part of it. -/
theorem keysDistinct_iff_every {v : Value} : v.KeysDistinct ↔ v.Every DistinctKeys := by
  induction v using Value.induction with
  | null | boolean | integer | real | string => exact Iff.rfl
  | array items ih =>
      rw [KeysDistinct, keysDistinctItems_iff, every_array_iff]
      exact (forall₂_congr ih).trans (and_iff_right trivial).symm
  | object members ih =>
      rw [KeysDistinct, keysDistinctMembers_iff, every_object_iff]
      exact and_congr_right fun _ => forall₂_congr ih

/-! ### Depth -/

mutual

/-- The **depth** of a value: the greatest number of containers around one another. -/
def depth : Value → ℕ
  | .array items => depthItems items + 1
  | .object members => depthMembers members + 1
  | _ => 0

/-- The greatest depth of an item. -/
def depthItems : List Value → ℕ
  | [] => 0
  | v :: vs => max v.depth (depthItems vs)

/-- The greatest depth of a value under a key. -/
def depthMembers : List (String × Value) → ℕ
  | [] => 0
  | (_, v) :: ms => max v.depth (depthMembers ms)

end

/-- Members are no deeper than `n` if none of their values is. -/
theorem depthMembers_le_iff {members : List (String × Value)} {n : ℕ} :
    depthMembers members ≤ n ↔ ∀ m ∈ members, m.2.depth ≤ n := by
  induction members with
  | nil => exact iff_of_true (Nat.zero_le n) (List.forall_mem_nil _)
  | cons m ms ih => rw [depthMembers, Nat.max_le, ih, List.forall_mem_cons]

/-! ### Reals without a text -/

mutual

/-- The value as it is **read again** from its text, where a real that is not finite is null. -/
def reread : Value → Value
  | .real x => if x.isFinite then .real x else .null
  | .array items => .array (rereadItems items)
  | .object members => .object (rereadMembers members)
  | .null => .null
  | .boolean b => .boolean b
  | .integer n => .integer n
  | .string s => .string s

/-- The items as they are read again. -/
def rereadItems : List Value → List Value
  | [] => []
  | v :: vs => v.reread :: rereadItems vs

/-- The members as they are read again. -/
def rereadMembers : List (String × Value) → List (String × Value)
  | [] => []
  | (k, v) :: ms => (k, v.reread) :: rereadMembers ms

end

theorem rereadItems_eq_map (items : List Value) : rereadItems items = items.map reread := by
  induction items with
  | nil => rfl
  | cons v vs ih => rw [rereadItems, ih, List.map_cons]

theorem rereadMembers_eq_map (members : List (String × Value)) :
    rereadMembers members = members.map fun m => (m.1, m.2.reread) := by
  induction members with
  | nil => rfl
  | cons m ms ih => rw [rereadMembers, ih, List.map_cons]

/-- The keys stay as they are. -/
theorem map_fst_rereadMembers (members : List (String × Value)) :
    (rereadMembers members).map Prod.fst = members.map Prod.fst := by
  rw [rereadMembers_eq_map, List.map_map]
  rfl

/-- **A value of finite reals is read again as it is.** -/
theorem reread_of_finite {v : Value} (h : v.Finite) : v.reread = v := by
  induction v using Value.induction with
  | null | boolean | integer | string => rfl
  | real x => exact if_pos h
  | array items ih =>
      have hitems := (every_array_iff.1 h).2
      have hmap : items.map reread = items.map id :=
        List.map_congr_left fun v hv => ih v hv (hitems v hv)
      rw [reread, rereadItems_eq_map, hmap, List.map_id]
  | object members ih =>
      have hmembers := (every_object_iff.1 h).2
      have hmap : members.map (fun m => (m.1, m.2.reread)) = members.map id :=
        List.map_congr_left fun m hm => congrArg (Prod.mk m.1) (ih m hm (hmembers m hm))
      rw [reread, rereadMembers_eq_map, hmap, List.map_id]

end StrictJson.Value
