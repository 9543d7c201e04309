import StrictJson.Exchange.Tree
import StrictJson.Proofs.Binary64.Rounding
import StrictJson.Proofs.Value.Members
import StrictJson.Proofs.Value.Shape

/-!
# Interchange Trees and Back

A value and an interchange tree differ in their numbers alone, so a way there and back can only
change numbers. A value comes back with null for every real that is not finite. A tree comes back
with the nearest real for every whole number that is too large for an integer. What has made the way
once is not changed by a second one.

Members are collected anew on each way. Their keys are distinct, so each of them goes to the end and
they keep their order.

## Main definitions

* `Number.held`, `Tree.held`: what is left of a number, or a tree, that was a value in between.
* `Tree.KeysDistinct`: no object of the tree has two members of one name.

## Main results

* `toValue_ofValue`: a value comes back as it is read again from its text.
* `ofValue_toValue`: a tree comes back as it is held.
* `Number.isNearest_ofInt`: the real in the place of a large number is the nearest one.
* `roundTrip`: the three of them, and that a second way changes nothing.
-/

namespace StrictJson.Exchange

/-! ### Numbers -/

namespace Number

/-- The real in the place of a large number is the nearest one, and finite. -/
theorem isNearest_ofInt (n : UInt64) :
    Binary64.IsNearest n.toNat (Binary64.ofInt n.toNat).magnitude ∧
      (Binary64.ofInt n.toNat).isNegative = false :=
  Binary64.isNearest_ofInt n.toNat_lt

theorem isFinite_ofInt (n : UInt64) : (Binary64.ofInt n.toNat).isFinite = true :=
  decide_eq_true (isNearest_ofInt n).1.lt_infinity

/-- What a value **holds** of a number: the nearest real if it is a large one, and otherwise the
number itself. -/
def held : Number → Number
  | .large n _ => .real (.ofInt n.toNat) (isFinite_ofInt n)
  | .integer n => .integer n
  | .real x finite => .real x finite

/-- What is held of a large number, by the real that is the nearest one. -/
theorem held_large {n : UInt64} {beyond : 0x8000000000000000 ≤ n.toNat} {x : Binary64}
    (h : Binary64.ofInt n.toNat = x) {finite : x.isFinite = true} :
    held (.large n beyond) = .real x finite := by
  subst h
  rfl

/-- A finite real is a number. -/
theorem ofReal?_eq_some {x : Binary64} (finite : x.isFinite = true) :
    ofReal? x = some (.real x finite) :=
  dif_pos finite

/-- A real that is not finite is no number. -/
theorem ofReal?_eq_none {x : Binary64} (h : ¬ x.isFinite = true) : ofReal? x = none :=
  dif_neg h

end Number

namespace Tree

/-! ### Trees -/

/-- **Induction over trees**: a container has the property if all trees in it do. -/
theorem induction {P : Tree → Prop} (null : P .null) (boolean : ∀ b, P (.boolean b))
    (number : ∀ n, P (.number n)) (string : ∀ s, P (.string s))
    (array : ∀ items, (∀ t ∈ items, P t) → P (.array items))
    (object : ∀ members, (∀ m ∈ members, P m.2) → P (.object members)) (t : Tree) : P t :=
  @Tree.rec P (fun items => ∀ t ∈ items, P t) (fun members => ∀ m ∈ members, P m.2)
    (fun m => P m.2) null boolean number string array object
    (List.forall_mem_nil _) (fun _ _ ht hts => List.forall_mem_cons.2 ⟨ht, hts⟩)
    (List.forall_mem_nil _) (fun _ _ hm hms => List.forall_mem_cons.2 ⟨hm, hms⟩)
    (fun _ _ ht => ht) t

mutual

/-- The **keys are distinct** in every object of a tree. -/
def KeysDistinct : Tree → Prop
  | array items => KeysDistinctItems items
  | object members => (members.map Prod.fst).Nodup ∧ KeysDistinctMembers members
  | _ => True

/-- The keys are distinct in every item. -/
def KeysDistinctItems : List Tree → Prop
  | [] => True
  | t :: ts => t.KeysDistinct ∧ KeysDistinctItems ts

/-- The keys are distinct in the tree of every member. -/
def KeysDistinctMembers : List (String × Tree) → Prop
  | [] => True
  | (_, t) :: ms => t.KeysDistinct ∧ KeysDistinctMembers ms

end

mutual

/-- The tree that a value **holds** of a tree: each number is replaced by what is held of it, and
everything else stays where and as it is. -/
def held : Tree → Tree
  | .number n => .number n.held
  | .array items => .array (heldItems items)
  | .object members => .object (heldMembers members)
  | .null => .null
  | .boolean b => .boolean b
  | .string s => .string s

/-- What is held of the items. -/
def heldItems : List Tree → List Tree
  | [] => []
  | t :: ts => t.held :: heldItems ts

/-- What is held of the members. -/
def heldMembers : List (String × Tree) → List (String × Tree)
  | [] => []
  | (k, t) :: ms => (k, t.held) :: heldMembers ms

end

theorem keysDistinctItems_iff {items : List Tree} :
    KeysDistinctItems items ↔ ∀ t ∈ items, t.KeysDistinct := by
  induction items with
  | nil => exact iff_of_true trivial (List.forall_mem_nil _)
  | cons t ts ih => rw [KeysDistinctItems, ih, List.forall_mem_cons]

theorem keysDistinctMembers_iff {members : List (String × Tree)} :
    KeysDistinctMembers members ↔ ∀ m ∈ members, m.2.KeysDistinct := by
  induction members with
  | nil => exact iff_of_true trivial (List.forall_mem_nil _)
  | cons m ms ih => rw [KeysDistinctMembers, ih, List.forall_mem_cons]

theorem heldItems_eq_map (items : List Tree) : heldItems items = items.map held := by
  induction items with
  | nil => rfl
  | cons t ts ih => rw [heldItems, ih, List.map_cons]

theorem heldMembers_eq_map (members : List (String × Tree)) :
    heldMembers members = members.map fun m => (m.1, m.2.held) := by
  induction members with
  | nil => rfl
  | cons m ms ih => rw [heldMembers, ih, List.map_cons]

/-! ### The two ways, item by item and member by member -/

theorem ofItems_eq_map (items : List Value) : ofItems items = items.map ofValue := by
  induction items with
  | nil => rfl
  | cons v vs ih => rw [ofItems, ih, List.map_cons]

theorem toItems_eq_map (items : List Tree) : toItems items = items.map toValue := by
  induction items with
  | nil => rfl
  | cons t ts ih => rw [toItems, ih, List.map_cons]

theorem ofMembers_eq_map (members : List (String × Value)) :
    ofMembers members = members.map fun m => (m.1, ofValue m.2) := by
  induction members with
  | nil => rfl
  | cons m ms ih => rw [ofMembers, ih, List.map_cons]

theorem toMembers_eq_map (members : List (String × Tree)) :
    toMembers members = members.map fun m => (m.1, m.2.toValue) := by
  induction members with
  | nil => rfl
  | cons m ms ih => rw [toMembers, ih, List.map_cons]

/-- New contents leave the keys of members distinct. -/
theorem nodup_map {α β : Type} {members : List (String × α)} (f : α → β)
    (h : (members.map Prod.fst).Nodup) :
    ((members.map fun m => (m.1, f m.2)).map Prod.fst).Nodup := by
  rwa [List.map_map]

/-- On the way out an object of distinct keys keeps its members in their order. -/
theorem ofValue_object {members : List (String × Value)} (h : (members.map Prod.fst).Nodup) :
    ofValue (.object members) = .object (members.map fun m => (m.1, ofValue m.2)) := by
  rw [ofValue, ofMembers_eq_map, Members.ofPairs_of_nodup (nodup_map _ h)]

/-- On the way in an object of distinct keys keeps its members in their order. -/
theorem toValue_object {members : List (String × Tree)} (h : (members.map Prod.fst).Nodup) :
    (object members).toValue = .object (members.map fun m => (m.1, m.2.toValue)) := by
  rw [toValue, toMembers_eq_map, Members.ofPairs_of_nodup (nodup_map _ h)]

/-! ### What a tree is as a value -/

/-- The value of a tree has distinct keys, whatever the tree. -/
theorem keysDistinct_toValue (t : Tree) : t.toValue.KeysDistinct := by
  induction t using Tree.induction with
  | null | boolean | string => exact trivial
  | number n => cases n <;> exact trivial
  | array items ih =>
      rw [toValue, toItems_eq_map, Value.KeysDistinct, Value.keysDistinctItems_iff,
        List.forall_mem_map]
      exact ih
  | object members ih =>
      rw [toValue, toMembers_eq_map, Value.KeysDistinct, Value.keysDistinctMembers_iff]
      refine ⟨Members.nodup_ofPairs _, ?_⟩
      intro m hm
      obtain ⟨m', hm', rfl⟩ := List.mem_map.1 (Members.mem_of_mem_ofPairs hm)
      exact ih m' hm'

/-- The value of a tree has only finite reals. -/
theorem finite_toValue (t : Tree) : t.toValue.Finite := by
  induction t using Tree.induction with
  | null | boolean | string => exact trivial
  | number n =>
      cases n with
      | integer n => exact trivial
      | large n _ => exact Number.isFinite_ofInt n
      | real x finite => exact finite
  | array items ih =>
      rw [toValue, toItems_eq_map]
      refine Value.every_array_iff.2 ⟨trivial, ?_⟩
      rw [List.forall_mem_map]
      exact ih
  | object members ih =>
      rw [toValue, toMembers_eq_map]
      refine Value.every_object_iff.2 ⟨trivial, ?_⟩
      intro m hm
      obtain ⟨m', hm', rfl⟩ := List.mem_map.1 (Members.mem_of_mem_ofPairs hm)
      exact ih m' hm'

/-! ### There and back -/

/-- **A value comes back** with null for every real that is not finite, and otherwise as it is. -/
theorem toValue_ofValue {v : Value} (h : v.KeysDistinct) : (ofValue v).toValue = v.reread := by
  induction v using Value.induction with
  | null | boolean | integer | string => rfl
  | real x =>
      rw [ofValue, Value.reread]
      by_cases hfinite : x.isFinite = true
      · rw [Number.ofReal?_eq_some hfinite, if_pos hfinite]
        rfl
      · rw [Number.ofReal?_eq_none hfinite, if_neg hfinite]
        rfl
  | array items ih =>
      rw [Value.KeysDistinct, Value.keysDistinctItems_iff] at h
      rw [ofValue, toValue, Value.reread, ofItems_eq_map, toItems_eq_map,
        Value.rereadItems_eq_map, List.map_map]
      exact congrArg Value.array (List.map_congr_left fun v hv => ih v hv (h v hv))
  | object members ih =>
      rw [Value.KeysDistinct, Value.keysDistinctMembers_iff] at h
      obtain ⟨hkeys, hmembers⟩ := h
      rw [ofValue_object hkeys, toValue_object (nodup_map _ hkeys), Value.reread,
        Value.rereadMembers_eq_map, List.map_map]
      refine congrArg Value.object (List.map_congr_left fun m hm => ?_)
      exact congrArg (Prod.mk m.1) (ih m hm (hmembers m hm))

/-- **A tree comes back** as it is held. -/
theorem ofValue_toValue {t : Tree} (h : t.KeysDistinct) : ofValue t.toValue = t.held := by
  induction t using Tree.induction with
  | null | boolean | string => rfl
  | number n =>
      cases n with
      | integer n => rfl
      | large n beyond =>
          rw [toValue, numberValue, ofValue, Number.ofReal?_eq_some (Number.isFinite_ofInt n)]
          rfl
      | real x finite =>
          rw [toValue, numberValue, ofValue, Number.ofReal?_eq_some finite]
          rfl
  | array items ih =>
      rw [KeysDistinct, keysDistinctItems_iff] at h
      rw [toValue, ofValue, held, toItems_eq_map, ofItems_eq_map, heldItems_eq_map, List.map_map]
      exact congrArg Tree.array (List.map_congr_left fun t ht => ih t ht (h t ht))
  | object members ih =>
      rw [KeysDistinct, keysDistinctMembers_iff] at h
      obtain ⟨hkeys, hmembers⟩ := h
      rw [toValue_object hkeys, ofValue_object (nodup_map _ hkeys), held, heldMembers_eq_map,
        List.map_map]
      refine congrArg Tree.object (List.map_congr_left fun m hm => ?_)
      exact congrArg (Prod.mk m.1) (ih m hm (hmembers m hm))

/-- **A second way changes nothing.** The value of a tree has distinct keys and finite reals. -/
theorem toValue_ofValue_toValue (t : Tree) : (ofValue t.toValue).toValue = t.toValue := by
  rw [toValue_ofValue t.keysDistinct_toValue, Value.reread_of_finite t.finite_toValue]

end Tree

/-- **There and back again.** A value comes back with null for every real that is not finite. A tree
comes back with the nearest real, the even one of two that are equally near, for every whole number
above the integers. All else stays as it is and where it is, and a second way changes nothing. -/
theorem roundTrip (v : Value) (t : Tree) (hv : v.KeysDistinct) (ht : t.KeysDistinct) :
    (Tree.ofValue v).toValue = v.reread ∧
    Tree.ofValue t.toValue = t.held ∧
    (Tree.ofValue t.toValue).toValue = t.toValue ∧
    ∀ n beyond, ∃ x finite, Number.held (.large n beyond) = .real x finite ∧
      x.isNegative = false ∧ Binary64.IsNearest n.toNat x.magnitude := by
  refine ⟨Tree.toValue_ofValue hv, Tree.ofValue_toValue ht, t.toValue_ofValue_toValue, ?_⟩
  intro n beyond
  obtain ⟨hnearest, hsign⟩ := Number.isNearest_ofInt n
  exact ⟨_, Number.isFinite_ofInt n, rfl, hsign, hnearest⟩

/-- An infinity comes back as null, and one half more than a spacing above 2 to the power 63 comes
back a whole spacing above it. The keys stay in their order. -/
theorem roundTrip_infinityLarge :
    Value.KeysDistinct (.object [("b", .real ⟨0x7ff0000000000000⟩), ("a", .integer 1)]) ∧
    Tree.KeysDistinct (.object [("b", .number (.large 0x8000000000000401 (by decide))),
      ("a", .number (.integer 1))]) ∧
    (Tree.ofValue (.object [("b", .real ⟨0x7ff0000000000000⟩), ("a", .integer 1)])).toValue =
      .object [("b", .null), ("a", .integer 1)] ∧
    Tree.ofValue (Tree.toValue (.object [("b", .number (.large 0x8000000000000401 (by decide))),
      ("a", .number (.integer 1))])) =
      .object [("b", .number (.real ⟨0x43e0000000000001⟩ (by decide))),
        ("a", .number (.integer 1))] := by
  have hv : Value.KeysDistinct (.object [("b", .real ⟨0x7ff0000000000000⟩), ("a", .integer 1)]) :=
    ⟨by decide, trivial, trivial, trivial⟩
  have ht : Tree.KeysDistinct (.object [("b", .number (.large 0x8000000000000401 (by decide))),
      ("a", .number (.integer 1))]) :=
    ⟨by decide, trivial, trivial, trivial⟩
  have hlarge : Binary64.ofInt (0x8000000000000401 : UInt64).toNat = ⟨0x43e0000000000001⟩ := by
    decide +kernel
  obtain ⟨hvalue, htree, -⟩ := roundTrip _ _ hv ht
  refine ⟨hv, ht, hvalue, htree.trans ?_⟩
  rw [Tree.held, Tree.heldMembers, Tree.held, Number.held_large hlarge]
  rfl

end StrictJson.Exchange
