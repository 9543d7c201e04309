import StrictJson.Proofs.Value.History
import StrictJson.Proofs.Value.Shape
import StrictJson.Value.Place

/-!
# Places Keep to Themselves

To put a value in a place of a tree changes what stands there and nothing beside it. All that there
is to show is shown of one step: a child that is replaced reads as the new one, its siblings read as
before, the old child put back gives the old tree, and the container keeps its size or its keys. The
laws of a path are inductions over its steps from these.

A tree is read here with its reports of failure, so the laws also say that what cannot be read
before a change fails in the same way after it.

## Main definitions

* `Value.Outlines`: two containers of one size, or of the same keys in the same order.
* `Value.withAt`: the tree with another value in a place.

## Main results

* `Value.follow_withAt`: the place reads as the new value.
* `Value.follow_withAt_of_not_prefix`: a place that is neither above nor below reads as before.
* `Value.editAt_eq_ok_iff`: a change at a place is a change of what stands there.
-/

namespace StrictJson

namespace Members

variable {α : Type} {key : String} {value : α} {members : List (String × α)}

/-- To write the value that a key has changes nothing. -/
theorem insert_of_lookup (h : members.lookup key = some value) :
    insert key value members = members := by
  induction members with
  | nil => simp at h
  | cons m ms ih =>
      obtain ⟨k, v⟩ := m
      rw [lookup_cons] at h
      rw [insert]
      by_cases hk : k = key
      · rw [if_pos hk.symm] at h
        rw [if_pos hk, ← Option.some.inj h]
      · rw [if_neg (Ne.symm hk)] at h
        rw [if_neg hk, ih h]

/-- A key that is found is among the keys. -/
theorem mem_keys_of_lookup (h : members.lookup key = some value) : key ∈ keys members :=
  contains_iff.1 (by rw [contains, h]; rfl)

/-- A value that is found stands among the members. -/
theorem exists_mem_of_lookup (h : members.lookup key = some value) : (key, value) ∈ members := by
  induction members with
  | nil => simp at h
  | cons m ms ih =>
      rw [lookup_cons] at h
      split_ifs at h with hk
      · obtain rfl := Option.some.inj h
        exact hk ▸ List.mem_cons_self ..
      · exact List.mem_cons_of_mem _ (ih h)

end Members

namespace Value

variable {v w x : Value} {s t : Step} {p q : List Step}

/-! ### One step -/

/-- Two containers have one **outline**: arrays of the same length, or objects with the same keys in
the same order. -/
inductive Outlines : Value → Value → Prop
  | array {items others : List Value} : items.length = others.length →
      Outlines (.array items) (.array others)
  | object {members others : List (String × Value)} : Members.keys members = Members.keys others →
      Outlines (.object members) (.object others)

theorem child_item_array (i : ℕ) (items : List Value) :
    (array items).child (.item i) = Items.get i items := rfl

theorem child_member_object (key : String) (members : List (String × Value)) :
    (object members).child (.member key) = Members.get key members := rfl

/-- What an array gives is what stands at the index. -/
theorem get_items_eq_ok_iff {i : ℕ} {items : List Value} :
    Items.get i items = .ok w ↔ items[i]? = some w := by
  rw [Items.get]
  cases items[i]? <;> simp

/-- An item is reached in an array that has its index. -/
theorem child_item_eq_ok_iff {i : ℕ} :
    v.child (.item i) = .ok w ↔ ∃ items, v = array items ∧ items[i]? = some w := by
  cases v with
  | array items => simp [child_item_array, get_items_eq_ok_iff]
  | null | boolean | integer | real | string | object => simp [child, asItems]

/-- A member is reached in an object that has its key. -/
theorem child_member_eq_ok_iff {key : String} :
    v.child (.member key) = .ok w ↔
      ∃ members, v = object members ∧ members.lookup key = some w := by
  cases v with
  | object members => simp [child_member_object, Members.get_eq_ok_iff]
  | null | boolean | integer | real | string | array => simp [child, asMembers]

/-- A child that is replaced reads as the new one. -/
theorem child_withChild (h : v.child s = .ok w) (x : Value) :
    (v.withChild s x).child s = .ok x := by
  cases s with
  | member key =>
      obtain ⟨members, rfl, -⟩ := child_member_eq_ok_iff.1 h
      rw [withChild, child_member_object, Members.get_eq_ok_iff, Members.lookup_insert, if_pos rfl]
  | item i =>
      obtain ⟨items, rfl, hi⟩ := child_item_eq_ok_iff.1 h
      obtain ⟨hlt, -⟩ := List.getElem?_eq_some_iff.1 hi
      rw [withChild, child_item_array, get_items_eq_ok_iff, List.getElem?_set_self hlt]

/-- The other children read as before. -/
theorem child_withChild_of_ne (h : s ≠ t) (x : Value) : (v.withChild s x).child t = v.child t := by
  cases s with
  | member key =>
      cases v with
      | object members =>
          cases t with
          | member k =>
              have hk : k ≠ key := fun hk => h (congrArg Step.member hk.symm)
              rw [withChild, child_member_object, child_member_object, Members.get, Members.get,
                Members.lookup_insert, if_neg hk]
          | item i => rfl
      | null | boolean | integer | real | string | array => rfl
  | item i =>
      cases v with
      | array items =>
          cases t with
          | member k => rfl
          | item j =>
              have hj : i ≠ j := fun hj => h (congrArg Step.item hj)
              rw [withChild, child_item_array, child_item_array, Items.get, Items.get,
                List.getElem?_set_ne hj, List.length_set]
      | null | boolean | integer | real | string | object => rfl

/-- A child put back where it stands changes nothing. -/
theorem withChild_of_child (h : v.child s = .ok w) : v.withChild s w = v := by
  cases s with
  | member key =>
      obtain ⟨members, rfl, hkey⟩ := child_member_eq_ok_iff.1 h
      rw [withChild, Members.insert_of_lookup hkey]
  | item i =>
      obtain ⟨items, rfl, hi⟩ := child_item_eq_ok_iff.1 h
      obtain ⟨hlt, rfl⟩ := List.getElem?_eq_some_iff.1 hi
      rw [withChild, List.set_getElem_self]

/-- A container keeps its outline when a child is replaced. -/
theorem outlines_withChild (h : v.child s = .ok w) (x : Value) : v.Outlines (v.withChild s x) := by
  cases s with
  | member key =>
      obtain ⟨members, rfl, hkey⟩ := child_member_eq_ok_iff.1 h
      refine .object ?_
      rw [Members.keys_insert, if_pos (Members.mem_keys_of_lookup hkey)]
  | item i =>
      obtain ⟨items, rfl, -⟩ := child_item_eq_ok_iff.1 h
      exact .array (List.length_set ..).symm

/-! ### Distinct keys -/

theorem keysDistinct_array_iff {items : List Value} :
    (array items).KeysDistinct ↔ ∀ v ∈ items, v.KeysDistinct := by
  rw [KeysDistinct, keysDistinctItems_iff]

theorem keysDistinct_object_iff {members : List (String × Value)} :
    (object members).KeysDistinct ↔
      (Members.keys members).Nodup ∧ ∀ m ∈ members, m.2.KeysDistinct := by
  rw [KeysDistinct, keysDistinctMembers_iff, Members.keys]

/-- A member that is written keeps keys distinct throughout. -/
theorem keysDistinct_insert {key : String} {members : List (String × Value)}
    (h : (object members).KeysDistinct) (hx : x.KeysDistinct) :
    (object (Members.insert key x members)).KeysDistinct := by
  rw [keysDistinct_object_iff] at h ⊢
  refine ⟨Members.nodup_insert key x h.1, fun m hm => ?_⟩
  rcases Members.mem_insert hm with rfl | hm
  · exact hx
  · exact h.2 m hm

/-- The keys are distinct in a child if they are in its container. -/
theorem KeysDistinct.child (hv : v.KeysDistinct) (h : v.child s = .ok w) : w.KeysDistinct := by
  cases s with
  | member key =>
      obtain ⟨members, rfl, hkey⟩ := child_member_eq_ok_iff.1 h
      exact (keysDistinct_object_iff.1 hv).2 _ (Members.exists_mem_of_lookup hkey)
  | item i =>
      obtain ⟨items, rfl, hi⟩ := child_item_eq_ok_iff.1 h
      exact keysDistinct_array_iff.1 hv w (List.mem_of_getElem? hi)

/-- The keys are distinct in a container with a new child. -/
theorem KeysDistinct.withChild (hv : v.KeysDistinct) (hx : x.KeysDistinct) (s : Step) :
    (v.withChild s x).KeysDistinct := by
  cases s with
  | member key =>
      cases v with
      | object members => exact keysDistinct_insert hv hx
      | null | boolean | integer | real | string | array => exact hv
  | item i =>
      cases v with
      | array items =>
          refine keysDistinct_array_iff.2 fun w hw => ?_
          rcases List.mem_or_eq_of_mem_set hw with hw | rfl
          · exact keysDistinct_array_iff.1 hv w hw
          · exact hx
      | null | boolean | integer | real | string | object => exact hv

/-! ### Paths -/

theorem follow_cons_of_child (h : v.child s = .ok w) (p : List Step) :
    v.follow (s :: p) = w.follow p := by
  rw [follow, h]

theorem follow_cons_eq_ok_iff :
    v.follow (s :: p) = .ok w ↔ ∃ c, v.child s = .ok c ∧ c.follow p = .ok w := by
  rw [follow]
  cases v.child s <;> simp

/-- To follow a path and then another one is to follow both. -/
theorem follow_append_of_follow (h : v.follow p = .ok w) (q : List Step) :
    v.follow (p ++ q) = w.follow q := by
  induction p generalizing v with
  | nil =>
      obtain rfl := Except.ok.inj h
      rfl
  | cons s p ih =>
      obtain ⟨c, hc, hp⟩ := follow_cons_eq_ok_iff.1 h
      rw [List.cons_append, follow_cons_of_child hc, ih hp]

theorem KeysDistinct.follow (hv : v.KeysDistinct) (h : v.follow p = .ok w) : w.KeysDistinct := by
  induction p generalizing v with
  | nil => exact Except.ok.inj h ▸ hv
  | cons s p ih =>
      obtain ⟨c, hc, hp⟩ := follow_cons_eq_ok_iff.1 h
      exact ih (hv.child hc) hp

/-- The tree **with** another value **at** the end of a path. A path that leads nowhere changes
nothing. -/
def withAt (v : Value) (x : Value) : List Step → Value
  | [] => x
  | s :: p =>
    match v.child s with
    | .ok c => v.withChild s (c.withAt x p)
    | .error _ => v

theorem withAt_cons_of_child (h : v.child s = .ok w) (x : Value) (p : List Step) :
    v.withAt x (s :: p) = v.withChild s (w.withAt x p) := by
  rw [withAt, h]

/-- **The place reads as the new value.** -/
theorem follow_withAt (h : v.follow p = .ok w) (x : Value) : (v.withAt x p).follow p = .ok x := by
  induction p generalizing v with
  | nil => rfl
  | cons s p ih =>
      obtain ⟨c, hc, hp⟩ := follow_cons_eq_ok_iff.1 h
      rw [withAt_cons_of_child hc, follow_cons_of_child (child_withChild hc _), ih hp]

/-- **A place that is neither above nor below reads as before.** -/
theorem follow_withAt_of_not_prefix (hpq : ¬ p <+: q) (hqp : ¬ q <+: p) :
    (v.withAt x p).follow q = v.follow q := by
  induction p generalizing v q with
  | nil => exact absurd List.nil_prefix hpq
  | cons s p ih =>
      obtain _ | ⟨t, q⟩ := q
      · exact absurd List.nil_prefix hqp
      cases hc : v.child s with
      | error f => rw [withAt, hc]
      | ok c =>
          rw [withAt_cons_of_child hc]
          by_cases hst : s = t
          · subst hst
            rw [List.cons_prefix_cons, and_iff_right rfl] at hpq hqp
            rw [follow_cons_of_child (child_withChild hc _), follow_cons_of_child hc, ih hpq hqp]
          · rw [follow, follow, child_withChild_of_ne hst]

/-- The containers above a place keep their outlines. -/
theorem exists_outlines_withAt (h : v.follow p = .ok w) (hq : q ++ [s] <+: p) :
    ∃ c c', v.follow q = .ok c ∧ (v.withAt x p).follow q = .ok c' ∧ c.Outlines c' := by
  induction q generalizing v p with
  | nil =>
      obtain ⟨p, rfl⟩ := hq
      obtain ⟨c, hc, -⟩ := follow_cons_eq_ok_iff.1 h
      refine ⟨v, _, rfl, rfl, ?_⟩
      show v.Outlines (v.withAt x (s :: p))
      rw [withAt_cons_of_child hc]
      exact outlines_withChild hc _
  | cons t q ih =>
      obtain _ | ⟨s', p⟩ := p
      · simp at hq
      rw [List.cons_append, List.cons_prefix_cons] at hq
      obtain ⟨rfl, hq⟩ := hq
      obtain ⟨c, hc, hp⟩ := follow_cons_eq_ok_iff.1 h
      obtain ⟨d, d', hd, hd', houtlines⟩ := ih hp hq
      refine ⟨d, d', by rw [follow_cons_of_child hc, hd], ?_, houtlines⟩
      rw [withAt_cons_of_child hc, follow_cons_of_child (child_withChild hc _), hd']

theorem KeysDistinct.withAt (hv : v.KeysDistinct) (hx : x.KeysDistinct) (p : List Step) :
    (v.withAt x p).KeysDistinct := by
  induction p generalizing v with
  | nil => exact hx
  | cons s p ih =>
      rw [Value.withAt]
      split
      · next c hc => exact hv.withChild (ih (hv.child hc)) s
      · exact hv

/-! ### Changes at a place -/

section

variable {β : Type} {f : Value → Except AccessFault (β × Value)} {answer : β} {fault : AccessFault}

theorem editAt_cons_eq_ok_iff : v.editAt f (s :: p) = .ok (answer, x) ↔
    ∃ c new, v.child s = .ok c ∧ c.editAt f p = .ok (answer, new) ∧ v.withChild s new = x := by
  rw [editAt]
  cases v.child s with
  | error e => simp
  | ok c => cases h : c.editAt f p <;> simp [h, Prod.ext_iff]

theorem editAt_cons_eq_error_iff : v.editAt f (s :: p) = .error fault ↔
    v.child s = .error fault ∨ ∃ c, v.child s = .ok c ∧ c.editAt f p = .error fault := by
  rw [editAt]
  cases v.child s with
  | error e => simp
  | ok c => cases h : c.editAt f p <;> simp [h]

/-- **A change at a place is a change of what stands there.** -/
theorem editAt_eq_ok_iff : v.editAt f p = .ok (answer, x) ↔
    ∃ w w', v.follow p = .ok w ∧ f w = .ok (answer, w') ∧ v.withAt w' p = x := by
  induction p generalizing v x with
  | nil => simp [editAt, follow, withAt]
  | cons s p ih =>
      rw [editAt_cons_eq_ok_iff]
      constructor
      · rintro ⟨c, new, hc, hnew, rfl⟩
        obtain ⟨w, w', hw, hf, rfl⟩ := ih.1 hnew
        exact ⟨w, w', by rw [follow_cons_of_child hc, hw], hf, withAt_cons_of_child hc _ _⟩
      · rintro ⟨w, w', hw, hf, rfl⟩
        obtain ⟨c, hc, hp⟩ := follow_cons_eq_ok_iff.1 hw
        exact ⟨c, c.withAt w' p, hc, ih.2 ⟨w, w', hp, hf, rfl⟩, (withAt_cons_of_child hc _ _).symm⟩

/-- **A change at a place fails at the first step that fails**, and if there is none it fails as it
does on what stands there. -/
theorem editAt_eq_error_iff : v.editAt f p = .error fault ↔
    (∃ q s r w, q ++ s :: r = p ∧ v.follow q = .ok w ∧ w.child s = .error fault) ∨
      ∃ w, v.follow p = .ok w ∧ f w = .error fault := by
  induction p generalizing v with
  | nil => simp [editAt, follow]
  | cons s p ih =>
      rw [editAt_cons_eq_error_iff]
      constructor
      · rintro (hs | ⟨c, hc, hp⟩)
        · exact .inl ⟨[], s, p, v, rfl, rfl, hs⟩
        · rcases ih.1 hp with ⟨q, t, r, w, rfl, hq, hw⟩ | ⟨w, hw, hf⟩
          · exact .inl ⟨s :: q, t, r, w, rfl, by rw [follow_cons_of_child hc, hq], hw⟩
          · exact .inr ⟨w, by rw [follow_cons_of_child hc, hw], hf⟩
      · rintro (⟨_ | ⟨s', q⟩, t, r, w, hp, hq, hw⟩ | ⟨w, hw, hf⟩)
        · obtain ⟨rfl, -⟩ := List.cons.inj hp
          obtain rfl := Except.ok.inj hq
          exact .inl hw
        · obtain ⟨rfl, htail⟩ := List.cons.inj hp
          obtain ⟨c, hc, hq⟩ := follow_cons_eq_ok_iff.1 hq
          exact .inr ⟨c, hc, ih.2 (.inl ⟨q, t, r, w, htail, hq, hw⟩)⟩
        · obtain ⟨c, hc, hp⟩ := follow_cons_eq_ok_iff.1 hw
          exact .inr ⟨c, hc, ih.2 (.inr ⟨w, hp, hf⟩)⟩

end

end Value

end StrictJson
