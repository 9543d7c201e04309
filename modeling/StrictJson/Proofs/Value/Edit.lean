import StrictJson.Proofs.Value.Place

/-!
# Edits at a Place

What an edit at the end of a path does to a tree, and what it leaves alone. It fails at the first
step of the path that fails, or else as the edit does at the place, and then the tree stands as it
was. If it succeeds, the place holds what the edit makes of it; the containers above keep their
sizes and the order of their keys; and every other place reads as before. The items of an array that
is edited move up or down by one behind an item that is put in or taken out, and that is all that
moves.

The walk to the place hands the tree on from container to container, and each of them holds
afterwards what its child has become, whether the edit took place or not. So that a failure leaves
the tree alone is a law of places and not a matter of course.

## Main definitions

* `Value.carryOut`: an edit in place, with the tree that it leaves in either case.
* `Step.Refused`, `Edit.Refused`, `Value.IsRefused`: what fails, with its code.
* `Edit.Makes`: what an edit makes of the value at its place.
* `Edit.target`, `Edit.Spares`, `Edit.moved`: the edited place, the paths that an edit leaves alone,
  and where they lead afterwards.
* `Value.IsEdited`: the tree before and after an edit.

## Main results

* `Edit.apply_eq_error_iff`, `Edit.makes_of_apply`: one edit at its place.
* `Edit.Makes.readsAs`: what it leaves alone there.
* `Value.carryOut_eq`: an edit in place leaves the tree as it was if it fails.
* `Value.edit_frame`: edits touch their place and nothing else.
-/

namespace StrictJson

variable {v w w' x : Value} {e : Edit} {s : Step} {path q r : List Step} {old : Option Value}
variable {f : AccessFault} {code : ErrorCode}

/-! ### Edits in place -/

/-- An edit in place: its answer, and the value that stands there afterwards. A value that does not
take the edit stays. -/
def Edit.perform (e : Edit) (v : Value) : Except AccessFault (Option Value) × Value :=
  match e.apply v with
  | .ok (old, new) => (.ok old, new)
  | .error f => (.error f, v)

/-- **Carries out** an edit in place at the end of a path: its answer, and the tree that is left.
Every container on the way holds afterwards what its child has become. -/
def Value.carryOut (v : Value) (e : Edit) : List Step → Except AccessFault (Option Value) × Value
  | [] => e.perform v
  | s :: path =>
    match v.child s with
    | .error f => (.error f, v)
    | .ok w => ((w.carryOut e path).1, v.withChild s (w.carryOut e path).2)

/-- **An edit in place leaves the tree as it was if it fails**, and the edited tree otherwise. -/
theorem Value.carryOut_eq (v : Value) (path : List Step) (e : Edit) :
    v.carryOut e path =
      match v.edit path e with
      | .ok (old, new) => (.ok old, new)
      | .error f => (.error f, v) := by
  induction path generalizing v with
  | nil => rfl
  | cons s path ih =>
      rw [carryOut, edit, editAt]
      cases hs : v.child s with
      | error f => rfl
      | ok w =>
          have hw := ih w
          rw [edit] at hw
          simp only [hw]
          cases w.editAt e.apply path with
          | error f => exact congrArg (Prod.mk _) (withChild_of_child hs)
          | ok outcome => rfl

/-! ### What fails -/

/-- The kind of the containers that a step leads into. -/
def Step.container : Step → Kind
  | .member _ => .object
  | .item _ => .array

/-- A step is **refused** by a value, with a code and a report. -/
inductive Step.Refused : Step → Value → ErrorCode → AccessFault → Prop
  /-- The value is no container of the right kind. -/
  | wrongType {s : Step} {v : Value} : v.kind ≠ s.container →
      Refused s v .wrongType (.wrongType (.kind s.container) v.kind)
  /-- The object does not have the key. -/
  | itemNotFound {key : String} {members : List (String × Value)} : key ∉ Members.keys members →
      Refused (.member key) (.object members) .itemNotFound (.noMember key)
  /-- The array does not have the index. -/
  | indexOutOfRange {i : ℕ} {items : List Value} : items.length ≤ i →
      Refused (.item i) (.array items) .indexOutOfRange (.indexOutOfRange i items.length)

/-- The kind of the containers that an edit changes. Any value can be replaced. -/
def Edit.container? : Edit → Option Kind
  | replace _ => none
  | push _ | insert _ _ | set _ _ | remove _ => some .array
  | put _ _ | tryPut _ _ | delete _ => some .object

/-- An edit is **refused** by a value, with a code and a report. -/
inductive Edit.Refused : Edit → Value → ErrorCode → AccessFault → Prop
  /-- The value is no container of the right kind. -/
  | wrongType {e : Edit} {v : Value} {k : Kind} : e.container? = some k → v.kind ≠ k →
      Refused e v .wrongType (.wrongType (.kind k) v.kind)
  /-- An item would be put past the end of the array. -/
  | insert {i : ℕ} {x : Value} {items : List Value} : items.length < i →
      Refused (.insert i x) (.array items) .indexOutOfRange (.indexOutOfRange i items.length)
  /-- The array does not have the index. -/
  | set {i : ℕ} {x : Value} {items : List Value} : items.length ≤ i →
      Refused (.set i x) (.array items) .indexOutOfRange (.indexOutOfRange i items.length)
  /-- The array does not have the index. -/
  | remove {i : ℕ} {items : List Value} : items.length ≤ i →
      Refused (.remove i) (.array items) .indexOutOfRange (.indexOutOfRange i items.length)
  /-- The object has the key. -/
  | tryPut {key : String} {x : Value} {members : List (String × Value)} :
      key ∈ Members.keys members →
      Refused (.tryPut key x) (.object members) .duplicateKey (.duplicateMember key)
  /-- The object does not have the key. -/
  | delete {key : String} {members : List (String × Value)} : key ∉ Members.keys members →
      Refused (.delete key) (.object members) .itemNotFound (.noMember key)

/-- An edit at the end of a path **is refused**: by the first step that is refused on the way, or at
the place itself. -/
def Value.IsRefused (v : Value) (path : List Step) (e : Edit) (code : ErrorCode)
    (f : AccessFault) : Prop :=
  (∃ before s after w, before ++ s :: after = path ∧ v.follow before = .ok w ∧
      s.Refused w code f) ∨
    ∃ w, v.follow path = .ok w ∧ e.Refused w code f

theorem Step.Refused.code_eq (h : s.Refused v code f) : f.toError.code = code := by
  cases h <;> rfl

theorem Edit.Refused.code_eq (h : e.Refused v code f) : f.toError.code = code := by
  cases h <;> rfl

theorem Value.asItems_of_kind_ne (h : v.kind ≠ .array) :
    v.asItems = .error (.wrongType (.kind .array) v.kind) := by
  cases v with
  | array items => exact absurd rfl h
  | null | boolean | integer | real | string | object => rfl

theorem Value.asMembers_of_kind_ne (h : v.kind ≠ .object) :
    v.asMembers = .error (.wrongType (.kind .object) v.kind) := by
  cases v with
  | object members => exact absurd rfl h
  | null | boolean | integer | real | string | array => rfl

theorem Value.exists_array (h : v.kind = .array) : ∃ items, v = .array items := by
  cases v with
  | array items => exact ⟨items, rfl⟩
  | null | boolean | integer | real | string | object => exact absurd h nofun

theorem Value.exists_object (h : v.kind = .object) : ∃ members, v = .object members := by
  cases v with
  | object members => exact ⟨members, rfl⟩
  | null | boolean | integer | real | string | array => exact absurd h nofun

/-- A step fails at a value that is no container of the right kind. -/
theorem Value.child_of_kind_ne (h : v.kind ≠ s.container) :
    v.child s = .error (.wrongType (.kind s.container) v.kind) := by
  cases s with
  | member key =>
      rw [Value.child, Value.asMembers_of_kind_ne h]
      rfl
  | item i =>
      rw [Value.child, Value.asItems_of_kind_ne h]
      rfl

/-- **A step fails exactly if it is refused.** -/
theorem Value.child_eq_error_iff : v.child s = .error f ↔ ∃ code, s.Refused v code f := by
  constructor
  · intro h
    by_cases hkind : v.kind = s.container
    · cases s with
      | member key =>
          obtain ⟨members, rfl⟩ := Value.exists_object hkind
          rw [Value.child_member_object, Members.get_eq_error_iff] at h
          obtain ⟨hkey, rfl⟩ := h
          exact ⟨_, .itemNotFound hkey⟩
      | item i =>
          obtain ⟨items, rfl⟩ := Value.exists_array hkind
          rw [Value.child_item_array, Items.get] at h
          split at h
          · simp at h
          · next hnone =>
            obtain rfl := Except.error.inj h
            exact ⟨_, .indexOutOfRange (List.getElem?_eq_none_iff.1 hnone)⟩
    · rw [child_of_kind_ne hkind] at h
      obtain rfl := Except.error.inj h
      exact ⟨_, .wrongType hkind⟩
  · rintro ⟨code, h⟩
    cases h with
    | wrongType hkind => exact child_of_kind_ne hkind
    | itemNotFound hkey =>
        rw [Value.child_member_object, Members.get_eq_error_iff]
        exact ⟨hkey, rfl⟩
    | indexOutOfRange hi =>
        rw [Value.child_item_array, Items.get, List.getElem?_eq_none_iff.2 hi]

/-- The number of items of an array, and zero for any other value. -/
def Value.itemCount : Value → ℕ
  | .array items => items.length
  | _ => 0

/-! ### What an edit makes -/

/-- What an edit **makes** of the value at its place, and the value that it displaces. An array is
cut where the edit takes place. A member that is written over keeps its place, a new one goes to the
end, and nothing else moves but the items behind the cut. -/
inductive Edit.Makes : Edit → Value → Option Value → Value → Prop
  | replace (x w : Value) : Makes (.replace x) w none x
  | push (x : Value) (items : List Value) :
      Makes (.push x) (.array items) none (.array (items ++ [x]))
  | insert (x : Value) (before after : List Value) :
      Makes (.insert before.length x) (.array (before ++ after)) none
        (.array (before ++ x :: after))
  | set (x old : Value) (before after : List Value) :
      Makes (.set before.length x) (.array (before ++ old :: after)) (some old)
        (.array (before ++ x :: after))
  | remove (old : Value) (before after : List Value) :
      Makes (.remove before.length) (.array (before ++ old :: after)) (some old)
        (.array (before ++ after))
  | putNew {key : String} (x : Value) {members : List (String × Value)} :
      key ∉ Members.keys members →
      Makes (.put key x) (.object members) none (.object (members ++ [(key, x)]))
  | putOver {key : String} (x old : Value) {before : List (String × Value)}
      (after : List (String × Value)) : key ∉ Members.keys before →
      Makes (.put key x) (.object (before ++ (key, old) :: after)) (some old)
        (.object (before ++ (key, x) :: after))
  | tryPut {key : String} (x : Value) {members : List (String × Value)} :
      key ∉ Members.keys members →
      Makes (.tryPut key x) (.object members) none (.object (members ++ [(key, x)]))
  | delete {key : String} (old : Value) {before : List (String × Value)}
      (after : List (String × Value)) : key ∉ Members.keys before →
      Makes (.delete key) (.object (before ++ (key, old) :: after)) (some old)
        (.object (before ++ after))

/-! ### Cuts -/

namespace Items

variable {α : Type} {i : ℕ} {items : List α}

/-- An array is **cut** at an index that it has. -/
theorem exists_cut (h : i < items.length) :
    ∃ before y after, before ++ y :: after = items ∧ before.length = i := by
  refine ⟨items.take i, items[i], items.drop (i + 1), ?_, List.length_take_of_le h.le⟩
  rw [← List.drop_eq_getElem_cons h, List.take_append_drop]

theorem get_cut (before : List α) (y : α) (after : List α) :
    (before ++ y :: after)[before.length]? = some y := by
  rw [List.getElem?_append_right le_rfl, Nat.sub_self, List.getElem?_cons_zero]

theorem insert_cut (before after : List α) (x : α) :
    insert before.length x (before ++ after) = .ok (before ++ x :: after) := by
  rw [insert, if_pos (by rw [List.length_append]; exact Nat.le_add_right ..)]
  congr 1
  induction before with
  | nil => rfl
  | cons y before ih => rw [List.cons_append, List.length_cons, List.insertIdx_succ_cons, ih]; rfl

theorem set_cut (before : List α) (old : α) (after : List α) (x : α) :
    set before.length x (before ++ old :: after) = .ok (old, before ++ x :: after) := by
  rw [set, get_cut, List.set_append_right _ _ le_rfl, Nat.sub_self, List.set_cons_zero]

theorem remove_cut (before : List α) (old : α) (after : List α) :
    remove before.length (before ++ old :: after) = .ok (old, before ++ after) := by
  rw [remove, get_cut, List.eraseIdx_append_of_length_le le_rfl, Nat.sub_self,
    List.eraseIdx_cons_zero]

theorem insert_of_lt (h : items.length < i) (x : α) :
    insert i x items = .error (.indexOutOfRange i items.length) := by
  rw [insert, if_neg h.not_ge]

theorem set_of_le (h : items.length ≤ i) (x : α) :
    set i x items = .error (.indexOutOfRange i items.length) := by
  rw [set, List.getElem?_eq_none_iff.2 h]

theorem remove_of_le (h : items.length ≤ i) :
    remove i items = .error (.indexOutOfRange i items.length) := by
  rw [remove, List.getElem?_eq_none_iff.2 h]

end Items

namespace Members

variable {α : Type} {key : String} {members before : List (String × α)}

/-- Members are **cut** at a key that they have. -/
theorem exists_cut (h : key ∈ keys members) :
    ∃ before old after, before ++ (key, old) :: after = members ∧ key ∉ keys before := by
  obtain ⟨old, hold⟩ := Option.isSome_iff_exists.1 (contains_iff.2 h)
  obtain ⟨before, after, rfl, hbefore⟩ := List.lookup_eq_some_iff.1 hold
  refine ⟨before, old, after, rfl, fun hkey => ?_⟩
  obtain ⟨m, hm, rfl⟩ := List.mem_map.1 hkey
  exact absurd rfl (bne_iff_ne.1 (hbefore m hm))

theorem lookup_of_not_mem (h : key ∉ keys members) : members.lookup key = none :=
  Option.not_isSome_iff_eq_none.1 (mt contains_iff.1 h)

/-- What stands behind members of other keys is found behind them. -/
theorem lookup_append (h : key ∉ keys before) (after : List (String × α)) :
    (before ++ after).lookup key = after.lookup key := by
  rw [List.lookup_append, lookup_of_not_mem h, Option.none_or]

theorem lookup_cut (h : key ∉ keys before) (old : α) (after : List (String × α)) :
    (before ++ (key, old) :: after).lookup key = some old := by
  rw [lookup_append h, lookup_cons, if_pos rfl]

/-- A member makes no difference to what is found under other keys. -/
theorem lookup_cut_of_ne {k : String} (h : k ≠ key) (before : List (String × α)) (x : α)
    (after : List (String × α)) :
    (before ++ (key, x) :: after).lookup k = (before ++ after).lookup k := by
  rw [List.lookup_append, lookup_cons, if_neg h, ← List.lookup_append]

theorem insert_cut (h : key ∉ keys before) (old x : α) (after : List (String × α)) :
    insert key x (before ++ (key, old) :: after) = before ++ (key, x) :: after := by
  rw [insert_append h, insert, if_pos rfl]

theorem remove_cut (h : key ∉ keys before) (old : α) (after : List (String × α)) :
    remove key (before ++ (key, old) :: after) = .ok (old, before ++ after) := by
  have hbefore : ∀ m ∈ before, ¬ (m.1 == key) = true := by
    intro m hm hkey
    exact h (List.mem_map.2 ⟨m, hm, beq_iff_eq.1 hkey⟩)
  rw [remove, lookup_cut h, List.eraseP_append_right _ hbefore,
    List.eraseP_cons_of_pos (by exact beq_self_eq_true key)]

end Members

namespace Edit

/-- An edit fails at a value that is no container of the right kind. -/
theorem apply_of_kind_ne {k : Kind} (h : e.container? = some k) (hkind : v.kind ≠ k) :
    e.apply v = .error (.wrongType (.kind k) v.kind) := by
  cases e with
  | replace new => exact absurd h nofun
  | push | insert | set | remove =>
      obtain rfl := Option.some.inj h
      rw [apply, onItems, Value.asItems_of_kind_ne hkind]
  | put | tryPut | delete =>
      obtain rfl := Option.some.inj h
      rw [apply, onMembers, Value.asMembers_of_kind_ne hkind]

theorem onItems_array (f : List Value → Except AccessFault (Option Value × List Value))
    (items : List Value) : onItems f (.array items) =
      match f items with
      | .error e => .error e
      | .ok (old, new) => .ok (old, .array new) := rfl

theorem onMembers_object
    (f : List (String × Value) → Except AccessFault (Option Value × List (String × Value)))
    (members : List (String × Value)) : onMembers f (.object members) =
      match f members with
      | .error e => .error e
      | .ok (old, new) => .ok (old, .object new) := rfl

/-- The outcome of an edit **fits** the value that is edited: the edit makes something of it, or is
refused. -/
def Fits (e : Edit) (w : Value) : Except AccessFault (Option Value × Value) → Prop
  | .ok (old, w') => e.Makes w old w'
  | .error f => ∃ code, e.Refused w code f

/-- What an edit does to an array fits the array. -/
theorem fits_apply_array (h : e.container? = some .array) (items : List Value) :
    e.Fits (.array items) (e.apply (.array items)) := by
  cases e with
  | replace | put | tryPut | delete => exact absurd h nofun
  | push item => exact .push item items
  | insert i item =>
      rw [apply, onItems_array]
      rcases Nat.lt_or_ge items.length i with hi | hi
      · rw [Items.insert_of_lt hi]
        exact ⟨_, .insert hi⟩
      · obtain ⟨before, after, rfl, rfl⟩ : ∃ before after, before ++ after = items ∧
            before.length = i :=
          ⟨_, _, List.take_append_drop i items, List.length_take_of_le hi⟩
        rw [Items.insert_cut]
        exact .insert item before after
  | set i item =>
      rw [apply, onItems_array]
      rcases Nat.lt_or_ge i items.length with hi | hi
      · obtain ⟨before, old, after, rfl, rfl⟩ := Items.exists_cut hi
        rw [Items.set_cut]
        exact .set item old before after
      · rw [Items.set_of_le hi]
        exact ⟨_, .set hi⟩
  | remove i =>
      rw [apply, onItems_array]
      rcases Nat.lt_or_ge i items.length with hi | hi
      · obtain ⟨before, old, after, rfl, rfl⟩ := Items.exists_cut hi
        rw [Items.remove_cut]
        exact .remove old before after
      · rw [Items.remove_of_le hi]
        exact ⟨_, .remove hi⟩

/-- What an edit does to an object fits the object. -/
theorem fits_apply_object (h : e.container? = some .object) (members : List (String × Value)) :
    e.Fits (.object members) (e.apply (.object members)) := by
  cases e with
  | replace | push | insert | set | remove => exact absurd h nofun
  | put key value =>
      rw [apply, onMembers_object]
      by_cases hkey : key ∈ Members.keys members
      · obtain ⟨before, old, after, rfl, hbefore⟩ := Members.exists_cut hkey
        rw [Members.lookup_cut hbefore, Members.insert_cut hbefore]
        exact .putOver value old after hbefore
      · rw [Members.lookup_of_not_mem hkey, Members.insert_eq_append value hkey]
        exact .putNew value hkey
  | tryPut key value =>
      rw [apply, onMembers_object, Members.tryInsert]
      by_cases hkey : key ∈ Members.keys members
      · rw [if_pos (Members.contains_iff.2 hkey)]
        exact ⟨_, .tryPut hkey⟩
      · rw [if_neg (mt Members.contains_iff.1 hkey), Members.insert_eq_append value hkey]
        exact .tryPut value hkey
  | delete key =>
      rw [apply, onMembers_object]
      by_cases hkey : key ∈ Members.keys members
      · obtain ⟨before, old, after, rfl, hbefore⟩ := Members.exists_cut hkey
        rw [Members.remove_cut hbefore]
        exact .delete old after hbefore
      · rw [Members.remove, Members.lookup_of_not_mem hkey]
        exact ⟨_, .delete hkey⟩

/-- **What an edit does at its place fits the value there.** -/
theorem fits_apply (e : Edit) (w : Value) : e.Fits w (e.apply w) := by
  cases hcontainer : e.container? with
  | none =>
      cases e with
      | replace new => exact .replace new w
      | push | insert | set | remove | put | tryPut | delete => exact absurd hcontainer nofun
  | some k =>
      by_cases hkind : w.kind = k
      · subst hkind
        cases w with
        | array items => exact fits_apply_array hcontainer items
        | object members => exact fits_apply_object hcontainer members
        | null | boolean | integer | real | string => cases e <;> exact absurd hcontainer nofun
      · rw [apply_of_kind_ne hcontainer hkind]
        exact ⟨_, .wrongType hcontainer hkind⟩

/-- An edit that succeeds makes what it should. -/
theorem makes_of_apply (h : e.apply w = .ok (old, w')) : e.Makes w old w' := by
  have hfits := fits_apply e w
  rwa [h] at hfits

/-- **An edit fails at its place exactly if it is refused.** -/
theorem apply_eq_error_iff : e.apply w = .error f ↔ ∃ code, e.Refused w code f := by
  constructor
  · intro h
    have hfits := fits_apply e w
    rwa [h] at hfits
  · rintro ⟨code, h⟩
    cases h with
    | wrongType hcontainer hkind => exact apply_of_kind_ne hcontainer hkind
    | insert hi => rw [apply, onItems_array, Items.insert_of_lt hi]; rfl
    | set hi => rw [apply, onItems_array, Items.set_of_le hi]; rfl
    | remove hi => rw [apply, onItems_array, Items.remove_of_le hi]; rfl
    | tryPut hkey =>
        rw [apply, onMembers_object, Members.tryInsert, if_pos (Members.contains_iff.2 hkey)]
        rfl
    | delete hkey =>
        rw [apply, onMembers_object, Members.remove, Members.lookup_of_not_mem hkey]
        rfl

/-! ### What an edit leaves alone -/

/-- The values that an edit brings into the tree. -/
def written? : Edit → Option Value
  | replace x | push x | insert _ x | set _ x | put _ x | tryPut _ x => some x
  | remove _ | delete _ => none

/-- The **edited place**, seen from the value that is edited. -/
def target (e : Edit) (w : Value) : List Step :=
  match e with
  | replace _ => []
  | push _ => [.item w.itemCount]
  | insert i _ | set i _ | remove i => [.item i]
  | put key _ | tryPut key _ | delete key => [.member key]

/-- An edit **spares** a path from the value that is edited: the path is neither a prefix nor an
extension of the edited place. An item that is inserted takes the place of none, so it spares all
that is inside the array. -/
def Spares (e : Edit) (w : Value) (q : List Step) : Prop :=
  match e with
  | insert _ _ => q ≠ []
  | e => ¬ q <+: e.target w ∧ ¬ e.target w <+: q

/-- The step that leads after an edit to where a step led before. -/
def movedStep : Edit → Step → Step
  | insert i _, .item j => .item (if i ≤ j then j + 1 else j)
  | remove i, .item j => .item (if i < j then j - 1 else j)
  | _, s => s

/-- The path that leads after an edit to where a path led before, both from the value that is
edited: an index behind an item that is put in or taken out is **moved** by one. -/
def moved (e : Edit) : List Step → List Step
  | [] => []
  | s :: q => e.movedStep s :: q

end Edit

/-- A place **reads as** before: as the same value or with the same report, but for an index past
the end of an array, which is still past it when the array has changed its length. -/
def ReadsAs (before after : Except AccessFault Value) : Prop :=
  after = before ∨ ∃ i m j n, m ≤ i ∧ n ≤ j ∧ before = .error (.indexOutOfRange i m) ∧
    after = .error (.indexOutOfRange j n)

theorem ReadsAs.of_eq {before after : Except AccessFault Value} (h : after = before) :
    ReadsAs before after :=
  .inl h

/-- What reads as before in two arrays at two indices. -/
theorem readsAs_get {items others : List Value} {i j : ℕ} (h : others[j]? = items[i]?) :
    ReadsAs (Items.get i items) (Items.get j others) := by
  rw [Items.get, Items.get, h]
  cases hi : items[i]? with
  | some y => exact .of_eq rfl
  | none =>
      rw [hi, List.getElem?_eq_none_iff] at h
      exact .inr ⟨i, items.length, j, others.length, List.getElem?_eq_none_iff.1 hi, h, rfl, rfl⟩

theorem get_members_eq {members others : List (String × Value)} {key : String}
    (h : others.lookup key = members.lookup key) :
    Members.get key others = Members.get key members := by
  rw [Members.get, Members.get, h]

/-- What is reached through a child that reads as before reads as before. -/
theorem ReadsAs.follow {t : Step} (h : ReadsAs (w.child s) (w'.child t)) (q : List Step) :
    ReadsAs (w.follow (s :: q)) (w'.follow (t :: q)) := by
  rw [Value.follow, Value.follow]
  rcases h with h | ⟨i, m, j, n, hi, hj, hbefore, hafter⟩
  · rw [h]
    exact .of_eq rfl
  · rw [hbefore, hafter]
    exact .inr ⟨i, m, j, n, hi, hj, rfl, rfl⟩

namespace Edit

/-- A step is spared by an edit of a child if it does not lead to that child. -/
theorem ne_of_not_prefix {t : Step} (h : ¬ [t] <+: s :: q) : s ≠ t := by
  rintro rfl
  exact h (List.cons_prefix_cons.2 ⟨rfl, List.nil_prefix⟩)

/-- **A step that an edit spares reads as before**, at the place that it is moved to. -/
theorem Makes.child_readsAs (h : e.Makes w old w') (hs : e.Spares w (s :: q)) :
    ReadsAs (w.child s) (w'.child (e.movedStep s)) := by
  cases h with
  | replace => exact absurd List.nil_prefix hs.2
  | push x items =>
      have hne := ne_of_not_prefix hs.2
      cases s with
      | member key => exact .of_eq rfl
      | item j =>
          have hj : j ≠ items.length := fun hj => hne (congrArg Step.item hj)
          refine readsAs_get ?_
          grind
  | insert x before after =>
      cases s with
      | member key => exact .of_eq rfl
      | item j =>
          refine readsAs_get ?_
          grind
  | set x y before after =>
      have hne := ne_of_not_prefix hs.2
      cases s with
      | member key => exact .of_eq rfl
      | item j =>
          have hj : j ≠ before.length := fun hj => hne (congrArg Step.item hj)
          refine readsAs_get ?_
          grind
  | remove y before after =>
      have hne := ne_of_not_prefix hs.2
      cases s with
      | member key => exact .of_eq rfl
      | item j =>
          have hj : j ≠ before.length := fun hj => hne (congrArg Step.item hj)
          refine readsAs_get ?_
          grind
  | putNew x hkey | tryPut x hkey =>
      have hne := ne_of_not_prefix hs.2
      cases s with
      | member k =>
          have hk : k ≠ _ := fun hk => hne (congrArg Step.member hk)
          refine .of_eq (get_members_eq ?_)
          rw [Members.lookup_cut_of_ne hk, List.append_nil]
      | item j => exact .of_eq rfl
  | putOver x y after hkey =>
      have hne := ne_of_not_prefix hs.2
      cases s with
      | member k =>
          have hk : k ≠ _ := fun hk => hne (congrArg Step.member hk)
          refine .of_eq (get_members_eq ?_)
          rw [Members.lookup_cut_of_ne hk, Members.lookup_cut_of_ne hk]
      | item j => exact .of_eq rfl
  | delete y after hkey =>
      have hne := ne_of_not_prefix hs.2
      cases s with
      | member k =>
          have hk : k ≠ _ := fun hk => hne (congrArg Step.member hk)
          refine .of_eq (get_members_eq ?_)
          rw [Members.lookup_cut_of_ne hk]
      | item j => exact .of_eq rfl

/-- **A path that an edit spares reads as before**, at the place that it is moved to. -/
theorem Makes.readsAs (h : e.Makes w old w') (hq : e.Spares w q) :
    ReadsAs (w.follow q) (w'.follow (e.moved q)) := by
  cases q with
  | nil =>
      cases h with
      | insert x before after => exact absurd rfl hq
      | replace | push | set | remove | putNew | putOver | tryPut | delete =>
          exact absurd List.nil_prefix hq.1
  | cons s q => exact (h.child_readsAs hq).follow q

/-! ### What an edit shows -/

/-- **What an edit brings into the tree is read at the edited place.** -/
theorem Makes.follow_target (h : e.Makes w old w') (hx : e.written? = some x) :
    w'.follow (e.target w) = .ok x := by
  have hitem : ∀ before after : List Value,
      (Value.array (before ++ x :: after)).follow [.item before.length] = .ok x := by
    intro before after
    rw [Value.follow, Value.child_item_array, Items.get, Items.get_cut]
    rfl
  have hmember : ∀ {key : String} {before : List (String × Value)} (after : List (String × Value)),
      key ∉ Members.keys before →
      (Value.object (before ++ (key, x) :: after)).follow [.member key] = .ok x := by
    intro key before after hkey
    rw [Value.follow, Value.child_member_object, Members.get, Members.lookup_cut hkey]
    rfl
  cases h with
  | replace x' =>
      obtain rfl := Option.some.inj hx
      rfl
  | push x' items =>
      obtain rfl := Option.some.inj hx
      exact hitem items []
  | insert x' before after | set x' y before after =>
      obtain rfl := Option.some.inj hx
      exact hitem before after
  | putNew x' hkey | tryPut x' hkey =>
      obtain rfl := Option.some.inj hx
      exact hmember [] hkey
  | putOver x' y after hkey =>
      obtain rfl := Option.some.inj hx
      exact hmember after hkey
  | remove | delete => simp [Edit.written?] at hx

/-- A member that is deleted is not found any more. -/
theorem Makes.follow_deleted {key : String} (h : Makes (.delete key) w old w')
    (hw : w.KeysDistinct) : w'.follow [.member key] = .error (.noMember key) := by
  cases h with
  | delete y after hkey =>
      have hnodup := (Value.keysDistinct_object_iff.1 hw).1
      rw [Members.keys, List.map_append, List.map_cons, List.nodup_middle, List.nodup_cons,
        ← List.map_append] at hnodup
      rw [Value.follow, Value.child_member_object, Members.get,
        Members.lookup_of_not_mem hnodup.1]

/-- **An edit keeps keys distinct** throughout. -/
theorem Makes.keysDistinct (h : e.Makes w old w') (hw : w.KeysDistinct)
    (hx : ∀ x ∈ e.written?, x.KeysDistinct) : w'.KeysDistinct := by
  cases h with
  | replace => exact hx _ rfl
  | push x items =>
      rw [Value.keysDistinct_array_iff] at hw ⊢
      exact List.forall_mem_append.2 ⟨hw, List.forall_mem_singleton.2 (hx x rfl)⟩
  | insert x before after =>
      rw [Value.keysDistinct_array_iff, List.forall_mem_append] at hw ⊢
      exact ⟨hw.1, List.forall_mem_cons.2 ⟨hx x rfl, hw.2⟩⟩
  | set x y before after =>
      rw [Value.keysDistinct_array_iff, List.forall_mem_append, List.forall_mem_cons] at hw ⊢
      exact ⟨hw.1, hx x rfl, hw.2.2⟩
  | remove y before after =>
      rw [Value.keysDistinct_array_iff, List.forall_mem_append] at hw ⊢
      exact ⟨hw.1, (List.forall_mem_cons.1 hw.2).2⟩
  | putNew x hkey | tryPut x hkey =>
      rw [← Members.insert_eq_append x hkey]
      exact Value.keysDistinct_insert hw (hx x rfl)
  | putOver x y after hkey =>
      rw [← Members.insert_cut hkey y]
      exact Value.keysDistinct_insert hw (hx x rfl)
  | @delete key y before after hkey =>
      rw [Value.keysDistinct_object_iff] at hw ⊢
      have hsublist : (before ++ after).Sublist (before ++ (key, y) :: after) :=
        (List.Sublist.refl before).append (List.sublist_cons_self _ after)
      exact ⟨hw.1.sublist (hsublist.map Prod.fst), fun m hm => hw.2 m (hsublist.subset hm)⟩

end Edit

/-! ### Edits in a tree -/

/-- A tree **is edited** at the end of a path: the tree `v`, with `w` in that place, becomes the
tree `new`, with `w'` there. -/
structure Value.IsEdited (v : Value) (path : List Step) (e : Edit) (w : Value)
    (old : Option Value) (w' new : Value) : Prop where
  /-- The value that was in the place. -/
  before : v.follow path = .ok w
  /-- The value that is there now, as the edit makes it. -/
  after : new.follow path = .ok w'
  makes : e.Makes w old w'
  /-- What the edit brings into the tree is read at the edited place. -/
  written : ∀ x, e.written? = some x → new.follow (path ++ e.target w) = .ok x
  /-- A member that is deleted is read no more. -/
  deleted : ∀ key, e = .delete key → new.follow (path ++ [.member key]) = .error (.noMember key)
  /-- Beside the path everything reads as before. -/
  beside : ∀ q, ¬ q <+: path → ¬ path <+: q → new.follow q = v.follow q
  /-- So does everything inside the edited value that the edit spares, where it is moved to. -/
  spared : ∀ q, e.Spares w q → ReadsAs (v.follow (path ++ q)) (new.follow (path ++ e.moved q))
  /-- The containers on the way keep their sizes and the order of their keys. -/
  around : ∀ q s, q ++ [s] <+: path →
    ∃ c c', v.follow q = .ok c ∧ new.follow q = .ok c' ∧ c.Outlines c'
  /-- The keys are distinct throughout. -/
  distinct : new.KeysDistinct

/-- **An edit fails exactly if it is refused**, by the first step that is refused or at its
place. -/
theorem Value.edit_eq_error_iff :
    v.edit path e = .error f ↔ ∃ code, v.IsRefused path e code f := by
  rw [edit, editAt_eq_error_iff]
  constructor
  · rintro (⟨before, s, after, w, hpath, hw, hs⟩ | ⟨w, hw, he⟩)
    · obtain ⟨code, hs⟩ := child_eq_error_iff.1 hs
      exact ⟨code, .inl ⟨before, s, after, w, hpath, hw, hs⟩⟩
    · obtain ⟨code, he⟩ := Edit.apply_eq_error_iff.1 he
      exact ⟨code, .inr ⟨w, hw, he⟩⟩
  · rintro ⟨code, ⟨before, s, after, w, hpath, hw, hs⟩ | ⟨w, hw, he⟩⟩
    · exact .inl ⟨before, s, after, w, hpath, hw, child_eq_error_iff.2 ⟨code, hs⟩⟩
    · exact .inr ⟨w, hw, Edit.apply_eq_error_iff.2 ⟨code, he⟩⟩

theorem Value.IsRefused.code_eq (h : v.IsRefused path e code f) : f.toError.code = code := by
  rcases h with ⟨-, s, -, w, -, -, hs⟩ | ⟨w, -, he⟩
  · exact hs.code_eq
  · exact he.code_eq

/-- **An edit that succeeds edits its place.** -/
theorem Value.exists_isEdited {new : Value} (h : v.edit path e = .ok (old, new))
    (hv : v.KeysDistinct) (hx : ∀ x ∈ e.written?, x.KeysDistinct) :
    ∃ w w', v.IsEdited path e w old w' new := by
  obtain ⟨w, w', hw, happly, rfl⟩ := editAt_eq_ok_iff.1 h
  have hmakes := Edit.makes_of_apply happly
  have hdistinct := hmakes.keysDistinct (hv.follow hw) hx
  have hnew := follow_withAt hw w'
  refine ⟨w, w', hw, hnew, hmakes, fun x hx => ?_, ?_, fun q hq hpath => ?_, fun q hq => ?_,
    fun q s hq => exists_outlines_withAt hw hq, hv.withAt hdistinct path⟩
  · rw [follow_append_of_follow hnew, hmakes.follow_target hx]
  · rintro key rfl
    rw [follow_append_of_follow hnew, hmakes.follow_deleted (hv.follow hw)]
  · exact follow_withAt_of_not_prefix hpath hq
  · rw [follow_append_of_follow hnew, follow_append_of_follow hw]
    exact hmakes.readsAs hq

/-- **An edit in place keeps keys distinct**, whether it takes place or not, so all that holds of
one edit holds of every one in a row of them. -/
theorem Value.KeysDistinct.carryOut (hv : v.KeysDistinct) (hx : ∀ x ∈ e.written?, x.KeysDistinct)
    (path : List Step) : (v.carryOut e path).2.KeysDistinct := by
  rw [carryOut_eq]
  split
  · next old new h =>
    obtain ⟨w, w', hedited⟩ := exists_isEdited h hv hx
    exact hedited.distinct
  · exact hv

/-- **Edits touch their place and nothing else.** An edit at the end of a path fails at the first
step that is refused, or as it is refused at its place, and the tree stands as it was. Otherwise the
place shows the edit and every other one reads as before, all members keep their order and all keys
are distinct. -/
theorem Value.edit_frame (v : Value) (path : List Step) (e : Edit) (hv : v.KeysDistinct)
    (hx : ∀ x ∈ e.written?, x.KeysDistinct) :
    (∀ f, v.edit path e = .error f ↔ ∃ code, v.IsRefused path e code f ∧ f.toError.code = code) ∧
    (∀ f, v.edit path e = .error f → v.carryOut e path = (.error f, v)) ∧
    ∀ old new, v.edit path e = .ok (old, new) →
      v.carryOut e path = (.ok old, new) ∧ ∃ w w', v.IsEdited path e w old w' new := by
  refine ⟨fun f => ?_, fun f h => ?_, fun old new h => ⟨?_, exists_isEdited h hv hx⟩⟩
  · rw [edit_eq_error_iff]
    exact exists_congr fun code => (and_iff_left_of_imp IsRefused.code_eq).symm
  · rw [carryOut_eq, h]
  · rw [carryOut_eq, h]

/-- The first item is taken out of an array in an object. The member of the second one is then read
one place further up. -/
theorem Value.edit_frame_remove :
    let v := object [("a", array [null, object [("b", boolean true)], null])]
    let new := object [("a", array [object [("b", boolean true)], null])]
    v.KeysDistinct ∧ v.carryOut (.remove 0) [.member "a"] = (.ok (some null), new) ∧
      new.KeysDistinct ∧
      ReadsAs (v.follow [.member "a", .item 1, .member "b"])
        (new.follow [.member "a", .item 0, .member "b"]) := by
  intro v new
  have hv : v.KeysDistinct := by simp [v, KeysDistinct, KeysDistinctItems, KeysDistinctMembers]
  have hedit : v.edit [.member "a"] (.remove 0) = .ok (some null, new) := rfl
  obtain ⟨-, -, hok⟩ := edit_frame v [.member "a"] (.remove 0) hv (by simp [Edit.written?])
  obtain ⟨hcarry, w, w', hedited⟩ := hok _ _ hedit
  refine ⟨hv, hcarry, hedited.distinct, hedited.spared [.item 1, .member "b"] ?_⟩
  simp [Edit.Spares, Edit.target]

end StrictJson
