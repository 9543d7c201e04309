import Mathlib.Data.List.Perm.Subperm
import Mathlib.Data.List.Sort
import Mathlib.Data.String.Basic
import StrictJson.Proofs.Value.Shape
import StrictJson.Value.Equality
import StrictJson.Value.Identity

/-!
# Canonical Values

Equality of values, `==`, forgets the order of members and the sign of zero, and it refuses whatever
is not a number. So two values are equal exactly if they have no such real and the same **canonical
form**: the value with the members of every object in the order of their keys and with one zero.

Members are compared from one side only: there are as many on the left as on the right, and each one
on the left is found on the right. Keys are distinct, so this finds all on the right, and a
comparison from the other side says the same. All that equality promises follows from the canonical
form, and nothing needs a second look at the comparison itself.

## Main definitions

* `Value.canonical`: the canonical form.
* `Value.NaNFree`: every real is a number.
* `Rearranges`: the members of some objects inside a value are put in another order.

## Main results

* `equal_iff`: equality is equality of canonical forms.
* `Rearranges.canonical_eq`: the canonical form does not depend on the order of members.
* `equal_iff_canonical`: both, and what follows from them.
-/

namespace StrictJson

/-! ### Members in the order of their keys -/

namespace Members

variable {α : Type} {members others : List (String × α)}

/-- Members **sorted** by their keys. -/
def sortByKey (members : List (String × α)) : List (String × α) :=
  members.insertionSort (Order.Preimage Prod.fst (· ≤ ·))

theorem perm_sortByKey (members : List (String × α)) : (sortByKey members).Perm members :=
  List.perm_insertionSort _ members

/-- **Members with distinct keys are sorted alike** if they are the same members in any order. -/
theorem sortByKey_eq_iff (h : (members.map Prod.fst).Nodup) :
    sortByKey members = sortByKey others ↔ members.Perm others := by
  constructor
  · intro heq
    exact (perm_sortByKey members).symm.trans (heq ▸ perm_sortByKey others)
  · intro hperm
    have hsorted : (sortByKey members).Perm (sortByKey others) :=
      (perm_sortByKey members).trans (hperm.trans (perm_sortByKey others).symm)
    refine hsorted.eq_of_pairwise ?_ (List.pairwise_insertionSort _ _)
      (List.pairwise_insertionSort _ _)
    intro m n hm hn hle hge
    have hm : m ∈ members := (perm_sortByKey members).subset hm
    have hn : n ∈ members := hperm.symm.subset ((perm_sortByKey others).subset hn)
    exact List.inj_on_of_nodup_map h hm hn (le_antisymm hle hge)

/-- What is found under a key is the member with this key. -/
theorem lookup_eq_some_iff (h : (members.map Prod.fst).Nodup) {key : String} {value : α} :
    members.lookup key = some value ↔ (key, value) ∈ members := by
  induction members with
  | nil => simp
  | cons m ms ih =>
      obtain ⟨hnot, hms⟩ := List.nodup_cons.1 h
      rw [lookup_cons, List.mem_cons]
      by_cases hkey : key = m.1
      · subst hkey
        have habsent : (m.1, value) ∉ ms := fun hmem => hnot (List.mem_map.2 ⟨_, hmem, rfl⟩)
        rw [if_pos rfl, or_iff_left habsent, Prod.ext_iff, Option.some.injEq]
        exact ⟨fun heq => ⟨rfl, heq.symm⟩, fun heq => heq.2.symm⟩
      · rw [if_neg hkey, ih hms, or_iff_right fun heq => hkey (congrArg Prod.fst heq)]

/-- **Counting members**: if there are as many on both sides and each on the left is on the right,
then both sides have the same members. -/
theorem perm_of_subset_of_length (h : (members.map Prod.fst).Nodup)
    (hlength : members.length = others.length) (hsubset : members ⊆ others) :
    members.Perm others :=
  (List.subperm_of_subset (List.Nodup.of_map _ h) hsubset).perm_of_length_le hlength.ge

end Members

/-! ### One zero -/

namespace Binary64

/-- The number with the sign taken from zero. -/
def withoutZeroSign (x : Binary64) : Binary64 :=
  if x.isZero then ⟨0⟩ else x

theorem isNaN_withoutZeroSign (x : Binary64) : x.withoutZeroSign.isNaN = x.isNaN := by
  rw [withoutZeroSign]
  split_ifs with hzero
  · have hx : x.magnitude = 0 := eq_of_beq hzero
    rw [isNaN, isNaN, hx]
    rfl
  · rfl

/-- Numbers are equal if they are numbers and the same but for the sign of zero. -/
theorem equal_iff {x y : Binary64} :
    x.equal y = true ↔ x.isNaN = false ∧ x.withoutZeroSign = y.withoutZeroSign := by
  have hbits : x.bits = y.bits ↔ x = y := ⟨fun h => congrArg mk h, congrArg bits⟩
  have hkept : ∀ {z : Binary64}, z.isZero = true → z.isNaN = false := by
    intro z hz
    rw [← isNaN_withoutZeroSign, withoutZeroSign, if_pos hz]
    rfl
  simp only [equal, Bool.and_eq_true, Bool.not_eq_true', Bool.or_eq_true, beq_iff_eq, hbits]
  constructor
  · rintro ⟨⟨hx, -⟩, rfl | ⟨hzero, hzero'⟩⟩
    · exact ⟨hx, rfl⟩
    · rw [withoutZeroSign, withoutZeroSign, if_pos hzero, if_pos hzero']
      exact ⟨hx, rfl⟩
  · rintro ⟨hx, heq⟩
    have hy : y.isNaN = false := by rw [← isNaN_withoutZeroSign, ← heq, isNaN_withoutZeroSign, hx]
    refine ⟨⟨hx, hy⟩, ?_⟩
    rw [withoutZeroSign, withoutZeroSign] at heq
    split_ifs at heq with hzero hzero' hzero'
    · exact .inr ⟨hzero, hzero'⟩
    · rw [← heq] at hzero'
      exact absurd rfl hzero'
    · rw [heq] at hzero
      exact absurd rfl hzero
    · exact .inl heq

end Binary64

namespace Value

/-! ### The canonical form -/

mutual

/-- The **canonical form** of a value: the members of every object in the order of their keys, and
no sign on any zero. -/
def canonical : Value → Value
  | .real x => .real x.withoutZeroSign
  | .array items => .array (canonicalItems items)
  | .object members => .object (Members.sortByKey (canonicalMembers members))
  | .null => .null
  | .boolean b => .boolean b
  | .integer n => .integer n
  | .string s => .string s

/-- The canonical forms of items, in their order. -/
def canonicalItems : List Value → List Value
  | [] => []
  | v :: vs => v.canonical :: canonicalItems vs

/-- The members with the canonical forms of their values. -/
def canonicalMembers : List (String × Value) → List (String × Value)
  | [] => []
  | (k, v) :: ms => (k, v.canonical) :: canonicalMembers ms

end

theorem canonicalItems_eq_map (items : List Value) :
    canonicalItems items = items.map canonical := by
  induction items with
  | nil => rfl
  | cons v vs ih => rw [canonicalItems, ih, List.map_cons]

theorem canonicalMembers_eq_map (members : List (String × Value)) :
    canonicalMembers members = members.map fun m => (m.1, m.2.canonical) := by
  induction members with
  | nil => rfl
  | cons m ms ih => rw [canonicalMembers, ih, List.map_cons]

theorem length_canonicalMembers (members : List (String × Value)) :
    (canonicalMembers members).length = members.length := by
  rw [canonicalMembers_eq_map, List.length_map]

theorem mem_canonicalMembers {members : List (String × Value)} {m : String × Value} :
    m ∈ canonicalMembers members ↔ ∃ n ∈ members, (n.1, n.2.canonical) = m := by
  rw [canonicalMembers_eq_map, List.mem_map]

/-- The keys stay as they are. -/
theorem map_fst_canonicalMembers (members : List (String × Value)) :
    (canonicalMembers members).map Prod.fst = members.map Prod.fst := by
  rw [canonicalMembers_eq_map, List.map_map]
  rfl

/-- A real, if it is one, is a number. -/
def NumberReal : Value → Prop
  | .real x => x.isNaN = false
  | _ => True

/-- **Every real is a number**, at any depth. -/
def NaNFree (v : Value) : Prop := v.Every NumberReal

/-- The canonical form has the same reals but for the signs of zeros. -/
theorem nanFree_canonical {v : Value} : v.canonical.NaNFree ↔ v.NaNFree := by
  induction v using Value.induction with
  | null | boolean | integer | string => exact Iff.rfl
  | real x =>
      rw [canonical]
      exact Eq.congr_left x.isNaN_withoutZeroSign
  | array items ih =>
      rw [canonical, NaNFree, NaNFree, every_array_iff, every_array_iff, canonicalItems_eq_map,
        List.forall_mem_map]
      exact and_congr_right fun _ => forall₂_congr ih
  | object members ih =>
      rw [canonical, NaNFree, NaNFree, every_object_iff, every_object_iff]
      simp only [(Members.perm_sortByKey _).mem_iff, canonicalMembers_eq_map, List.forall_mem_map]
      exact and_congr_right fun _ => forall₂_congr ih

/-! ### Equality from one side -/

/-- Items are compared place by place. -/
theorem equalItems_iff {items others : List Value} :
    equalItems items others = true ↔ List.Forall₂ (fun v w => v.equal w = true) items others := by
  induction items generalizing others with
  | nil => cases others <;> simp [equalItems]
  | cons v vs ih => cases others <;> simp [equalItems, ih]

/-- Each member on the left is compared with the one that has its key. -/
theorem equalMembers_iff {members others : List (String × Value)}
    (h : (others.map Prod.fst).Nodup) :
    equalMembers members others = true ↔
      ∀ m ∈ members, ∃ w, (m.1, w) ∈ others ∧ m.2.equal w = true := by
  induction members with
  | nil => exact iff_of_true rfl (List.forall_mem_nil _)
  | cons m ms ih =>
      obtain ⟨k, v⟩ := m
      rw [equalMembers, Bool.and_eq_true, ih, List.forall_mem_cons]
      refine and_congr_left fun _ => ?_
      simp only [← Members.lookup_eq_some_iff h]
      cases others.lookup k <;> simp

/-- Items of which the canonical forms agree place by place have the same canonical forms. -/
theorem forall₂_canonical_iff {items others : List Value} :
    List.Forall₂ (fun v w => v.NaNFree ∧ v.canonical = w.canonical) items others ↔
      (∀ v ∈ items, v.NaNFree) ∧ canonicalItems items = canonicalItems others := by
  rw [canonicalItems_eq_map, canonicalItems_eq_map]
  induction items generalizing others with
  | nil => simp [eq_comm]
  | cons v vs ih =>
      cases others with
      | nil => simp
      | cons w ws =>
          rw [List.forall₂_cons, ih, List.forall_mem_cons, List.map_cons, List.map_cons,
            List.cons.injEq]
          exact and_and_and_comm

/-- **Members found on the right one by one** are, in canonical form, the members on the right. -/
theorem exists_canonical_iff {members others : List (String × Value)}
    (h : (members.map Prod.fst).Nodup) :
    (members.length = others.length ∧ ∀ m ∈ members, ∃ w, (m.1, w) ∈ others ∧
      m.2.NaNFree ∧ m.2.canonical = w.canonical) ↔
    (∀ m ∈ members, m.2.NaNFree) ∧
      Members.sortByKey (canonicalMembers members) =
        Members.sortByKey (canonicalMembers others) := by
  have hkeys : ((canonicalMembers members).map Prod.fst).Nodup :=
    (map_fst_canonicalMembers members).symm ▸ h
  rw [Members.sortByKey_eq_iff hkeys]
  constructor
  · rintro ⟨hlength, hfound⟩
    refine ⟨fun m hm => ?_, Members.perm_of_subset_of_length hkeys ?_ fun m hm => ?_⟩
    · obtain ⟨w, -, hnan, -⟩ := hfound m hm
      exact hnan
    · rw [length_canonicalMembers, length_canonicalMembers, hlength]
    · obtain ⟨n, hn, rfl⟩ := mem_canonicalMembers.1 hm
      obtain ⟨w, hw, -, hcanonical⟩ := hfound n hn
      exact mem_canonicalMembers.2 ⟨(n.1, w), hw, congrArg (Prod.mk n.1) hcanonical.symm⟩
  · rintro ⟨hnan, hperm⟩
    have hlength := hperm.length_eq
    rw [length_canonicalMembers, length_canonicalMembers] at hlength
    refine ⟨hlength, fun m hm => ?_⟩
    have hfound := hperm.subset (mem_canonicalMembers.2 ⟨m, hm, rfl⟩)
    obtain ⟨n, hn, heq⟩ := mem_canonicalMembers.1 hfound
    obtain ⟨hkey, hcanonical⟩ := Prod.mk.inj heq
    exact ⟨n.2, hkey ▸ hn, hnan m hm, hcanonical.symm⟩

/-! ### Equality by canonical forms -/

/-- **Values are equal if every real of one is a number and their canonical forms are the same.**
Then every real of the other is a number too, as the canonical form shows. -/
theorem equal_iff {v w : Value} (hv : v.KeysDistinct) (hw : w.KeysDistinct) :
    v.equal w = true ↔ v.NaNFree ∧ v.canonical = w.canonical := by
  induction v using Value.induction generalizing w with
  | null | boolean | integer | string =>
      cases w <;> simp [equal, canonical, NaNFree, Every, NumberReal]
  | real x =>
      cases w with
      | real y =>
          rw [equal, Binary64.equal_iff, canonical, canonical, real.injEq]
          exact Iff.rfl
      | _ => simp [equal, canonical]
  | array items ih =>
      cases w with
      | array others =>
          rw [KeysDistinct, keysDistinctItems_iff] at hv hw
          have hitems : List.Forall₂ (fun v w => v.equal w = true) items others ↔
              List.Forall₂ (fun v w => v.NaNFree ∧ v.canonical = w.canonical) items others := by
            simp only [List.forall₂_iff_get]
            refine and_congr_right fun _ => forall₃_congr fun i hi hi' => ?_
            exact ih _ (List.get_mem items ⟨i, hi⟩) (hv _ (List.get_mem items ⟨i, hi⟩))
              (hw _ (List.get_mem others ⟨i, hi'⟩))
          rw [equal, equalItems_iff, hitems, forall₂_canonical_iff, canonical, canonical,
            array.injEq, NaNFree, every_array_iff]
          exact and_congr_left fun _ => (and_iff_right trivial).symm
      | _ => simp [equal, canonical]
  | object members ih =>
      cases w with
      | object others =>
          rw [KeysDistinct, keysDistinctMembers_iff] at hv hw
          have hmembers : (∀ m ∈ members, ∃ w, (m.1, w) ∈ others ∧ m.2.equal w = true) ↔
              ∀ m ∈ members, ∃ w, (m.1, w) ∈ others ∧ m.2.NaNFree ∧
                m.2.canonical = w.canonical :=
            forall₂_congr fun m hm => exists_congr fun w => and_congr_right fun hw' =>
              ih m hm (hv.2 m hm) (hw.2 _ hw')
          rw [equal, Bool.and_eq_true, beq_iff_eq, equalMembers_iff hw.1, hmembers,
            exists_canonical_iff hv.1, canonical, canonical, object.injEq, NaNFree,
            every_object_iff]
          exact and_congr_left fun _ => (and_iff_right trivial).symm
      | _ => simp [equal, canonical]

end Value

/-! ### Other orders -/

/-- A value **rearranges** another one: the members of some objects inside it, at any depth, stand
in another order. -/
inductive Rearranges : Value → Value → Prop
  | refl (v : Value) : Rearranges v v
  | trans {u v w : Value} : Rearranges u v → Rearranges v w → Rearranges u w
  | members {members others : List (String × Value)} :
      members.Perm others → Rearranges (.object members) (.object others)
  | item {before after : List Value} {v w : Value} :
      Rearranges v w → Rearranges (.array (before ++ v :: after)) (.array (before ++ w :: after))
  | member {before after : List (String × Value)} {key : String} {v w : Value} :
      Rearranges v w →
        Rearranges (.object (before ++ (key, v) :: after)) (.object (before ++ (key, w) :: after))

/-- **The canonical form does not depend on the order of members**, and keys stay distinct. -/
theorem Rearranges.canonical_eq {v w : Value} (h : Rearranges v w) (hv : v.KeysDistinct) :
    w.KeysDistinct ∧ v.canonical = w.canonical := by
  induction h with
  | refl v => exact ⟨hv, rfl⟩
  | trans _ _ ih ih' =>
      obtain ⟨hmid, heq⟩ := ih hv
      obtain ⟨hw, heq'⟩ := ih' hmid
      exact ⟨hw, heq.trans heq'⟩
  | @members members others hperm =>
      rw [Value.KeysDistinct, Value.keysDistinctMembers_iff] at hv ⊢
      refine ⟨⟨(hperm.map Prod.fst).nodup_iff.1 hv.1,
        fun m hm => hv.2 m (hperm.symm.subset hm)⟩, ?_⟩
      rw [Value.canonical, Value.canonical, Value.object.injEq, Members.sortByKey_eq_iff]
      · rw [Value.canonicalMembers_eq_map, Value.canonicalMembers_eq_map]
        exact hperm.map _
      · rw [Value.map_fst_canonicalMembers]
        exact hv.1
  | @item before after v w _ ih =>
      simp only [Value.KeysDistinct, Value.keysDistinctItems_iff, List.forall_mem_append,
        List.forall_mem_cons] at hv ⊢
      obtain ⟨hw, heq⟩ := ih hv.2.1
      refine ⟨⟨hv.1, hw, hv.2.2⟩, ?_⟩
      simp only [Value.canonical, Value.canonicalItems_eq_map, List.map_append, List.map_cons, heq]
  | @member before after key v w _ ih =>
      simp only [Value.KeysDistinct, Value.keysDistinctMembers_iff, List.forall_mem_append,
        List.forall_mem_cons, List.map_append, List.map_cons] at hv ⊢
      obtain ⟨hw, heq⟩ := ih hv.2.2.1
      refine ⟨⟨hv.1, hv.2.1, hw, hv.2.2.2⟩, ?_⟩
      simp only [Value.canonical, Value.canonicalMembers_eq_map, List.map_append, List.map_cons,
        heq]

namespace Value

/-- **Equality is structural and does not see the order of members.**

Two values are equal exactly if neither has a real, at any depth, that is not a number, and their
canonical forms are the same. So equality is symmetric and transitive, a value equals itself exactly
if all of its reals are numbers, and a value with the members of its objects in another order equals
the same values and is equalled by the same values as before. -/
theorem equal_iff_canonical {a b : Value} (ha : a.KeysDistinct) (hb : b.KeysDistinct) :
    ((a == b) = true ↔ a.NaNFree ∧ b.NaNFree ∧ a.canonical = b.canonical) ∧
    ((a == b) = true → (b == a) = true) ∧
    (∀ c : Value, c.KeysDistinct → (a == b) = true → (b == c) = true → (a == c) = true) ∧
    ((a == a) = true ↔ a.NaNFree) ∧
    ∀ a' : Value, Rearranges a a' → ((a' == b) = (a == b)) ∧ ((b == a') = (b == a)) := by
  have hiff : ∀ {v w : Value}, v.KeysDistinct → w.KeysDistinct →
      ((v == w) = true ↔ v.NaNFree ∧ v.canonical = w.canonical) := equal_iff
  have hother : ∀ {v w : Value}, v.canonical = w.canonical → (v.NaNFree ↔ w.NaNFree) := by
    intro v w heq
    rw [← nanFree_canonical, heq, nanFree_canonical]
  refine ⟨?_, ?_, ?_, ?_, ?_⟩
  · rw [hiff ha hb]
    exact and_congr_right fun hnan => ⟨fun heq => ⟨(hother heq).1 hnan, heq⟩, And.right⟩
  · rw [hiff ha hb, hiff hb ha]
    rintro ⟨hnan, heq⟩
    exact ⟨(hother heq).1 hnan, heq.symm⟩
  · intro c hc
    rw [hiff ha hb, hiff hb hc, hiff ha hc]
    rintro ⟨hnan, heq⟩ ⟨-, heq'⟩
    exact ⟨hnan, heq.trans heq'⟩
  · rw [hiff ha ha]
    exact and_iff_left rfl
  · intro a' hrearranges
    obtain ⟨ha', heq⟩ := hrearranges.canonical_eq ha
    constructor
    · rw [Bool.eq_iff_iff, hiff ha' hb, hiff ha hb, heq, hother heq]
    · rw [Bool.eq_iff_iff, hiff hb ha', hiff hb ha, heq]

/-- Two orders of the members and two zeros: the objects are equal, from both sides. -/
theorem equal_iff_canonical_twoOrders :
    let a : Value := .object [("y", .array [.integer 1]), ("x", .real ⟨0x8000000000000000⟩)]
    let b : Value := .object [("x", .real ⟨0⟩), ("y", .array [.integer 1])]
    a.KeysDistinct ∧ b.KeysDistinct ∧ (a == b) = true ∧ (b == a) = true := by
  intro a b
  have ha : a.KeysDistinct := ⟨by decide, ⟨trivial, trivial⟩, trivial, trivial⟩
  have hb : b.KeysDistinct := ⟨by decide, trivial, ⟨trivial, trivial⟩, trivial⟩
  obtain ⟨hiff, hsymm, -⟩ := equal_iff_canonical ha hb
  have hequal : (a == b) = true := by
    refine hiff.2 ⟨?_, ?_, by decide⟩
    · exact ⟨trivial, ⟨trivial, trivial, trivial⟩, rfl, trivial⟩
    · exact ⟨trivial, rfl, ⟨trivial, trivial, trivial⟩, trivial⟩
  exact ⟨ha, hb, hequal, hsymm hequal⟩

end Value

end StrictJson
