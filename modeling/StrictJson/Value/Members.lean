import StrictJson.Value.Basic

/-!
# Members of an Object

A list of members is a map from keys to values that remembers the order of insertion. Writing to a
key that is present replaces the value and leaves the member where it stands; a new key goes to the
end; taking a member out moves no other.

The functions work on the values of any type, and keep keys distinct if they are.

## Main results

* `Members.insert_eq_append`: a new key goes to the end.
* `Members.map_fst_insert`: the keys after an insertion.
* `Members.nodup_ofPairs`: members collected from pairs have distinct keys.
-/

namespace StrictJson.Members

variable {α : Type}

/-- Whether there is a member with the key. -/
def contains (key : String) (members : List (String × α)) : Bool :=
  (members.lookup key).isSome

/-- The value of a member. -/
def get (key : String) (members : List (String × α)) : Except AccessFault α :=
  match members.lookup key with
  | some v => .ok v
  | none => .error (.noMember key)

/-- Writes a value under a key, in place if the key is present and at the end otherwise. -/
def insert (key : String) (value : α) : List (String × α) → List (String × α)
  | [] => [(key, value)]
  | (k, v) :: ms => if k = key then (k, value) :: ms else (k, v) :: insert key value ms

/-- Writes the pairs one after the other. -/
def extend (members pairs : List (String × α)) : List (String × α) :=
  pairs.foldl (fun ms (k, v) => insert k v ms) members

/-- The members made of pairs in which a key may be repeated: the first one fixes its place and the
last one its value. -/
def ofPairs (pairs : List (String × α)) : List (String × α) :=
  extend [] pairs

/-- Writes a value under a key that must be new. -/
def tryInsert (key : String) (value : α) (members : List (String × α)) :
    Except AccessFault (List (String × α)) :=
  if contains key members then .error (.duplicateMember key) else .ok (insert key value members)

/-- Writes a value under a key that must be present. -/
def assign (key : String) (value : α) (members : List (String × α)) :
    Except AccessFault (List (String × α)) :=
  if contains key members then .ok (insert key value members) else .error (.noMember key)

/-- Takes out a member. The others keep their order. -/
def remove (key : String) (members : List (String × α)) :
    Except AccessFault (α × List (String × α)) :=
  match members.lookup key with
  | some v => .ok (v, members.eraseP fun m => m.1 == key)
  | none => .error (.noMember key)

/-- Visits the members one after the other and overwrites those for which `f` gives a value. -/
def rewrite (f : String → α → Option α) (members : List (String × α)) : List (String × α) :=
  members.map fun (k, v) => (k, (f k v).getD v)

/-- The keys, in the order of the members. -/
def keys (members : List (String × α)) : List String :=
  members.map Prod.fst

/-- The values, in the order of the members. -/
def values (members : List (String × α)) : List α :=
  members.map Prod.snd

/-! ### Insertion -/

/-- A new key goes to the end. -/
theorem insert_eq_append {key : String} {members : List (String × α)} (value : α)
    (h : key ∉ members.map Prod.fst) : insert key value members = members ++ [(key, value)] := by
  induction members with
  | nil => rfl
  | cons m ms ih =>
    simp only [List.map_cons, List.mem_cons, not_or] at h
    rw [insert, if_neg (Ne.symm h.1), ih h.2, List.cons_append]

/-- The keys after an insertion: the same, or the new one at the end. -/
theorem map_fst_insert (key : String) (value : α) (members : List (String × α)) :
    (insert key value members).map Prod.fst =
      if key ∈ members.map Prod.fst then members.map Prod.fst
      else members.map Prod.fst ++ [key] := by
  induction members with
  | nil => simp [insert]
  | cons m ms ih =>
    rw [insert]
    by_cases h : m.1 = key
    · simp [h]
    · rw [if_neg h, List.map_cons, ih]
      by_cases hk : key ∈ ms.map Prod.fst
      · simp [hk]
      · simp only [List.map_cons, List.mem_cons, hk, Ne.symm h, or_self, ↓reduceIte,
          List.cons_append]

/-- An insertion keeps keys distinct. -/
theorem nodup_insert {members : List (String × α)} (key : String) (value : α)
    (h : (members.map Prod.fst).Nodup) : ((insert key value members).map Prod.fst).Nodup := by
  rw [map_fst_insert]
  split
  · exact h
  · next hk =>
    rw [List.nodup_append]
    refine ⟨h, by simp, fun a ha b hb hab => ?_⟩
    simp only [List.mem_singleton] at hb
    exact hk (hb ▸ hab ▸ ha)

/-- Writing pairs keeps keys distinct. -/
theorem nodup_extend {members : List (String × α)} (pairs : List (String × α))
    (h : (members.map Prod.fst).Nodup) : ((extend members pairs).map Prod.fst).Nodup := by
  induction pairs generalizing members with
  | nil => exact h
  | cons p ps ih => exact ih (nodup_insert p.1 p.2 h)

/-- Members collected from pairs have distinct keys. -/
theorem nodup_ofPairs (pairs : List (String × α)) : ((ofPairs pairs).map Prod.fst).Nodup :=
  nodup_extend pairs List.nodup_nil

end StrictJson.Members
