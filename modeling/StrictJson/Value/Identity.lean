import StrictJson.Value.Basic

/-!
# Identity of Values

Whether two values are one and the same: kinds, bit patterns of reals, and the order of members
included. This is equality as such, `=`, and stricter than the equality of
`StrictJson.Value.Equality`.

## Main results

* `Value.same_iff`: the test decides equality, which gives values a `DecidableEq` instance.
-/

namespace StrictJson.Value

mutual

/-- Whether two values are the same. -/
def same : Value → Value → Bool
  | null, null => true
  | boolean a, boolean b => a == b
  | integer a, integer b => a == b
  | real a, real b => a == b
  | string a, string b => a == b
  | array a, array b => sameItems a b
  | object a, object b => sameMembers a b
  | _, _ => false

/-- Whether two lists hold the same items. -/
def sameItems : List Value → List Value → Bool
  | [], [] => true
  | v :: vs, w :: ws => v.same w && sameItems vs ws
  | _, _ => false

/-- Whether two lists hold the same members. -/
def sameMembers : List (String × Value) → List (String × Value) → Bool
  | [], [] => true
  | (k, v) :: ms, (l, w) :: ns => k == l && v.same w && sameMembers ms ns
  | _, _ => false

end

mutual

theorem same_refl : ∀ v : Value, v.same v = true
  | null => rfl
  | boolean _ => by simp [same]
  | integer _ => by simp [same]
  | real _ => by simp [same]
  | string _ => by simp [same]
  | array items => by simp [same, sameItems_refl items]
  | object members => by simp [same, sameMembers_refl members]

theorem sameItems_refl : ∀ vs : List Value, sameItems vs vs = true
  | [] => rfl
  | v :: vs => by simp [sameItems, same_refl v, sameItems_refl vs]

theorem sameMembers_refl : ∀ ms : List (String × Value), sameMembers ms ms = true
  | [] => rfl
  | (_, v) :: ms => by simp [sameMembers, same_refl v, sameMembers_refl ms]

end

mutual

theorem eq_of_same : ∀ v w : Value, v.same w = true → v = w
  | null, w, h => by cases w <;> simp_all [same]
  | boolean _, w, h => by cases w <;> simp_all [same]
  | integer _, w, h => by cases w <;> simp_all [same]
  | real _, w, h => by cases w <;> simp_all [same]
  | string _, w, h => by cases w <;> simp_all [same]
  | array items, w, h => by
    cases w with
    | array others => rw [eq_of_sameItems items others (by simpa [same] using h)]
    | _ => simp [same] at h
  | object members, w, h => by
    cases w with
    | object others => rw [eq_of_sameMembers members others (by simpa [same] using h)]
    | _ => simp [same] at h

theorem eq_of_sameItems : ∀ vs ws : List Value, sameItems vs ws = true → vs = ws
  | [], [], _ => rfl
  | [], _ :: _, h => by simp [sameItems] at h
  | _ :: _, [], h => by simp [sameItems] at h
  | v :: vs, w :: ws, h => by
    simp only [sameItems, Bool.and_eq_true] at h
    rw [eq_of_same v w h.1, eq_of_sameItems vs ws h.2]

theorem eq_of_sameMembers :
    ∀ ms ns : List (String × Value), sameMembers ms ns = true → ms = ns
  | [], [], _ => rfl
  | [], _ :: _, h => by simp [sameMembers] at h
  | _ :: _, [], h => by simp [sameMembers] at h
  | (k, v) :: ms, (l, w) :: ns, h => by
    simp only [sameMembers, Bool.and_eq_true, beq_iff_eq] at h
    rw [h.1.1, eq_of_same v w h.1.2, eq_of_sameMembers ms ns h.2]

end

/-- The test decides equality. -/
theorem same_iff {v w : Value} : v.same w = true ↔ v = w :=
  ⟨eq_of_same v w, fun h => h ▸ same_refl v⟩

instance : DecidableEq Value := fun v w =>
  decidable_of_iff (v.same w = true) same_iff

end StrictJson.Value
