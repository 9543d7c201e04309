import StrictJson.Proofs.Packed.Unit

/-!
# Results of Reading

What a source offers, and what a target makes of a unit. Small and large integers, texts, flags and
so on offer one scalar each, which is the number, text or flag itself; what is missing offers null,
and arrays and objects offer nothing. A result can be offered for packing again, and then it is the
scalar that was read: a target changes the type of a scalar and nothing else. Each tag has a target
of its own, which accepts the units with this tag and no others; a value accepts all units but those
of errors.

## Main definitions

* `Source.Offers`: which scalar each kind of source is.
* `Target.source`: a result as something to be packed.
* `Tag.target`, `Target.Suits`: the targets that accept the units with a tag.

## Main results

* `scalar?_eq_some_iff`: the scalar of a source is the one that it offers.
* `scalar?_source`: a result is the scalar that was read.
* `exists_ofScalar`: the targets that suit a tag accept its scalars.
* `unpack_eq_ok_iff`, `unpack_value_eq_ok_iff`: what is unpacked stands there.
-/

namespace StrictJson.Packed

variable {buffer : List UInt8} {p q : ℕ} {s : Scalar}

/-! ### Sources and their scalars -/

/-- The scalar that a source **offers**, for each kind of source. A small integer offers the integer
of the same value. Arrays and objects offer none. -/
inductive Source.Offers : Source → Scalar → Prop
  | integer (n : Int64) : Offers (.integer n) (.integer n)
  | smallInteger {n : Int32} {m : Int64} : m.toInt = n.toInt →
      Offers (.smallInteger n) (.integer m)
  | real (x : Binary64) : Offers (.real x) (.real x)
  | boolean (b : Bool) : Offers (.boolean b) (.boolean b)
  | text (t : String) : Offers (.text t) (.text t)
  | bytes (raw : List UInt8) : Offers (.bytes raw) (.bytes raw)
  | unit : Offers .unit .null
  | error (code : ErrorCode) : Offers (.error code) (.error code)
  | missing : Offers .none .null
  | present {source : Source} {s : Scalar} : Offers source s → Offers (.some source) s
  | nullValue : Offers (.value .null) .null
  | booleanValue (b : Bool) : Offers (.value (.boolean b)) (.boolean b)
  | integerValue (n : Int64) : Offers (.value (.integer n)) (.integer n)
  | realValue (x : Binary64) : Offers (.value (.real x)) (.real x)
  | stringValue (t : String) : Offers (.value (.string t)) (.text t)

theorem scalar?_of_offers {source : Source} (h : source.Offers s) : source.scalar? = some s := by
  induction h with
  | @smallInteger n m h =>
      obtain rfl : n.toInt64 = m := Int64.toInt_inj.1 ((Int32.toInt_toInt64 n).trans h.symm)
      rfl
  | present _ ih => exact ih
  | _ => rfl

/-- **The scalar of a source is the one that it offers.** -/
theorem scalar?_eq_some_iff {source : Source} : source.scalar? = some s ↔ source.Offers s := by
  refine ⟨fun h => ?_, scalar?_of_offers⟩
  induction source with
  | smallInteger n =>
      obtain rfl := Option.some.inj h
      exact .smallInteger (Int32.toInt_toInt64 n)
  | some source ih => exact .present (ih h)
  | value v => cases v <;> cases h <;> constructor
  | _ =>
      cases h
      constructor

instance {source : Source} : Decidable (source.Offers s) :=
  decidable_of_iff _ scalar?_eq_some_iff

/-! ### Results as sources -/

/-- A result of reading as something to be **packed again**. -/
def Target.source : (target : Target) → target.Carrier → Source
  | .integer, n => .integer n
  | .real, x => .real x
  | .boolean, b => .boolean b
  | .text, t => .text t
  | .null, _ => .unit
  | .error, code => .error code
  | .value, v => .value v
  | .optional _, none => .none
  | .optional inner, some x => .some (inner.source x)

/-- An optional target takes null for nothing and leaves every other scalar to the target inside. -/
theorem ofScalar_optional (inner : Target) (s : Scalar) :
    (Target.optional inner).ofScalar s =
      if s = .null then .ok none else (inner.ofScalar s).map some := by
  cases s
  case null => rfl
  all_goals
    rw [if_neg (by simp)]
    -- `ofScalar` has no equations, as its type depends on the target; it is evaluated instead.
    conv_lhs => whnf
    cases inner.ofScalar _ <;> rfl

/-- **A result is the scalar that was read.** -/
theorem scalar?_source {target : Target} {x : target.Carrier} (hs : ∀ raw, s ≠ .bytes raw)
    (h : target.ofScalar s = .ok x) : (target.source x).scalar? = some s := by
  induction target with
  | optional inner ih =>
      rw [ofScalar_optional] at h
      split_ifs at h with hnull
      · obtain rfl := Except.ok.inj h
        rw [hnull]
        rfl
      · cases hinner : inner.ofScalar s with
        | error e => simp [hinner, Except.map] at h
        | ok y =>
            rw [hinner] at h
            obtain rfl := Except.ok.inj h
            exact ih hinner
  | _ =>
      cases s with
      | bytes raw => exact absurd rfl (hs raw)
      | _ => cases h <;> rfl

/-! ### Targets that suit a tag -/

/-- The **own target** of a tag. -/
def Tag.target : Tag → Target
  | .integer => .integer
  | .real => .real
  | .boolean => .boolean
  | .string => .text
  | .null => .null
  | .error => .error

/-- The targets that **suit** a tag: its own one, a value unless the tag is that of errors, and
these as optional ones. -/
inductive Target.Suits : Target → Tag → Prop
  | own (tag : Tag) : Suits tag.target tag
  | value {tag : Tag} : tag ≠ .error → Suits .value tag
  | optional {inner : Target} {tag : Tag} : Suits inner tag → Suits (.optional inner) tag

/-- **A target that suits a tag accepts its scalars.** -/
theorem exists_ofScalar {target : Target} (hs : ∀ raw, s ≠ .bytes raw) (h : target.Suits s.tag) :
    ∃ x, target.ofScalar s = .ok x := by
  generalize htag : s.tag = tag at h
  induction h with
  | own tag =>
      subst htag
      cases s with
      | bytes raw => exact absurd rfl (hs raw)
      | _ => exact ⟨_, rfl⟩
  | value herror =>
      cases s with
      | bytes raw => exact absurd rfl (hs raw)
      | error code => exact absurd htag.symm herror
      | _ => exact ⟨_, rfl⟩
  | optional h ih =>
      obtain ⟨x, hx⟩ := ih htag
      rw [ofScalar_optional, hx]
      split_ifs
      · exact ⟨none, rfl⟩
      · exact ⟨some x, rfl⟩

/-- The own target of a tag accepts nothing else. -/
theorem tag_eq_of_ofScalar {tag : Tag} {x : tag.target.Carrier} (hs : ∀ raw, s ≠ .bytes raw)
    (h : tag.target.ofScalar s = .ok x) : s.tag = tag := by
  cases s with
  | bytes raw => exact absurd rfl (hs raw)
  | _ =>
      cases tag <;> cases h
      rfl

/-! ### Packing again -/

/-- The unit of a source is that of its scalar, under its tag. -/
theorem pack_eq_ok_iff {tag : Tag} {source : Source} {unit : List UInt8} :
    pack tag source = .ok unit ↔
      ∃ s, source.scalar? = some s ∧ s.tag = tag ∧ s.unitBytes = .ok unit := by
  rw [pack]
  cases source.scalar? with
  | none => simp
  | some s => by_cases h : s.tag = tag <;> simp [h]

/-- The unit of a value is that of its scalar. -/
theorem packValue_eq_ok_iff {v : Value} {unit : List UInt8} :
    packValue v = .ok unit ↔ ∃ s, Scalar.ofValue? v = some s ∧ s.unitBytes = .ok unit := by
  cases v with
  | array | object => exact iff_of_false nofun nofun
  | _ => simp [packValue, Value.kind, Tag.ofKind?, pack_eq_ok_iff, Source.scalar?, Scalar.ofValue?,
      Scalar.tag]

/-! ### Unpacking -/

/-- Unpacking is reading, and then asking the target. -/
theorem unpack_eq_ok_iff {target : Target} {x : target.Carrier} :
    unpack target buffer p = .ok (x, q) ↔
      ∃ s, readUnit buffer p = .ok (s, q) ∧ target.ofScalar s = .ok x := by
  rw [unpack]
  constructor
  · intro h
    split at h
    · simp at h
    · next s next hread =>
      split at h
      · next y hy =>
        obtain ⟨rfl, rfl⟩ := Prod.mk.inj (Except.ok.inj h)
        exact ⟨s, hread, hy⟩
      · simp at h
  · rintro ⟨s, hread, hx⟩
    simp only [hread, hx]

/-- **What is unpacked stands there**, and its source has the same unit. -/
theorem exists_unit_of_unpack {target : Target} {x : target.Carrier}
    (h : unpack target buffer p = .ok (x, q)) :
    ∃ s unit, target.ofScalar s = .ok x ∧ (∀ raw, s ≠ .bytes raw) ∧
      (target.source x).scalar? = some s ∧ s.unitBytes = .ok unit ∧ unit <+: buffer.drop p ∧
      q = p + unit.length := by
  obtain ⟨s, hread, hx⟩ := unpack_eq_ok_iff.1 h
  obtain ⟨hs, unit, hunit, hstands, hq⟩ := readUnit_eq_ok_iff.1 hread
  exact ⟨s, unit, hx, hs, scalar?_source hs hx, hunit, hstands, hq⟩

/-- **A value is unpacked exactly where its unit stands.** -/
theorem unpack_value_eq_ok_iff {v : Value} :
    unpack .value buffer p = .ok (v, q) ↔
      ∃ unit, packValue v = .ok unit ∧ unit <+: buffer.drop p ∧ q = p + unit.length := by
  constructor
  · intro h
    obtain ⟨s, unit, -, -, hv, hunit, hstands, hq⟩ := exists_unit_of_unpack h
    exact ⟨unit, packValue_eq_ok_iff.2 ⟨s, hv, hunit⟩, hstands, hq⟩
  · rintro ⟨unit, hunit, hstands, hq⟩
    obtain ⟨s, hv, hunit⟩ := packValue_eq_ok_iff.1 hunit
    obtain ⟨hs, hx⟩ : (∀ raw, s ≠ .bytes raw) ∧ Target.value.ofScalar s = .ok v := by
      cases v <;> cases hv <;> exact ⟨nofun, rfl⟩
    exact unpack_eq_ok_iff.2 ⟨s, readUnit_eq_ok_iff.2 ⟨hs, unit, hunit, hstands, hq⟩, hx⟩

end StrictJson.Packed
