import StrictJson.Proofs.Packed.Result

/-!
# Packing and Unpacking Agree

There are two ways from something that can be packed to a result: by its unit, which is packed and
read again, or straight from its scalar. They agree for every target, with one exception. Raw bytes
are offered as they are, but what is read is a text; so a target for texts accepts the unit and
refuses the scalar.

A result that is packed comes back as itself, unless null stands for it. An optional target takes
null for nothing, so what is there and null all the same is lost. Only the outermost target can lose
it: what is left to the target inside is never null.

A text can also be too long for the length field of its unit. It is a scalar all the same, so here
the two ways part.

## Main definitions

* `Target.Loses`, `Target.returned`: the results that do not come back, and what comes back.
* `Target.IsText`: the targets that accept a text and nothing else but null.

## Main results

* `ofScalar_source`: what a target makes of the scalar of its own result.
* `unpack_unitBytes`: what a target makes of a unit.
* `unpack_pack`: both ways agree, for results of the target itself and for all sources.
* `pack_longText`: a text that is too long for its length field is a scalar and has no unit.
-/

namespace StrictJson.Packed

variable {target : Target} {s : Scalar} {unit : List UInt8}

/-! ### Results that are lost -/

/-- The results that a target **loses**: those of an optional target that are there and are null all
the same. -/
def Target.Loses : (target : Target) → target.Carrier → Prop
  | .optional inner, some x => (inner.source x).Offers .null
  | .optional _, none => False
  | .integer, _ | .real, _ | .boolean, _ | .text, _ | .null, _ | .error, _ | .value, _ => False

/-- What **comes back** where a result has been packed: nothing instead of a result that is lost,
and the result itself otherwise. -/
def Target.returned : (target : Target) → target.Carrier → target.Carrier
  | .optional inner, some x => if (inner.source x).Offers .null then none else some x
  | .optional _, none => none
  | .integer, x | .real, x | .boolean, x | .text, x | .null, x | .error, x | .value, x => x

/-- **Exactly the results that are lost do not come back.** -/
theorem returned_eq_self_iff {x : target.Carrier} : target.returned x = x ↔ ¬ target.Loses x := by
  cases target with
  | optional inner =>
      cases x with
      | none => exact iff_of_true rfl id
      | some y =>
          by_cases hnull : (inner.source y).Offers .null
          · refine iff_of_false (fun hsome => ?_) (not_not_intro hnull)
            have hnone : (Target.optional inner).returned (some y) = none := if_pos hnull
            exact Option.some_ne_none y (hsome.symm.trans hnone)
          · exact iff_of_true (if_neg hnull) hnull
  | _ => exact iff_of_true rfl id

/-- A result that is not null comes back. -/
theorem returned_of_ne_null {x : target.Carrier} (h : (target.source x).scalar? = some s)
    (hs : s ≠ .null) : target.returned x = x := by
  refine returned_eq_self_iff.2 fun hloses => hs ?_
  cases target with
  | optional inner =>
      cases x with
      | none => exact absurd hloses id
      | some y =>
          have hnull : (inner.source y).scalar? = some .null := scalar?_of_offers hloses
          exact Option.some.inj (h.symm.trans hnull)
  | _ => exact absurd hloses id

/-- **What a target makes of the scalar of its own result.** -/
theorem ofScalar_source {x : target.Carrier} (h : (target.source x).scalar? = some s) :
    target.ofScalar s = .ok (target.returned x) := by
  induction target with
  | optional inner ih =>
      rw [ofScalar_optional]
      cases x with
      | none =>
          obtain rfl := Option.some.inj h
          rfl
      | some y =>
          have hy : (inner.source y).scalar? = some s := h
          by_cases hnull : s = .null
          · have hnone : (Target.optional inner).returned (some y) = none :=
              if_pos (scalar?_eq_some_iff.1 (hy.trans (congrArg some hnull)))
            rw [if_pos hnull]
            exact congrArg Except.ok hnone.symm
          · have hsome := returned_of_ne_null h hnull
            rw [if_neg hnull, ih hy, returned_of_ne_null hy hnull]
            exact congrArg Except.ok hsome.symm
  | value =>
      change Value at x
      cases x <;> cases h <;> rfl
  | _ =>
      cases h
      rfl

/-- Results are never offered as raw bytes. -/
theorem ne_bytes_of_source {x : target.Carrier} (h : (target.source x).scalar? = some s) :
    ∀ raw, s ≠ .bytes raw := by
  induction target with
  | optional inner ih =>
      cases x with
      | none =>
          obtain rfl := Option.some.inj h
          exact nofun
      | some y => exact ih h
  | value =>
      change Value at x
      cases x <;> cases h <;> exact nofun
  | _ =>
      cases h
      exact nofun

/-! ### Units -/

/-- **A target makes of a unit what it makes of the scalar that is read.** -/
theorem unpack_unitBytes (h : s.unitBytes = .ok unit) (target : Target) :
    unpack target unit 0 = (target.ofScalar s.asRead).map fun x => (x, unit.length) := by
  have hread : readUnit unit 0 = .ok (s.asRead, 0 + unit.length) :=
    readUnit_of_stands h List.prefix_rfl
  simp only [unpack, hread, Nat.zero_add]
  cases target.ofScalar s.asRead <;> rfl

section

variable {source : Source}

/-- A source that fits has a unit under its own tag. -/
theorem exists_pack (h : source.scalar? = some s) (hs : s.Fits) :
    ∃ unit, s.unitBytes = .ok unit ∧ pack s.tag source = .ok unit := by
  obtain ⟨unit, hunit⟩ := exists_unitBytes_iff.2 hs
  exact ⟨unit, hunit, pack_eq_ok_iff.2 ⟨s, h, rfl, hunit⟩⟩

/-- A source that is no raw bytes and does not fit is **too long** a text. -/
theorem exists_pack_eq_tooLong (h : source.scalar? = some s) (hraw : ∀ raw, s ≠ .bytes raw)
    (hs : ¬ s.Fits) : ∃ n, pack s.tag source = .error (.tooLong n) := by
  rw [pack, h]
  simp only [if_true]
  cases hunit : s.unitBytes with
  | ok unit => exact absurd (exists_unitBytes_iff.1 ⟨unit, hunit⟩) hs
  | error e =>
      rcases unitBytes_eq_error hunit with ⟨-, raw, hbytes, -⟩ | ⟨⟨n, rfl⟩, -⟩
      · exact absurd hbytes (hraw raw)
      · exact ⟨n, rfl⟩

/-- Under another tag a source is refused. -/
theorem pack_of_ne_tag {tag : Tag} (h : source.scalar? = some s) (htag : tag ≠ s.tag) :
    pack tag source = .error (.mismatch s.tag tag) := by
  rw [pack, h]
  exact if_neg htag.symm

end

/-! ### Long texts -/

/-- A letter of ASCII, repeated, has as many bytes. -/
theorem length_ofString_replicate (n : ℕ) :
    (Utf8.ofString (String.ofList (List.replicate n 'a'))).length = n := by
  rw [Utf8.ofString, String.toList_ofList, Utf8.encodeChars, List.length_flatMap]
  have hletter : (Utf8.encodeChar 'a').length = 1 := rfl
  simp [hletter]

/-- A text that is longer than its length field can say is **refused**. -/
theorem exists_pack_text_eq_error {t : String} (h : 0x100000000 ≤ (Utf8.ofString t).length) :
    ∃ e, pack .string (.text t) = .error e ∧ e.toError.code = .invalidArgument := by
  have hlong : ¬ (Scalar.text t).Fits := h.not_gt
  obtain ⟨n, hpack⟩ := exists_pack_eq_tooLong (scalar?_of_offers (.text t)) nofun hlong
  exact ⟨_, hpack, rfl⟩

/-! ### Raw bytes -/

/-- The targets for **texts**: texts, and texts that may be missing. -/
inductive Target.IsText : Target → Prop
  | text : IsText .text
  | optional {inner : Target} : IsText inner → IsText (.optional inner)

/-- A target for texts accepts a text. -/
theorem Target.IsText.suits (h : target.IsText) : target.Suits .string := by
  induction h with
  | text => exact .own .string
  | optional _ ih => exact .optional ih

/-- A target for texts refuses raw bytes. -/
theorem Target.IsText.ofScalar_bytes (h : target.IsText) (raw : List UInt8) :
    target.ofScalar (.bytes raw) = .error (.wrongUnit .string .string) := by
  induction h with
  | text => rfl
  | optional _ ih =>
      rw [ofScalar_optional, if_neg nofun, ih]
      rfl

/-- **All other targets make of the bytes of a text what they make of the text.** -/
theorem ofScalar_bytes_ofString (h : ¬ target.IsText) (t : String) :
    target.ofScalar (.bytes (Utf8.ofString t)) = target.ofScalar (.text t) := by
  induction target with
  | optional inner ih =>
      rw [ofScalar_optional, ofScalar_optional, if_neg nofun, if_neg nofun,
        ih fun hinner => h (.optional hinner)]
  | text => exact absurd .text h
  | value =>
      have hchars : Utf8.decode? (Utf8.ofString t) = some t.toList :=
        Utf8.decode?_eq_some_iff.2 rfl
      change Target.valueOfScalar _ = Target.valueOfScalar _
      simp only [Target.valueOfScalar, hchars, String.ofList_toList]
  | _ => rfl

/-! ### Both ways -/

/-- **Packing and unpacking agree with what a target makes of a scalar.**

A result that offers a scalar is packed under the tag of the scalar, unless it is a text of 4 GiB or
more, and refused under every other tag. Its unit is read as what the target makes of the scalar,
and that is the result itself, or nothing if the target loses it. Every source that offers no raw
bytes is read from its unit as any target makes it of its scalar, and fails where that does. The
same holds of raw bytes that are a text, but for the targets that accept texts only: these accept
the unit and refuse the scalar. -/
theorem unpack_pack :
    (∀ (target : Target) (x : target.Carrier) (s : Scalar), (target.source x).Offers s →
      (s.Fits → ∃ unit, pack s.tag (target.source x) = .ok unit ∧
        unpack target unit 0 = (target.ofScalar s).map fun y => (y, unit.length)) ∧
      (¬ s.Fits → ∃ e, pack s.tag (target.source x) = .error e ∧
        e.toError.code = .invalidArgument) ∧
      (∀ tag, tag ≠ s.tag → ∃ e, pack tag (target.source x) = .error e ∧
        e.toError.code = .invalidArgument) ∧
      target.ofScalar s = .ok (target.returned x) ∧ (target.returned x = x ↔ ¬ target.Loses x)) ∧
    (∀ (source : Source) (s : Scalar), source.Offers s → (∀ raw, s ≠ .bytes raw) →
      s.Fits → ∃ unit, pack s.tag source = .ok unit ∧
        ∀ target, unpack target unit 0 = (target.ofScalar s).map fun y => (y, unit.length)) ∧
    (∀ (source : Source) (raw : List UInt8), source.Offers (.bytes raw) →
      Utf8.isValid raw = true → raw.length < 0x100000000 → ∃ unit, pack .string source = .ok unit ∧
        ∀ target : Target,
          (¬ target.IsText → unpack target unit 0 =
            (target.ofScalar (.bytes raw)).map fun y => (y, unit.length)) ∧
          (target.IsText → (∃ x, unpack target unit 0 = .ok (x, unit.length)) ∧
            ∃ e, target.ofScalar (.bytes raw) = .error e ∧ e.toError.code = .wrongType)) := by
  have hagree : ∀ (source : Source) (s : Scalar), source.scalar? = some s →
      (∀ raw, s ≠ .bytes raw) → s.Fits → ∃ unit, pack s.tag source = .ok unit ∧
        ∀ target, unpack target unit 0 = (target.ofScalar s).map fun y => (y, unit.length) := by
    intro source s hsource hraw hs
    obtain ⟨unit, hunit, hpack⟩ := exists_pack hsource hs
    refine ⟨unit, hpack, fun target => ?_⟩
    rw [unpack_unitBytes hunit, asRead_of_ne_bytes hraw]
  simp only [← scalar?_eq_some_iff]
  refine ⟨fun target x s hsource => ⟨fun hs => ?_, fun hs => ?_, fun tag htag => ?_, ?_, ?_⟩,
    hagree, fun source raw hsource hvalid hlen => ?_⟩
  · obtain ⟨unit, hpack, hunpack⟩ := hagree _ s hsource (ne_bytes_of_source hsource) hs
    exact ⟨unit, hpack, hunpack target⟩
  · obtain ⟨n, hpack⟩ := exists_pack_eq_tooLong hsource (ne_bytes_of_source hsource) hs
    exact ⟨_, hpack, rfl⟩
  · exact ⟨_, pack_of_ne_tag hsource htag, rfl⟩
  · exact ofScalar_source hsource
  · exact returned_eq_self_iff
  · obtain ⟨unit, hunit, hpack⟩ := exists_pack hsource ⟨hvalid, hlen⟩
    obtain ⟨chars, rfl⟩ := Utf8.isValid_iff.1 hvalid
    have hchars : Utf8.encodeChars chars = Utf8.ofString (String.ofList chars) := by
      rw [Utf8.ofString, String.toList_ofList]
    rw [hchars] at hunit ⊢
    refine ⟨unit, hpack, fun target => ?_⟩
    rw [unpack_unitBytes hunit, asRead_ofString]
    refine ⟨fun htext => by rw [ofScalar_bytes_ofString htext], fun htext => ⟨?_, ?_⟩⟩
    · obtain ⟨x, hx⟩ := exists_ofScalar (s := .text (String.ofList chars)) (by simp) htext.suits
      exact ⟨x, by rw [hx]; rfl⟩
    · exact ⟨_, htext.ofScalar_bytes _, rfl⟩

/-- A unit that may be missing and is there comes back as missing, and an integer that may be
missing comes back. The byte of a letter is read as a text, and as a scalar it is none. -/
theorem unpack_pack_lost :
    (∃ unit, pack .null (.some .unit) = .ok unit ∧
      unpack (.optional .null) unit 0 = .ok (none, unit.length)) ∧
    (∃ unit, pack .integer (.some (.integer 5)) = .ok unit ∧
      unpack (.optional .integer) unit 0 = .ok (some (5 : Int64), unit.length)) ∧
    (∃ e, pack .string (.some .unit) = .error e ∧ e.toError.code = .invalidArgument) ∧
    ∃ unit, pack .string (.bytes [0x61]) = .ok unit ∧
      (∃ x, unpack .text unit 0 = .ok (x, unit.length)) ∧
      ∃ e, Target.text.ofScalar (.bytes [0x61]) = .error e ∧ e.toError.code = .wrongType := by
  obtain ⟨hresults, hsources, hraw⟩ := unpack_pack
  obtain ⟨hnull, -, hmismatch, -⟩ := hresults (.optional .null) (some ()) .null (.present .unit)
  obtain ⟨unit, hpack, hunpack⟩ := hnull trivial
  obtain ⟨unit', hpack', hunpack'⟩ :=
    hsources (.some (.integer 5)) (.integer 5) (.present (.integer 5)) nofun trivial
  have hletter : Utf8.isValid [0x61] = true := Utf8.isValid_iff.2 ⟨['a'], rfl⟩
  obtain ⟨unit'', hpack'', htargets⟩ := hraw (.bytes [0x61]) [0x61] (.bytes _) hletter (by decide)
  exact ⟨⟨unit, hpack, hunpack⟩, ⟨unit', hpack', hunpack' (.optional .integer)⟩,
    hmismatch .string nofun, unit'', hpack'', (htargets .text).2 .text⟩

/-- **A text of 4 GiB has no unit**, though it is a scalar from which a target makes the text. -/
theorem pack_longText :
    Source.Offers (Target.text.source (String.ofList (List.replicate 0x100000000 'a')))
      (.text (String.ofList (List.replicate 0x100000000 'a'))) ∧
    (∃ e, pack .string (Target.text.source (String.ofList (List.replicate 0x100000000 'a'))) =
      .error e ∧ e.toError.code = .invalidArgument) ∧
    Target.text.ofScalar (.text (String.ofList (List.replicate 0x100000000 'a'))) =
      .ok (String.ofList (List.replicate 0x100000000 'a')) := by
  have hlength := length_ofString_replicate 0x100000000
  exact ⟨.text _, exists_pack_text_eq_error hlength.ge, rfl⟩

end StrictJson.Packed
