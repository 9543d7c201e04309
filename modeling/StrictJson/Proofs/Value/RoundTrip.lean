import StrictJson.Proofs.Syntax.Reading
import StrictJson.Proofs.Value.Admitted
import StrictJson.Proofs.Value.Written

/-!
# Writing and Reading Again

A value that is written as compact text and read again is the value itself, down to the last bit of
its reals, but for reals that are not finite: these are written as null. Options can only refuse the
text, for its depth or for the character of number zero, and never for a repeated key.

A value that was read under some options is read again under the same options, and so its compact
text is a fixed point of reading and writing.

## Main results

* `parse_dump`: when the text of a value is read as the value, and why it is refused otherwise.
* `parse_dump_of_parse`: the text of a value that was read is a fixed point.
-/

namespace StrictJson

variable {o : Syntax.Options} {v : Value}

/-! ### The text of a value -/

/-- The bytes of the compact text are those of its string. -/
theorem Value.ofString_dump (v : Value) : Utf8.ofString v.dump = v.dumpBytes := by
  rw [Utf8.ofString, dump, String.toList_ofList, dumpBytes]

namespace Syntax

/-- The compact text of a value is that of a document, which says of itself what is true of the
value. -/
theorem exists_document_of_value (hv : v.KeysDistinct) :
    ∃ d : Document, d.text = v.dumpBytes ∧ d.meaning = v.reread ∧
      d.depth = v.depth ∧ d.KeysDistinct ∧ (d.NulFree ↔ v.NulFree) := by
  obtain ⟨t, ht⟩ := exists_writes v hv
  exact ⟨t.bare, t.text_bare.trans ht.text, ht.meaning, ht.depth, ht.keysDistinct, ht.nulFree_iff⟩

/-- Without repeated keys only depth and the character of number zero are reasons for a refusal. -/
theorem Construct.Fresh.code_cases {construct : Construct} (h : construct.Fresh) :
    construct.code = .stackOverflow ∨ construct.code = .nullCharacter ∨
      construct.code = .nullByteInKey := by
  cases construct with
  | bracket outer p => exact .inl rfl
  | repeatedKey key p => exact absurd h id
  | nul role p =>
      cases role with
      | key => exact .inr (.inr rfl)
      | value => exact .inr (.inl rfl)

end Syntax

/-! ### Reading again -/

/-- **The text of a value is read as the value**, if it is no deeper than allowed and the character
of number zero is allowed or absent. -/
theorem parse_dumpBytes_eq_ok_iff (hv : v.KeysDistinct) :
    parse o v.dumpBytes = .ok v.reread ↔
      v.depth ≤ o.maxDepth ∧ (o.allowNul = false → v.NulFree) := by
  obtain ⟨d, htext, hmeaning, hdepth, hkeys, hnul⟩ := Syntax.exists_document_of_value hv
  rw [← htext, ← hmeaning, Syntax.parse_text, Syntax.refuse_eq_ok_iff,
    Syntax.Tree.forall_refusal?_eq_none_iff, hdepth, hnul]
  exact and_congr_right fun _ => and_iff_right fun _ => hkeys

/-- The text of a value is read as the value, or one of its constructs is refused. That is no
repeated key. -/
theorem parse_dumpBytes_or_refused (hv : v.KeysDistinct) :
    parse o v.dumpBytes = .ok v.reread ∨ ∃ (c : Syntax.Construct) (f : Syntax.Failure),
      c.Fresh ∧ c.refusal? o = some f ∧ parse o v.dumpBytes = .error f := by
  obtain ⟨d, htext, hmeaning, -, hkeys, -⟩ := Syntax.exists_document_of_value hv
  have hfresh : ∀ c ∈ d.constructs 0 0 [], c.Fresh := by
    rw [Syntax.Tree.forall_fresh_iff, d.keys_eq_nil nofun]
    exact ⟨⟨List.nodup_nil, List.forall_mem_nil _⟩, hkeys⟩
  rw [← htext, ← hmeaning, Syntax.parse_text]
  obtain ⟨f, hf⟩ | hnone := Syntax.refuse_cases o (d.constructs 0 0 [])
  · have hfirst := Syntax.findSome?_of_refuse_eq_error (hf (.ok d.meaning))
    obtain ⟨c, hc, hrefusal⟩ := List.exists_of_findSome?_eq_some hfirst
    exact .inr ⟨c, f, hfresh c hc, hrefusal, hf _⟩
  · exact .inl (hnone _)

/-- The text of a value is read as the value, or it is refused for its depth or for the character of
number zero. -/
theorem parse_dumpBytes_cases (hv : v.KeysDistinct) :
    parse o v.dumpBytes = .ok v.reread ∨ ∃ f, parse o v.dumpBytes = .error f ∧
      (f.toError.code = .stackOverflow ∨ f.toError.code = .nullCharacter ∨
        f.toError.code = .nullByteInKey) := by
  refine (parse_dumpBytes_or_refused hv).imp id ?_
  rintro ⟨c, f, hfresh, hrefusal, hf⟩
  have hcode : f.toError.code = c.code := Syntax.Construct.code_refusal? hrefusal
  exact ⟨f, hf, hcode ▸ hfresh.code_cases⟩

/-- **Writing and reading again.** The compact text of a value is read as the value with null for
every real that is not finite, exactly if the value is no deeper than allowed and the character of
number zero is allowed or absent. Otherwise it is refused for one of these two reasons. -/
theorem parse_dump (hv : v.KeysDistinct) (o : Syntax.Options) :
    (parse o (Utf8.ofString v.dump) = .ok v.reread ↔
      v.depth ≤ o.maxDepth ∧ (o.allowNul = true ∨ v.NulFree)) ∧
    (¬ (v.depth ≤ o.maxDepth ∧ (o.allowNul = true ∨ v.NulFree)) →
      ∃ f, parse o (Utf8.ofString v.dump) = .error f ∧
        (f.toError.code = .stackOverflow ∨ f.toError.code = .nullCharacter ∨
          f.toError.code = .nullByteInKey)) := by
  have hallow : (o.allowNul = false → v.NulFree) ↔ (o.allowNul = true ∨ v.NulFree) := by
    cases o.allowNul <;> simp
  have hiff : parse o (Utf8.ofString v.dump) = .ok v.reread ↔
      v.depth ≤ o.maxDepth ∧ (o.allowNul = true ∨ v.NulFree) := by
    rw [v.ofString_dump, parse_dumpBytes_eq_ok_iff hv, hallow]
  refine ⟨hiff, fun hrefused => ?_⟩
  rw [← hiff, v.ofString_dump] at hrefused
  rw [v.ofString_dump]
  exact (parse_dumpBytes_cases hv).resolve_left hrefused

/-- An infinity among other things: it comes back as null, and a negative zero as itself. -/
theorem parse_dump_object :
    Value.KeysDistinct (.object [("x", .real ⟨0x7ff0000000000000⟩),
      ("y", .array [.real ⟨0x8000000000000000⟩, .string "z"])]) ∧
    parse .strict (Utf8.ofString (Value.dump (.object [("x", .real ⟨0x7ff0000000000000⟩),
      ("y", .array [.real ⟨0x8000000000000000⟩, .string "z"])]))) =
      .ok (.object [("x", .null), ("y", .array [.real ⟨0x8000000000000000⟩, .string "z"])]) := by
  have hkeys : Value.KeysDistinct (.object [("x", .real ⟨0x7ff0000000000000⟩),
      ("y", .array [.real ⟨0x8000000000000000⟩, .string "z"])]) :=
    ⟨by decide, trivial, ⟨trivial, trivial, trivial⟩, trivial⟩
  refine ⟨hkeys, (parse_dump hkeys .strict).1.2 ⟨?_, .inr ?_⟩⟩
  · decide
  · refine Value.every_object_iff.2 ⟨?_, ?_⟩
    · simp [Value.NulFreeText]
    · simp [Value.Every, Value.EveryItem, Value.NulFreeText]

/-! ### Fixed points -/

/-- **The compact text of a value that was read is a fixed point** of reading and writing, under the
options under which it was read. Such a value has finite reals and distinct keys, is no deeper than
allowed, and has the character of number zero only if that is allowed. -/
theorem parse_dump_of_parse {input : List UInt8} (h : parse o input = .ok v) :
    o.Admits v ∧ ∃ w, parse o (Utf8.ofString v.dump) = .ok w ∧ w = v ∧
      Utf8.ofString w.dump = Utf8.ofString v.dump := by
  have hadmits := Syntax.admits_of_parse h
  have hread := (parse_dumpBytes_eq_ok_iff hadmits.keysDistinct).2 ⟨hadmits.depth, hadmits.nulFree⟩
  rw [Value.reread_of_finite hadmits.finite, ← v.ofString_dump] at hread
  exact ⟨hadmits, v, hread, rfl, rfl⟩

/-- In `{"a":[],"a":0}` the empty array is overwritten. What remains is read again from its text. -/
theorem parse_dump_of_parse_overwritten :
    parse ⟨2, false, false⟩ [0x7b, 0x22, 0x61, 0x22, 0x3a, 0x5b, 0x5d, 0x2c, 0x22, 0x61, 0x22, 0x3a,
      0x30, 0x7d] = .ok (.object [("a", .integer 0)]) ∧
    ∃ w, parse ⟨2, false, false⟩ (Utf8.ofString (Value.object [("a", .integer 0)]).dump) = .ok w ∧
      w = .object [("a", .integer 0)] := by
  let a : Syntax.Label := Syntax.writtenLabel "a"
  let first : Syntax.Document := .padded .none (.emptyArray .none) .none
  let second : Syntax.Document := .padded .none (.number (Syntax.integerToken 0)) .none
  let d : Syntax.Document := .padded .none (.object (.member a first (.lastMember a second))) .none
  have htext : d.text = [0x7b, 0x22, 0x61, 0x22, 0x3a, 0x5b, 0x5d, 0x2c, 0x22, 0x61, 0x22, 0x3a,
      0x30, 0x7d] := by decide
  have hmeaning : d.meaning = .object [("a", .integer 0)] := rfl
  have hread : parse ⟨2, false, false⟩ d.text = .ok (.object [("a", .integer 0)]) := by
    rw [← hmeaning, Syntax.parse_text, Syntax.refuse_eq_ok_iff]
    decide
  rw [htext] at hread
  obtain ⟨-, w, hw, heq, -⟩ := parse_dump_of_parse hread
  exact ⟨hread, w, hw, heq⟩

end StrictJson
