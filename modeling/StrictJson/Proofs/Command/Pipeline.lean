import StrictJson.Proofs.Command.Unpack
import StrictJson.Proofs.Packed.Agreement

/-!
# Packing, Unpacking and Dumping

A document can be shown directly, or it can be packed and the unit unpacked again. Both ways show
the same text. They read the document alike, and the unit of a scalar is read as the scalar, so what
is unpacked is the very value that was packed.

Only scalars are packed, and not all of them: a string has to fit the length field of its unit. The
strings of a document of less than four gibibytes do, since a string is never longer than the text
that it was read from. A string of four gibibytes is accepted by the command that checks and refused
by the one that packs.

## Main definitions

* `Value.IsScalar`: a value that is no container.
* `Packs`: a value, the tag that is asked for, and the unit.
* `letters`: a document that is a string of any length.

## Main results

* `Syntax.length_le_of_parse_string`: a string is no longer than its text.
* `exit_pack_iff`: which documents are packed.
* `run_pipeline`: how checking, dumping, packing and unpacking a document hang together.
* `run_pack_longString`: a scalar that is not packed.
-/

namespace StrictJson

/-! ### Scalars -/

/-- A value is a **scalar** if it is no container. -/
def Value.IsScalar (v : Value) : Prop :=
  v.kind ≠ .array ∧ v.kind ≠ .object

namespace Packed

/-- The scalar values are those that are scalars of the binary format. -/
theorem isScalar_iff {v : Value} : v.IsScalar ↔ ∃ s, Scalar.ofValue? v = some s := by
  cases v with
  | array | object =>
      refine iff_of_false (by simp [Value.IsScalar, Value.kind]) ?_
      rintro ⟨s, ⟨⟩⟩
  | _ => exact iff_of_true (by simp [Value.IsScalar, Value.kind]) ⟨_, rfl⟩

/-- A kind has the tag that scalars of this kind have. -/
theorem ofKind?_kind (v : Value) :
    Tag.ofKind? v.kind = (Scalar.ofValue? v).map Scalar.tag := by
  cases v <;> rfl

/-- The scalar of a value is read as itself, and shown as the value. -/
theorem shown_of_ofValue? {v : Value} {s : Scalar} (h : Scalar.ofValue? v = some s) :
    (∀ raw, s ≠ .bytes raw) ∧ Command.shown s = v := by
  cases v <;> cases h <;> exact ⟨nofun, rfl⟩

/-- The scalar of a value fits a unit unless it is a string that is too long. -/
theorem fits_iff_of_ofValue? {v : Value} {s : Scalar} (h : Scalar.ofValue? v = some s) :
    s.Fits ↔ ∀ t, v = .string t → (Utf8.ofString t).length < 0x100000000 := by
  cases v with
  | string t =>
      cases h
      exact ⟨fun hfits t' ht' => Value.string.inj ht' ▸ hfits, fun hall => hall t rfl⟩
  | array | object => cases h
  | null | boolean | integer | real =>
      cases h
      exact iff_of_true trivial nofun

end Packed

namespace Syntax

/-- **A string is no longer than the text** that it was read from. -/
theorem length_le_of_parse_string {o : Options} {input : List UInt8} {s : String}
    (h : parse o input = .ok (.string s)) : (Utf8.ofString s).length ≤ input.length := by
  obtain ⟨d, rfl, hmeaning⟩ := exists_document_of_parse h
  cases d with
  | padded before t after =>
      rw [Tree.meaning] at hmeaning
      cases t with
      | string ss =>
          obtain rfl := Value.string.inj hmeaning
          have hle := length_spelledString_le ss
          simp only [Tree.text, quotedText, List.length_append, List.length_cons]
          omega
      | word w => cases w <;> cases hmeaning
      | number n =>
          rw [Tree.meaning] at hmeaning
          rcases n.value_cases with ⟨i, hi⟩ | ⟨x, hx, -⟩
          · rw [hi] at hmeaning
            cases hmeaning
          · rw [hx] at hmeaning
            cases hmeaning
      | emptyArray | array | emptyObject | object => cases hmeaning

end Syntax

namespace Command

open Packed

variable {arguments : List String} {flags : Flags} {input : Option String}
  {stdin bytes : List UInt8} {files : Files} {tag : Option Tag} {v : Value}

/-! ### What is packed -/

/-- What is packed is packed under the tag that is asked for, or else under that of its kind. -/
theorem packText_eq_ok_iff_pack {text : List Char} :
    packText tag v = .ok text ↔ ∃ t unit, tag.or (Tag.ofKind? v.kind) = some t ∧
      pack t (.value v) = .ok unit ∧ text = Hex.encode unit ++ ['\n'] := by
  rw [packText]
  cases tag.or (Tag.ofKind? v.kind) with
  | none => simp
  | some t => cases hpack : pack t (.value v) <;> simp [hpack, eq_comm]

/-- A value is **packed** as a unit: it is a scalar, the unit is that of the scalar, and a tag that
is asked for is its tag. -/
def Packs (tag : Option Tag) (v : Value) (unit : List UInt8) : Prop :=
  ∃ s, Scalar.ofValue? v = some s ∧ (∀ t, tag = some t → s.tag = t) ∧ s.unitBytes = .ok unit

/-- **What is packed** is shown in hexadecimal. -/
theorem packText_eq_ok_iff {text : List Char} :
    packText tag v = .ok text ↔ ∃ unit, Packs tag v unit ∧ text = Hex.encode unit ++ ['\n'] := by
  simp only [packText_eq_ok_iff_pack, pack_eq_ok_iff, Source.scalar?, ofKind?_kind]
  constructor
  · rintro ⟨t, unit, ht, ⟨s, hs, htag, hunit⟩, htext⟩
    refine ⟨unit, ⟨s, hs, ?_, hunit⟩, htext⟩
    rintro t' rfl
    exact htag.trans (Option.some.inj ht.symm)
  · rintro ⟨unit, ⟨s, hs, htag, hunit⟩, htext⟩
    refine ⟨s.tag, unit, ?_, ⟨s, hs, rfl, hunit⟩, htext⟩
    cases tag with
    | none => rw [hs]; rfl
    | some t => rw [Option.some_or, htag t rfl]

/-- Without a tag a value is packed if it is a scalar that fits a unit. -/
theorem exists_packs_none_iff :
    (∃ unit, Packs none v unit) ↔
      v.IsScalar ∧ ∀ t, v = .string t → (Utf8.ofString t).length < 0x100000000 := by
  constructor
  · rintro ⟨unit, s, hs, -, hunit⟩
    have hfits : s.Fits := exists_unitBytes_iff.1 ⟨unit, hunit⟩
    exact ⟨isScalar_iff.2 ⟨s, hs⟩, (fits_iff_of_ofValue? hs).1 hfits⟩
  · rintro ⟨hscalar, hshort⟩
    obtain ⟨s, hs⟩ := isScalar_iff.1 hscalar
    obtain ⟨unit, hunit⟩ := exists_unitBytes_iff.2 ((fits_iff_of_ofValue? hs).2 hshort)
    exact ⟨unit, s, hs, nofun, hunit⟩

/-- Under a tag a value is packed as without it, if the tag is its own. -/
theorem packs_some_iff {t : Tag} {unit : List UInt8} :
    Packs (some t) v unit ↔ Packs none v unit ∧ Tag.ofKind? v.kind = some t := by
  constructor
  · rintro ⟨s, hs, htag, hunit⟩
    refine ⟨⟨s, hs, nofun, hunit⟩, ?_⟩
    rw [ofKind?_kind, hs, Option.map_some, htag t rfl]
  · rintro ⟨⟨s, hs, -, hunit⟩, hkind⟩
    rw [ofKind?_kind, hs, Option.map_some, Option.some.injEq] at hkind
    refine ⟨s, hs, ?_, hunit⟩
    rintro t' ht'
    exact hkind.trans (Option.some.inj ht')

/-- A tag is the one of a kind if both have one name. -/
theorem ofKind?_eq_some_iff {kind : Kind} {t : Tag} :
    Tag.ofKind? kind = some t ↔ t.name = kind.name := by
  cases kind <;> cases t <;> decide

/-! ### Single commands -/

/-- A command line that checks a document succeeds exactly if the document is read. -/
theorem exit_check_iff (hargs : Asks arguments ⟨.check, flags, input, none, none⟩)
    (hinput : inputFrom stdin files input = .ok bytes) :
    (run arguments stdin files).exit = 0 ↔ ∃ v, parse flags.options bytes = .ok v := by
  rw [hargs.run_eq, hinput, Asked.invocation, Task.text, loaded, parsed]
  cases parse flags.options bytes with
  | ok v => exact iff_of_true rfl ⟨v, rfl⟩
  | error f =>
      refine iff_of_false Nat.one_ne_zero ?_
      rintro ⟨v, ⟨⟩⟩

/-- A document that is read is shown. -/
theorem run_dump_of_parse (hargs : Asks arguments ⟨.dump, flags, input, none, none⟩)
    (hinput : inputFrom stdin files input = .ok bytes)
    (hparse : parse flags.options bytes = .ok v) :
    run arguments stdin files =
      { exit := 0, output := v.render .compact ++ ['\n'], files } := by
  rw [hargs.run_eq, hinput, Asked.invocation, Task.text, loaded, parsed, hparse]
  rfl

/-- A document that is read is packed if its value is, and fails if it is not. -/
theorem run_pack_of_parse (hargs : Asks arguments ⟨.pack, flags, input, none, tag⟩)
    (hinput : inputFrom stdin files input = .ok bytes)
    (hparse : parse flags.options bytes = .ok v) :
    run arguments stdin files = conclude files (.pack input none tag) (packText tag v) := by
  rw [hargs.run_eq, hinput, Asked.invocation, Task.text, loaded, parsed, hparse]
  rfl

/-- A document whose value is packed is shown as the unit. -/
theorem run_pack_of_packs {unit : List UInt8}
    (hargs : Asks arguments ⟨.pack, flags, input, none, tag⟩)
    (hinput : inputFrom stdin files input = .ok bytes)
    (hparse : parse flags.options bytes = .ok v) (hunit : Packs tag v unit) :
    run arguments stdin files = { exit := 0, output := Hex.encode unit ++ ['\n'], files } := by
  have hending : (Task.pack input none tag).ending = [] := rfl
  rw [run_pack_of_parse hargs hinput hparse, packText_eq_ok_iff.2 ⟨unit, hunit, rfl⟩,
    conclude_eq_printed rfl, hending, List.append_nil]

/-- **A command line that packs a document succeeds** exactly if the document is read and its value
is packed. -/
theorem exit_pack_iff (hargs : Asks arguments ⟨.pack, flags, input, none, tag⟩)
    (hinput : inputFrom stdin files input = .ok bytes) :
    (run arguments stdin files).exit = 0 ↔
      ∃ v, parse flags.options bytes = .ok v ∧ ∃ unit, Packs tag v unit := by
  constructor
  · intro hzero
    cases hparse : parse flags.options bytes with
    | error f =>
        rw [hargs.run_eq, hinput, Asked.invocation, Task.text, loaded, parsed, hparse] at hzero
        exact absurd hzero Nat.one_ne_zero
    | ok v =>
        rw [run_pack_of_parse hargs hinput hparse] at hzero
        cases htext : packText tag v with
        | error e =>
            rw [htext] at hzero
            exact absurd hzero Nat.one_ne_zero
        | ok text =>
            obtain ⟨unit, hunit, -⟩ := packText_eq_ok_iff.1 htext
            exact ⟨v, rfl, unit, hunit⟩
  · rintro ⟨v, hparse, unit, hunit⟩
    rw [run_pack_of_packs hargs hinput hparse hunit]

/-- The unit of a value, as it is shown by the command that packs, is unpacked to the text of the
value. -/
theorem run_unpack_of_packs {unit : List UInt8}
    (hargs : Asks arguments ⟨.unpack, flags, none, none, none⟩) (hunit : Packs tag v unit) :
    run arguments (Utf8.encodeChars (Hex.encode unit ++ ['\n'])) files =
      { exit := 0, output := v.render .compact ++ ['\n'], files } := by
  obtain ⟨s, hs, -, hunit⟩ := hunit
  obtain ⟨hraw, hshown⟩ := shown_of_ofValue? hs
  have hrow : IsRow Scalar.IsUnit [s] unit :=
    ⟨[unit], .cons ⟨hraw, hunit⟩ .nil, List.flatten_singleton⟩
  have henters : Hex.Enters (Hex.encode unit) (Hex.encode unit ++ ['\n']) :=
    Hex.enters_encode unit ['\n'] (List.forall_mem_singleton.2 (by decide))
  have hline : shownLines [s] = v.render .compact ++ ['\n'] := by
    rw [shownLines, List.flatMap_singleton, shownLine, hshown]
  have hending : (Task.unpack none none).ending = [] := rfl
  rw [run_of_enters hargs rfl henters, unitLines_eq_ok hrow, hline, conclude_eq_printed rfl,
    hending, List.append_nil]

/-- **A document is packed under a type** exactly if it is packed without one and its value has the
type of this name, and then as the same unit. A name of no type does not fit, and no value has a
type of such a name. -/
theorem exit_typed_iff {packArguments : List String} {name : String}
    (htyped : AsksTyped arguments ⟨.pack, flags, input, none, none⟩ name)
    (hpack : Asks packArguments ⟨.pack, flags, input, none, none⟩)
    (hinput : inputFrom stdin files input = .ok bytes) :
    ((run arguments stdin files).exit = 0 ↔ (run packArguments stdin files).exit = 0 ∧
      ∃ v, parse flags.options bytes = .ok v ∧ name = v.kind.name) ∧
    ((run arguments stdin files).exit = 0 →
      (run arguments stdin files).output = (run packArguments stdin files).output) := by
  have hexit := exit_pack_iff hpack hinput
  by_cases hname : ∃ t : Tag, t ≠ .error ∧ name = t.name
  · obtain ⟨t, ht, rfl⟩ := hname
    have hargs : Asks arguments ⟨.pack, flags, input, none, some t⟩ := htyped.asks rfl rfl ht
    have hexit' := exit_pack_iff hargs hinput
    refine ⟨?_, fun hzero => ?_⟩
    · rw [hexit', hexit]
      constructor
      · rintro ⟨v, hv, unit, hunit⟩
        obtain ⟨hunit, hkind⟩ := packs_some_iff.1 hunit
        exact ⟨⟨v, hv, unit, hunit⟩, v, hv, ofKind?_eq_some_iff.1 hkind⟩
      · rintro ⟨⟨v, hv, unit, hunit⟩, w, hw, hkind⟩
        obtain rfl := Except.ok.inj (hv.symm.trans hw)
        exact ⟨v, hv, unit, packs_some_iff.2 ⟨hunit, ofKind?_eq_some_iff.2 hkind⟩⟩
    · obtain ⟨v, hv, unit, hunit⟩ := hexit'.1 hzero
      rw [run_pack_of_packs hargs hinput hv hunit,
        run_pack_of_packs hpack hinput hv (packs_some_iff.1 hunit).1]
  · have hrun : (run arguments stdin files).exit = 2 := by
      rw [run, htyped.ofArguments_eq_usage fun t ht h => hname ⟨t, ht, h⟩]
    have hfails : (run arguments stdin files).exit ≠ 0 := by
      rw [hrun]
      exact Nat.succ_ne_zero 1
    refine ⟨iff_of_false hfails ?_, fun hzero => absurd hzero hfails⟩
    rintro ⟨hzero, v, hv, rfl⟩
    obtain ⟨w, hw, unit, s, hs, -⟩ := hexit.1 hzero
    obtain rfl := Except.ok.inj (hv.symm.trans hw)
    have hkind : Tag.ofKind? v.kind = some s.tag := by rw [ofKind?_kind, hs, Option.map_some]
    exact hname ⟨s.tag, fun h => (by cases v <;> cases hs <;> cases h),
      (ofKind?_eq_some_iff.1 hkind).symm⟩

/-! ### The commands together -/

/-- **Packing and unpacking a document shows what dumping it shows.** A document is packed exactly
if it is accepted and its value is a scalar, as long as a string fits the length field of its unit;
all strings of a text that is shorter than this length do. The unit is unpacked to the text of the
dump. A type that is asked for has to be that of the value, and then changes nothing. -/
theorem run_pipeline {checkArguments dumpArguments packArguments unpackArguments : List String}
    {flags' : Flags} (hcheck : Asks checkArguments ⟨.check, flags, input, none, none⟩)
    (hdump : Asks dumpArguments ⟨.dump, flags, input, none, none⟩)
    (hpack : Asks packArguments ⟨.pack, flags, input, none, none⟩)
    (hunpack : Asks unpackArguments ⟨.unpack, flags', none, none, none⟩)
    (hinput : inputFrom stdin files input = .ok bytes) :
    ((run packArguments stdin files).exit = 0 ↔ (run checkArguments stdin files).exit = 0 ∧
      ∃ v, parse flags.options bytes = .ok v ∧ v.IsScalar ∧
        ∀ t, v = .string t → (Utf8.ofString t).length < 0x100000000) ∧
    (bytes.length < 0x100000000 →
      ((run packArguments stdin files).exit = 0 ↔ (run checkArguments stdin files).exit = 0 ∧
        ∃ v, parse flags.options bytes = .ok v ∧ v.IsScalar)) ∧
    ((run packArguments stdin files).exit = 0 →
      (run dumpArguments stdin files).exit = 0 ∧
      ∀ files',
        run unpackArguments (Utf8.encodeChars (run packArguments stdin files).output) files' =
          { exit := 0, output := (run dumpArguments stdin files).output, files := files' }) ∧
    (∀ typedArguments name, AsksTyped typedArguments ⟨.pack, flags, input, none, none⟩ name →
      ((run typedArguments stdin files).exit = 0 ↔ (run packArguments stdin files).exit = 0 ∧
        ∃ v, parse flags.options bytes = .ok v ∧ name = v.kind.name) ∧
      ((run typedArguments stdin files).exit = 0 →
        (run typedArguments stdin files).output = (run packArguments stdin files).output)) := by
  have hexit := exit_pack_iff hpack hinput
  have hpacked : (run packArguments stdin files).exit = 0 ↔
      (run checkArguments stdin files).exit = 0 ∧
        ∃ v, parse flags.options bytes = .ok v ∧ v.IsScalar ∧
          ∀ t, v = .string t → (Utf8.ofString t).length < 0x100000000 := by
    simp only [hexit, exit_check_iff hcheck hinput, exists_packs_none_iff]
    exact ⟨fun h => ⟨h.imp fun _ => And.left, h⟩, And.right⟩
  refine ⟨hpacked, ?_, ?_, fun typedArguments name htyped => exit_typed_iff htyped hpack hinput⟩
  · intro hlength
    rw [hpacked]
    refine and_congr_right fun _ => exists_congr fun v => and_congr_right fun hv => ?_
    refine and_iff_left_of_imp fun _ => ?_
    rintro t rfl
    exact (Syntax.length_le_of_parse_string hv).trans_lt hlength
  · intro hzero
    obtain ⟨v, hv, unit, hunit⟩ := hexit.1 hzero
    have hdumped := run_dump_of_parse hdump hinput hv
    refine ⟨by rw [hdumped], ?_⟩
    intro files'
    rw [run_pack_of_packs hpack hinput hv hunit, hdumped]
    exact run_unpack_of_packs hunpack hunit

/-- A string without containers around it, under the strictest options. -/
theorem run_pipeline_string :
    (run ["--max-depth=0", "pack", "--no-nul"] (Utf8.ofString (Value.dump (.string "a"))) {}).exit =
      0 ∧
    run ["unpack"] (Utf8.encodeChars (run ["--max-depth=0", "pack", "--no-nul"]
      (Utf8.ofString (Value.dump (.string "a"))) {}).output) {} =
        { exit := 0, output := (run ["dump", "--no-nul", "--max-depth", "0"]
          (Utf8.ofString (Value.dump (.string "a"))) {}).output, files := {} } ∧
    (run ["pack", "--no-nul", "-tstring", "--max-depth=0"]
      (Utf8.ofString (Value.dump (.string "a"))) {}).exit = 0 := by
  have hzero : StandsApart ['0'] := by simp [StandsApart]
  have hcheck : Asks ["check", "--max-depth=0", "--no-nul"]
      ⟨.check, ⟨some 0, false, true⟩, none, none, none⟩ :=
    ⟨_, ⟨[], _, .nil, .item (.equals _ _) (.item (.switch _) .nil), .inl rfl⟩,
      gives_of_foldlM_say (c := ⟨[], .check, [.setting .maxDepth ['0'], .switch .noNul]⟩) rfl rfl⟩
  have hdump : Asks ["dump", "--no-nul", "--max-depth", "0"]
      ⟨.dump, ⟨some 0, false, true⟩, none, none, none⟩ :=
    ⟨_, ⟨[], _, .nil, .item (.switch _) (.item (.apart _ hzero) .nil), .inl rfl⟩,
      gives_of_foldlM_say (c := ⟨[], .dump, [.switch .noNul, .setting .maxDepth ['0']]⟩) rfl rfl⟩
  have hpack : Asks ["--max-depth=0", "pack", "--no-nul"]
      ⟨.pack, ⟨some 0, false, true⟩, none, none, none⟩ :=
    ⟨_, ⟨_, _, .item (.equals _ _) .nil, .item (.switch _) .nil, .inl rfl⟩,
      gives_of_foldlM_say (c := ⟨[.setting .maxDepth ['0']], .pack, [.switch .noNul]⟩) rfl rfl⟩
  have htyped : AsksTyped ["pack", "--no-nul", "-tstring", "--max-depth=0"]
      ⟨.pack, ⟨some 0, false, true⟩, none, none, none⟩ "string" :=
    ⟨_, [.switch .noNul], [.setting .maxDepth ['0']],
      gives_of_foldlM_say (c := ⟨[], .pack, [.switch .noNul, .setting .maxDepth ['0']]⟩) rfl rfl,
      rfl, [], _, .nil, .item (.switch _) (.item (.letters (.attached _ rfl (by decide)) nofun)
        (.item (.equals _ _) .nil)), .inl rfl⟩
  have hunpack : Asks ["unpack"] ⟨.unpack, {}, none, none, none⟩ :=
    ⟨_, ⟨[], [], .nil, .nil, .inl rfl⟩, gives_of_foldlM_say (c := ⟨[], .unpack, []⟩) rfl rfl⟩
  have hinput : inputFrom (Utf8.ofString (Value.dump (.string "a"))) {} none =
      .ok (Utf8.ofString (Value.dump (.string "a"))) := rfl
  have hread : parse ⟨0, false, false⟩ (Utf8.ofString (Value.dump (.string "a"))) =
      .ok (.string "a") := by
    rw [Value.ofString_dump]
    refine (parse_dumpBytes_eq_ok_iff (v := .string "a") trivial).2 ⟨Nat.le_refl 0, fun _ => ?_⟩
    simp [Value.NulFree, Value.Every, Value.NulFreeText]
  obtain ⟨hexit, -, houtput, htypes⟩ := run_pipeline hcheck hdump hpack hunpack hinput
  have hscalar : Value.IsScalar (.string "a") := isScalar_iff.2 ⟨_, rfl⟩
  have hpacked := hexit.2 ⟨(exit_check_iff hcheck hinput).2 ⟨_, hread⟩, _, hread, hscalar, ?_⟩
  · exact ⟨hpacked, (houtput hpacked).2 {},
      (htypes _ _ htyped).1.2 ⟨hpacked, _, hread, rfl⟩⟩
  · rintro t ⟨⟩
    decide

/-! ### A string that is too long -/

/-- The document that is a **string of letters**. -/
def letters (n : ℕ) : List UInt8 :=
  0x22 :: (List.replicate n 0x61 ++ [0x22])

/-- A string of letters is read as it stands. -/
theorem parse_letters (n : ℕ) :
    parse {} (letters n) = .ok (.string (String.ofList (List.replicate n 'a'))) := by
  have hescaped : (List.replicate n 'a').flatMap escapedChar = List.replicate n 'a' := by
    rw [List.flatMap_replicate, show escapedChar 'a' = ['a'] by decide,
      List.flatten_replicate_singleton]
  have hencoded : Utf8.encodeChars (List.replicate n 'a') = List.replicate n 0x61 := by
    rw [Utf8.encodeChars, List.flatMap_replicate, show Utf8.encodeChar 'a' = [0x61] by decide,
      List.flatten_replicate_singleton]
  have htext : (Value.string (String.ofList (List.replicate n 'a'))).dumpBytes = letters n := by
    rw [Value.dumpBytes, Value.render, stringText, String.toList_ofList, hescaped,
      Utf8.encodeChars_append, Utf8.encodeChars_cons, hencoded]
    rfl
  rw [← htext]
  exact (parse_dumpBytes_eq_ok_iff (v := .string _) trivial).2 ⟨Nat.zero_le _, by simp⟩

/-- A string of letters that does not fit the length field is not packed. -/
theorem exit_pack_letters_ne_zero {n : ℕ} (h : 0x100000000 ≤ n) :
    (run ["pack"] (letters n) {}).exit ≠ 0 := by
  have hpack : Asks ["pack"] ⟨.pack, {}, none, none, none⟩ :=
    ⟨_, ⟨[], [], .nil, .nil, .inl rfl⟩, gives_of_foldlM_say (c := ⟨[], .pack, []⟩) rfl rfl⟩
  intro hzero
  obtain ⟨v, hv, hunit⟩ := (exit_pack_iff hpack rfl).1 hzero
  obtain rfl := Except.ok.inj ((parse_letters n).symm.trans hv)
  have hshort := (exists_packs_none_iff.1 hunit).2 _ rfl
  rw [length_ofString_replicate] at hshort
  omega

/-- **A string of 4 GiB is accepted and is a scalar, but it is not packed.** -/
theorem run_pack_longString :
    (run ["check"] (letters 0x100000000) {}).exit = 0 ∧
    (∃ v, parse {} (letters 0x100000000) = .ok v ∧ v.IsScalar) ∧
    (run ["pack"] (letters 0x100000000) {}).exit ≠ 0 := by
  have hcheck : Asks ["check"] ⟨.check, {}, none, none, none⟩ :=
    ⟨_, ⟨[], [], .nil, .nil, .inl rfl⟩, gives_of_foldlM_say (c := ⟨[], .check, []⟩) rfl rfl⟩
  have hread := parse_letters 0x100000000
  exact ⟨(exit_check_iff hcheck rfl).2 ⟨_, hread⟩, ⟨_, hread, isScalar_iff.2 ⟨_, rfl⟩⟩,
    exit_pack_letters_ne_zero (Nat.le_refl _)⟩

end Command

end StrictJson
