import StrictJson.Proofs.Command.Outcome
import StrictJson.Proofs.Hex.Entered
import StrictJson.Proofs.Packed.Row
import StrictJson.Proofs.Utf8.WellFormed
import StrictJson.Proofs.Value.Printable
import StrictJson.Proofs.Value.RoundTrip

/-!
# Units Line by Line

The command that unpacks shows a row of units with a line for each, the compact text of a value that
stands for the scalar. A unit is first read as an error code and then, if it is of another tag, as a
value; both readings start at the same place, so together they show whatever scalar stands there.

A buffer that is no row of units is not shown at all. The position that is reported is the end of
its longest row, where no unit stands.

## Main definitions

* `UnpackFault.OfBytes`: what is wrong is wrong with the bytes, whatever is wanted from them.
* `shown`, `shownLine`: the value that stands for a scalar, and its line.

## Main results

* `unitValue_of_readUnit`: the value that is shown is that of the scalar that stands there.
* `unitLines_of_row`: a row of units is shown before whatever comes behind it.
* `exists_unitLines_eq_error`: where a buffer that is no row of units fails.
* `run_unpack`: what the command line does with bytes that are entered in hexadecimal.
-/

namespace StrictJson

namespace Packed

variable {buffer : List UInt8} {p q : ℕ} {piece : Piece} {e : UnpackFault}

/-! ### Faults of the bytes -/

/-- A fault **of the bytes**: it does not depend on what is wanted from a unit. -/
def UnpackFault.OfBytes : UnpackFault → Prop
  | .missing .. | .unknownTag .. | .badBoolean .. | .malformedText .. | .badErrorCode .. => True
  | .wrongUnit .. | .malformedBytes | .carried .. => False

theorem take_ofBytes {needed : ℕ} (h : take buffer p piece needed = .error e) : e.OfBytes := by
  simp only [take] at h
  split at h
  · cases h
    exact trivial
  · simp at h

theorem takeByte_ofBytes (h : takeByte buffer p piece = .error e) : e.OfBytes := by
  rw [takeByte] at h
  split at h
  · simp at h
  · cases h
    exact trivial

theorem takeWord_ofBytes {width : ℕ} (h : takeWord buffer p piece width = .error e) :
    e.OfBytes := by
  rw [takeWord] at h
  cases ht : take buffer p piece width with
  | error e' =>
      rw [ht] at h
      cases h
      exact take_ofBytes ht
  | ok bytes => simp [ht, Except.map] at h

theorem readText_ofBytes (h : readText buffer p = .error e) : e.OfBytes := by
  rw [readText] at h
  split at h
  · next e' he =>
    cases h
    exact takeWord_ofBytes he
  · split at h
    · next e' he =>
      cases h
      exact take_ofBytes he
    · split at h
      · simp at h
      · cases h
        exact trivial

theorem readPayload_ofBytes {tag : Tag} (h : readPayload buffer p tag = .error e) : e.OfBytes := by
  cases tag with
  | null => simp [readPayload] at h
  | string => exact readText_ofBytes h
  | integer | real =>
      simp only [readPayload] at h
      split at h
      · simp at h
      · next e' he =>
        cases h
        exact takeWord_ofBytes he
  | boolean =>
      simp only [readPayload] at h
      split at h
      · split_ifs at h
        cases h
        exact trivial
      · next e' he =>
        cases h
        exact takeByte_ofBytes he
  | error =>
      simp only [readPayload] at h
      split at h
      · split at h
        · simp at h
        · cases h
          exact trivial
      · next e' he =>
        cases h
        exact takeWord_ofBytes he

/-- **Where no unit is read, the bytes are at fault.** -/
theorem readUnit_ofBytes (h : readUnit buffer p = .error e) : e.OfBytes := by
  rw [readUnit] at h
  split at h
  · next e' he =>
    cases h
    exact takeByte_ofBytes he
  · split at h
    · exact readPayload_ofBytes h
    · cases h
      exact trivial

end Packed

namespace Command

open Packed

variable {buffer front : List UInt8} {p q : ℕ} {scalars : List Scalar}

/-! ### One unit -/

/-- The value that is **shown** for a scalar. An error code is shown as an object with its number
and its description, and raw bytes by the text that they spell. -/
def shown : Scalar → Value
  | .null => .null
  | .boolean b => .boolean b
  | .integer n => .integer n
  | .real x => .real x
  | .text s => .string s
  | .bytes raw => .string (String.ofList (Utf8.decodePrefix raw).1)
  | .error code =>
    .object [("error", .integer (Int64.ofNat code.number)), ("message", .string code.message)]

/-- The two attempts at a unit show the scalar that stands there, whatever its tag. -/
theorem unitValue_of_readUnit {s : Scalar} (h : readUnit buffer p = .ok (s, q)) :
    unitValue buffer p = .ok (shown s, q) := by
  obtain ⟨hs, -⟩ := readUnit_eq_ok_iff.1 h
  rw [unitValue, unpack, unpack, h]
  cases s with
  | bytes raw => exact absurd rfl (hs raw)
  | null | boolean | integer | real | text | error => rfl

/-- Where no scalar is read the first attempt fails for good. -/
theorem unitValue_of_readUnit_eq_error {e : UnpackFault} (h : readUnit buffer p = .error e) :
    unitValue buffer p = .error (.notUnit p e) := by
  have hbytes := readUnit_ofBytes h
  rw [unitValue, unpack, h]
  cases e with
  | wrongUnit => exact absurd hbytes id
  | missing | unknownTag | badBoolean | malformedText | badErrorCode | malformedBytes | carried =>
      rfl

/-! ### Lines -/

/-- The line of a scalar, without the line feed. -/
def shownLine (s : Scalar) : List Char :=
  (shown s).render .compact

/-- The lines of some scalars. -/
def shownLines (scalars : List Scalar) : List Char :=
  scalars.flatMap fun s => shownLine s ++ ['\n']

/-- Behind the end of a buffer there are no lines. -/
theorem unitLines_of_le (h : buffer.length ≤ p) : unitLines buffer p = .ok [] := by
  rw [unitLines, if_neg (Nat.not_lt.2 h)]

/-- The line of a unit comes before those of the units behind it. -/
theorem unitLines_of_readUnit {s : Scalar} (h : readUnit buffer p = .ok (s, q)) :
    unitLines buffer p = (unitLines buffer q).map fun lines => shownLine s ++ '\n' :: lines := by
  have hvalue := unitValue_of_readUnit h
  obtain ⟨hlt, hle⟩ := unitValue_progress hvalue
  rw [unitLines, if_pos (Nat.lt_of_lt_of_le hlt hle)]
  split
  · next e he => simp [hvalue] at he
  · next v next hv =>
    obtain ⟨rfl, rfl⟩ := Prod.mk.inj (Except.ok.inj (hvalue.symm.trans hv))
    cases unitLines buffer q <;> rfl

/-- Where no unit is read there are no lines at all. -/
theorem unitLines_of_readUnit_eq_error {e : UnpackFault} (hp : p < buffer.length)
    (h : readUnit buffer p = .error e) : unitLines buffer p = .error (.notUnit p e) := by
  have hvalue := unitValue_of_readUnit_eq_error h
  rw [unitLines, if_pos hp]
  split
  · next e' he => rw [← Except.error.inj (hvalue.symm.trans he)]
  · next v next hv => simp [hvalue] at hv

/-- **A row of units is shown line by line**, before whatever comes behind it. -/
theorem unitLines_of_row (h : IsRow Scalar.IsUnit scalars front)
    (hfront : front <+: buffer.drop p) :
    unitLines buffer p =
      (unitLines buffer (p + front.length)).map fun lines => shownLines scalars ++ lines := by
  induction scalars generalizing front p with
  | nil =>
      obtain rfl := isRow_nil_iff.1 h
      rw [List.length_nil, Nat.add_zero]
      cases unitLines buffer p <;> rfl
  | cons s scalars ih =>
      obtain ⟨unit, rest, hs, hscalars, rfl⟩ := isRow_cons_iff.1 h
      obtain ⟨hunit, hrest⟩ := append_prefix_drop_iff.1 hfront
      have hread : readUnit buffer p = .ok (s, p + unit.length) :=
        readUnit_eq_ok_iff_isUnit.2 ⟨unit, hs, hunit, rfl⟩
      rw [unitLines_of_readUnit hread, ih hscalars hrest, List.length_append, Nat.add_assoc]
      cases unitLines buffer (p + (unit.length + rest.length)) with
      | error e => rfl
      | ok lines => simp [Except.map, shownLines]

/-- The lines of a buffer that is a row of units. -/
theorem unitLines_eq_ok (h : IsRow Scalar.IsUnit scalars buffer) :
    unitLines buffer 0 = .ok (shownLines scalars) := by
  rw [unitLines_of_row (p := 0) h (List.prefix_refl buffer), unitLines_of_le (by omega)]
  exact congrArg Except.ok (List.append_nil _)

/-- **A buffer that is no row of units** fails at the end of its longest row. -/
theorem exists_unitLines_eq_error (h : ∀ scalars, ¬ IsRow Scalar.IsUnit scalars buffer) :
    ∃ scalars front cause, IsRow Scalar.IsUnit scalars front ∧ front <+: buffer ∧
      (∀ scalars' front', IsRow Scalar.IsUnit scalars' front' → front' <+: buffer →
        front' <+: front) ∧
      readUnit buffer front.length = .error cause ∧
      unitLines buffer 0 = .error (.notUnit front.length cause) := by
  obtain ⟨scalars, front, hrow, hfront, hstop⟩ :=
    exists_leading_row isPrefixCode_isUnit.ne_nil buffer
  have hlt : front.length < buffer.length := by
    refine lt_of_le_of_ne hfront.length_le fun hlength => h scalars ?_
    rwa [← hfront.eq_of_length hlength]
  have hlongest : ∀ scalars' front', IsRow Scalar.IsUnit scalars' front' → front' <+: buffer →
      front' <+: front := fun scalars' front' hrow' hfront' =>
    (hrow.longest isPrefixCode_isUnit hfront hstop hrow' hfront').2
  cases hread : readUnit buffer front.length with
  | ok read =>
      obtain ⟨unit, hunit, hstands, -⟩ := readUnit_eq_ok_iff_isUnit.1 hread
      exact absurd hstands (hstop _ unit hunit)
  | error cause =>
      refine ⟨scalars, front, cause, hrow, hfront, hlongest, hread, ?_⟩
      rw [unitLines_of_row (p := 0) hrow hfront, Nat.zero_add,
        unitLines_of_readUnit_eq_error hlt hread]
      rfl

/-! ### Reading the lines -/

/-- What is shown for a scalar has distinct keys. -/
theorem keysDistinct_shown (s : Scalar) : (shown s).KeysDistinct := by
  cases s with
  | null | boolean | integer | real | text | bytes => exact trivial
  | error code => exact ⟨by simp, trivial, trivial, trivial⟩

/-- What is shown for a scalar is flat. -/
theorem depth_shown_le (s : Scalar) : (shown s).depth ≤ 1 := by
  cases s with
  | null | boolean | integer | real | text | bytes => exact Nat.zero_le 1
  | error code => exact Nat.le_refl 1

/-- **A line is read as the value that it shows**, with null for a real that is not finite. -/
theorem parse_shownLine (s : Scalar) :
    parse {} (Utf8.encodeChars (shownLine s)) = .ok (shown s).reread :=
  (parse_dumpBytes_eq_ok_iff (keysDistinct_shown s)).2 ⟨(depth_shown_le s).trans (by decide), nofun⟩

/-- A line has no byte below the space. -/
theorem le_of_mem_shownLine {s : Scalar} {b : UInt8} (hb : b ∈ Utf8.encodeChars (shownLine s)) :
    0x20 ≤ b :=
  ((shown s).isPrintable_render .compact).le_of_mem hb

/-! ### The command -/

/-- Hexadecimal input comes down to the bytes that were entered. -/
theorem unpackText_of_enters {text : List Char} (h : Hex.Enters (Hex.encode buffer) text) :
    unpackText (Utf8.encodeChars text) = unitLines buffer 0 := by
  have htext : Utf8.decodeText (Utf8.encodeChars text) = .ok text := by
    rw [Utf8.decodeText, Utf8.decodePrefix_encodeChars]
  rw [unpackText, htext]
  simp only
  rw [Hex.decode_of_enters h]

section

variable {arguments : List String} {flags : Flags} {input output : Option String}
  {stdin : List UInt8} {files : Files} {text : List Char}

/-- Arguments that ask for units come to the lines of a buffer, or fail as they do. -/
theorem run_of_enters (hargs : Asks arguments ⟨.unpack, flags, input, output, none⟩)
    (hinput : inputFrom stdin files input = .ok (Utf8.encodeChars text))
    (htext : Hex.Enters (Hex.encode buffer) text) :
    run arguments stdin files = conclude files (.unpack input output) (unitLines buffer 0) := by
  have hmade : (Task.unpack input output).text flags.options (.ok (Utf8.encodeChars text)) =
      unitLines buffer 0 := unpackText_of_enters htext
  rw [hargs.run_eq, hinput, Asked.invocation, hmade]

/-- **The command that unpacks** shows any row of units, entered in hexadecimal with letters in
either case and white space anywhere, by one line for each unit. A line has no byte below the space,
and under the default options it is read as the value that is shown for the scalar.

Bytes that are no row of units it does not show at all, and it writes no file. It reports the length
of the longest row that they start with. -/
theorem run_unpack (hargs : Asks arguments ⟨.unpack, flags, input, output, none⟩)
    (hinput : inputFrom stdin files input = .ok (Utf8.encodeChars text))
    (htext : Hex.Enters (Hex.encode buffer) text) :
    (∀ scalars, IsRow Scalar.IsUnit scalars buffer →
      (output = none → run arguments stdin files =
        { exit := 0, output := scalars.flatMap fun s => shownLine s ++ ['\n'], files }) ∧
      (∀ path files', output = some path →
        files.write path (Utf8.encodeChars (scalars.flatMap fun s => shownLine s ++ ['\n'])) =
          .ok files' →
        run arguments stdin files = { exit := 0, output := [], files := files' })) ∧
    (∀ s, (∀ b ∈ Utf8.encodeChars (shownLine s), 0x20 ≤ b) ∧
      parse {} (Utf8.encodeChars (shownLine s)) = .ok (shown s).reread) ∧
    ((∀ scalars, ¬ IsRow Scalar.IsUnit scalars buffer) →
      ∃ scalars front cause, IsRow Scalar.IsUnit scalars front ∧ front <+: buffer ∧
        (∀ scalars' front', IsRow Scalar.IsUnit scalars' front' → front' <+: buffer →
          front' <+: front) ∧
        readUnit buffer front.length = .error cause ∧
        run arguments stdin files =
          { exit := 1
            output := []
            report := some ("Error: Failed to unpack unit at byte " ++ toString front.length ++
              "\n\nCaused by:\n    " ++ Fault.indented cause.toError.text ++ "\n")
            files }) := by
  have hrun := run_of_enters hargs hinput htext
  refine ⟨?_, ?_, ?_⟩
  · intro scalars hrow
    rw [unitLines_eq_ok hrow] at hrun
    refine ⟨?_, ?_⟩
    · rintro rfl
      have hending : (Task.unpack input none).ending = [] := rfl
      rw [hrun, conclude_eq_printed rfl, hending, List.append_nil]
      rfl
    · rintro path files' rfl hwrite
      exact hrun.trans (conclude_eq_written rfl hwrite)
  · intro s
    exact ⟨fun b hb => le_of_mem_shownLine hb, parse_shownLine s⟩
  · intro hno
    obtain ⟨scalars, front, cause, hrow, hfront, hlongest, hread, hlines⟩ :=
      exists_unitLines_eq_error hno
    rw [hlines] at hrun
    exact ⟨scalars, front, cause, hrow, hfront, hlongest, hread, hrun⟩

end

/-- Null and the code for an unknown failure, entered with a capital letter, a line feed between two
digits and a space. -/
theorem run_unpack_nullError :
    Hex.Enters (Hex.encode [0x4e, 0x45, 0x00, 0x00, 0x00, 0x13])
      "4E4\n5 00000013".toList ∧
    run ["unpack"] (Utf8.ofString "4E4\n5 00000013") {} =
      { exit := 0
        output := "null\n\x7b\"error\":19,\"message\":\"Unknown error\"\x7d\n".toList
        files := {} } := by
  have henters : Hex.Enters (Hex.encode [0x4e, 0x45, 0x00, 0x00, 0x00, 0x13])
      "4E4\n5 00000013".toList :=
    .digit (.inl rfl) <| .digit (.inr rfl) <| .digit (.inl rfl) <| .blank (by decide) <|
      .digit (.inl rfl) <| .blank (by decide) <| .digit (.inl rfl) <| .digit (.inl rfl) <|
      .digit (.inl rfl) <| .digit (.inl rfl) <| .digit (.inl rfl) <| .digit (.inl rfl) <|
      .digit (.inl rfl) <| .digit (.inl rfl) .nil
  have hrow : IsRow Scalar.IsUnit [.null, .error .unknown] [0x4e, 0x45, 0x00, 0x00, 0x00, 0x13] :=
    ⟨[[0x4e], [0x45, 0x00, 0x00, 0x00, 0x13]], .cons ⟨nofun, rfl⟩ (.cons ⟨nofun, rfl⟩ .nil), rfl⟩
  have hargs : Asks ["unpack"] ⟨.unpack, {}, none, none, none⟩ :=
    ⟨_, ⟨[], [], .nil, .nil, .inl rfl⟩, gives_of_foldlM_say (c := ⟨[], .unpack, []⟩) rfl rfl⟩
  have hlines : ([Scalar.null, .error .unknown].flatMap fun s => shownLine s ++ ['\n']) =
      "null\n\x7b\"error\":19,\"message\":\"Unknown error\"\x7d\n".toList := by
    decide +kernel
  have hinput : inputFrom (Utf8.ofString "4E4\n5 00000013") {} none =
      .ok (Utf8.encodeChars "4E4\n5 00000013".toList) := rfl
  obtain ⟨hshown, -, -⟩ := run_unpack hargs hinput henters
  have hrun := (hshown _ hrow).1 rfl
  rw [hlines] at hrun
  exact ⟨henters, hrun⟩

end Command

end StrictJson
