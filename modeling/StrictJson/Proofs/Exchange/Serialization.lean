import StrictJson.Exchange.Tree
import StrictJson.Proofs.Syntax.Likeness
import StrictJson.Proofs.Value.Printable
import StrictJson.Proofs.Value.RoundTrip

/-!
# Two Writers of JSON

Compact text and the text of another writer of JSON can differ in one thing, the layout of finite
reals: where they go over to a power of ten, and whether that has a plus sign. Both are read as the
same value all the same, or refused for the same reason, whatever the options. A value without a
finite real has the same text in both.

Of the other writer only this is asked: its words and integers, the table of its escapes, null for
what is not a finite number, commas and colons without white space, and for a finite real any digits
that are read as that real, in the layout of interchange.

What two serializers make of one value is related as soon as each step of the one is related to the
step of the other. This is proved once, and used for equality and for texts that are read alike.

## Main definitions

* `Serializer.Related`: the steps of two serializers are related.
* `Serializer.WritesJson`: what is asked of a writer of JSON.
* `Value.NoFiniteReal`: every real in the value is an infinity or a not-a-number.

## Main results

* `Serializer.Related.serialize`: what is made of a value is related.
* `Serializer.WritesJson.eq_json`: a writer of JSON is settled by its layout of reals.
* `serialize_dump`: the two texts of a value.
-/

namespace StrictJson

/-! ### Two serializers -/

namespace Value

variable {α : Type} (S : Serializer α)

theorem serializeItems_eq_map (items : List Value) :
    serializeItems S items = items.map (serialize S) := by
  induction items with
  | nil => rfl
  | cons v vs ih => rw [serializeItems, ih, List.map_cons]

theorem serializeMembers_eq_map (members : List (String × Value)) :
    serializeMembers S members = members.map fun m => (m.1, m.2.serialize S) := by
  induction members with
  | nil => rfl
  | cons m ms ih => rw [serializeMembers, ih, List.map_cons]

end Value

namespace Serializer

variable {α β : Type}

/-- The steps of two serializers are **related**, but for those that take reals: related parts give
related containers. -/
structure Related (R : α → β → Prop) (S : Serializer α) (T : Serializer β) : Prop where
  null : R S.null T.null
  boolean : ∀ b, R (S.boolean b) (T.boolean b)
  integer : ∀ n, R (S.integer n) (T.integer n)
  string : ∀ s, R (S.string s) (T.string s)
  array : ∀ {items items'}, List.Forall₂ R items items' → R (S.array items) (T.array items')
  object : ∀ {members members'},
    List.Forall₂ (fun m n => m.1 = n.1 ∧ R m.2 n.2) members members' →
    R (S.object members) (T.object members')

/-- **What two related serializers make of a value is related**, if that is so for its reals. -/
theorem Related.serialize {R : α → β → Prop} {S : Serializer α} {T : Serializer β}
    {P : Value → Prop} (h : Related R S T) (hreal : ∀ x, P (.real x) → R (S.real x) (T.real x))
    {v : Value} (hv : v.Every P) : R (v.serialize S) (v.serialize T) := by
  induction v using Value.induction with
  | null => exact h.null
  | boolean b => exact h.boolean b
  | integer n => exact h.integer n
  | real x => exact hreal x hv
  | string s => exact h.string s
  | array items ih =>
      have hitems := (Value.every_array_iff.1 hv).2
      rw [Value.serialize, Value.serialize, Value.serializeItems_eq_map,
        Value.serializeItems_eq_map]
      refine h.array ?_
      rw [List.forall₂_map_left_iff, List.forall₂_map_right_iff, List.forall₂_same]
      exact fun v hv => ih v hv (hitems v hv)
  | object members ih =>
      have hmembers := (Value.every_object_iff.1 hv).2
      rw [Value.serialize, Value.serialize, Value.serializeMembers_eq_map,
        Value.serializeMembers_eq_map]
      refine h.object ?_
      rw [List.forall₂_map_left_iff, List.forall₂_map_right_iff, List.forall₂_same]
      exact fun m hm => ⟨rfl, ih m hm (hmembers m hm)⟩

/-! ### Writers of JSON -/

/-- A character as it stands inside a **written string**: the escapes of one letter, four
hexadecimal digits in lower case for the other controls, and all else as it is. -/
inductive Escapes : Char → List Char → Prop
  | quotationMark : Escapes '"' ['\\', '"']
  | backslash : Escapes '\\' ['\\', '\\']
  | backspace : Escapes '\x08' ['\\', 'b']
  | formFeed : Escapes '\x0c' ['\\', 'f']
  | lineFeed : Escapes '\n' ['\\', 'n']
  | carriageReturn : Escapes '\r' ['\\', 'r']
  | tab : Escapes '\t' ['\\', 't']
  | control {c : Char} : c.toNat < 0x20 → c ∉ ['\x08', '\x0c', '\n', '\r', '\t'] →
      Escapes c ['\\', 'u', '0', '0', (c.toNat / 16).digitChar, (c.toNat % 16).digitChar]
  | plain {c : Char} : 0x20 ≤ c.toNat → c ≠ '"' → c ≠ '\\' → Escapes c [c]

/-- What is asked of a **writer of JSON**. -/
structure WritesJson (S : Serializer (List Char)) : Prop where
  null : S.null = ['n', 'u', 'l', 'l']
  boolean_true : S.boolean true = ['t', 'r', 'u', 'e']
  boolean_false : S.boolean false = ['f', 'a', 'l', 's', 'e']
  /-- An integer is written in decimal, with a minus sign if it is negative. -/
  integer : ∀ n : Int64,
    S.integer n = (if n.toInt < 0 then ['-'] else []) ++ Nat.toDigits 10 n.toInt.natAbs
  /-- What is not a finite number is null. -/
  notFinite : ∀ x : Binary64, x.isFinite = false → S.real x = ['n', 'u', 'l', 'l']
  /-- A zero keeps its sign. -/
  zero : ∀ x : Binary64, x.isZero = true →
    S.real x = (if x.isNegative then ['-'] else []) ++ ['0', '.', '0']
  /-- Another finite real is written by digits that are read as it. -/
  real : ∀ x : Binary64, x.isFinite = true → x.isZero = false →
    ∃ d : Decimal, d.nearest = x.magnitude ∧
      S.real x = (if x.isNegative then ['-'] else []) ++ d.text .interchange
  string : ∀ s : String, ∃ chunks, List.Forall₂ Escapes s.toList chunks ∧
    S.string s = '"' :: chunks.flatten ++ ['"']
  array : ∀ items, S.array items = '[' :: commaSeparated items ++ [']']
  /-- A key is written as a string is. -/
  object : ∀ members, S.object members =
    '{' :: commaSeparated (members.map fun m => S.string m.1 ++ ':' :: m.2) ++ ['}']

/-- The two digits of a control. -/
theorem padded_four {n : ℕ} (h : n < 0x20) :
    Hex.padded 4 n = ['0', '0', (n / 16).digitChar, (n % 16).digitChar] := by
  interval_cases n <;> rfl

/-- **The table of escapes is the one of compact text.** -/
theorem Escapes.eq_escapedChar {c : Char} {chunk : List Char} (h : Escapes c chunk) :
    chunk = escapedChar c := by
  cases h with
  | quotationMark | backslash | backspace | formFeed | lineFeed | carriageReturn | tab => rfl
  | control hc hshort =>
      simp only [List.mem_cons, List.not_mem_nil, or_false, not_or] at hshort
      obtain ⟨hb, hf, hn, hr, ht⟩ := hshort
      have hmark : c ≠ '"' := by rintro rfl; exact absurd hc (by decide)
      have hback : c ≠ '\\' := by rintro rfl; exact absurd hc (by decide)
      simp only [escapedChar, hmark, hback, hn, hr, ht, hb, hf, hc, padded_four hc, if_false,
        if_true]
      rfl
  | plain hc hmark hback =>
      have hctl : ¬ c.toNat < 0x20 := Nat.not_lt.2 hc
      have hne : ∀ d : Char, d.toNat < 0x20 → c ≠ d := by
        rintro d hd rfl
        exact hctl hd
      simp only [escapedChar, hmark, hback, hctl, hne '\n' (by decide), hne '\r' (by decide),
        hne '\t' (by decide), hne '\x08' (by decide), hne '\x0c' (by decide), if_false]

/-- Every character is in the table. -/
theorem escapes_escapedChar (c : Char) : Escapes c (escapedChar c) := by
  rw [escapedChar]
  split_ifs with hmark hback hn hr ht hb hf hc
  · exact hmark ▸ .quotationMark
  · exact hback ▸ .backslash
  · exact hn ▸ .lineFeed
  · exact hr ▸ .carriageReturn
  · exact ht ▸ .tab
  · exact hb ▸ .backspace
  · exact hf ▸ .formFeed
  · rw [padded_four hc]
    exact .control hc (by simp [hb, hf, hn, hr, ht])
  · exact .plain (Nat.le_of_not_lt hc) hmark hback

/-- Chunks for characters one by one are those of compact text. -/
theorem eq_map_escapedChar {chars : List Char} {chunks : List (List Char)}
    (h : List.Forall₂ Escapes chars chunks) : chunks = chars.map escapedChar := by
  induction h with
  | nil => rfl
  | cons hc _ ih => rw [hc.eq_escapedChar, ih, List.map_cons]

variable {S : Serializer (List Char)}

/-- **A writer of JSON is settled by its layout of reals.** -/
theorem WritesJson.eq_json (h : S.WritesJson) : S = json S.real := by
  have hboolean : S.boolean = (json S.real).boolean := by
    funext b
    cases b with
    | true => exact h.boolean_true
    | false => exact h.boolean_false
  have hstring : S.string = stringText := by
    funext s
    obtain ⟨chunks, hchunks, htext⟩ := h.string s
    rw [htext, eq_map_escapedChar hchunks, ← List.flatMap_def, stringText]
  have hobject : S.object = (json S.real).object := by
    funext members
    rw [h.object, hstring]
    rfl
  have hnull : S.null = (json S.real).null := h.null
  have hinteger : S.integer = (json S.real).integer := funext h.integer
  have harray : S.array = (json S.real).array := funext h.array
  obtain ⟨null, boolean, integer, real, string, array, object⟩ := S
  simp only at hnull hboolean hinteger hstring harray hobject
  rw [hnull, hboolean, hinteger, hstring, harray, hobject]
  rfl

/-- The interchange writer is a writer of JSON. -/
theorem writesJson_interchange : interchange.WritesJson where
  null := rfl
  boolean_true := rfl
  boolean_false := rfl
  integer _ := rfl
  notFinite _ hx := Syntax.realText_of_notFinite .interchange hx
  zero _ hx := Syntax.realText_of_isZero .interchange hx
  real x hx hzero := by
    have hlt : x.magnitude < Binary64.infinity := by
      rwa [Binary64.isFinite, decide_eq_true_eq] at hx
    exact ⟨_, Decimal.nearest_shortest _ hlt, Syntax.realText_of_finite .interchange hx hzero⟩
  string s := by
    refine ⟨s.toList.map escapedChar, ?_, ?_⟩
    · rw [List.forall₂_map_right_iff, List.forall₂_same]
      exact fun c _ => escapes_escapedChar c
    · rw [← List.flatMap_def]
      rfl
  array _ := rfl
  object _ := rfl

/-! ### The layout of reals -/

/-- A finite real is written as a number with its value. -/
theorem WritesJson.exists_number (h : S.WritesJson) {x : Binary64} (hx : x.isFinite = true) :
    ∃ n : Syntax.NumberToken, n.text = Utf8.encodeChars (S.real x) ∧ n.value = .real x := by
  cases hzero : x.isZero with
  | true =>
      refine ⟨Syntax.realToken .interchange x hx, ?_, rfl⟩
      rw [Syntax.text_realToken, h.zero x hzero, Syntax.realText_of_isZero .interchange hzero]
  | false =>
      obtain ⟨d, hd, htext⟩ := h.real x hx hzero
      have hdigits : d.digits ≠ 0 := by
        intro h0
        rw [Decimal.nearest, if_pos h0] at hd
        rw [Binary64.isZero, ← hd] at hzero
        exact Bool.true_eq_false.mp hzero
      refine ⟨⟨_, _, Syntax.wellFormed_decimalNumeral .interchange x.isNegative hdigits,
        Syntax.denotes_decimalNumeral .interchange hx hd⟩, ?_, rfl⟩
      rw [Syntax.NumberToken.text, Syntax.text_decimalNumeral, htext]

/-- **The two texts of a real are read alike.** -/
theorem WritesJson.readAlike_real (h : S.WritesJson) (x : Binary64) :
    Syntax.ReadAlike (S.real x) (x.text .compact) := by
  cases hx : x.isFinite with
  | true =>
      obtain ⟨n, hn, hvalue⟩ := h.exists_number hx
      exact ⟨.number n, .number (Syntax.realToken .compact x hx), hn,
        Syntax.text_realToken .compact x hx, .number hvalue⟩
  | false =>
      refine ⟨.word .null, .word .null, ?_, ?_, .word .null⟩
      · rw [h.notFinite x hx]
        rfl
      · rw [Syntax.realText_of_notFinite .compact hx]
        rfl

/-- Writers of JSON are related by what is read alike. -/
theorem related_readAlike (ρ τ : Binary64 → List Char) :
    Related Syntax.ReadAlike (json ρ) (json τ) where
  null := ⟨.word .null, .word .null, rfl, rfl, .word .null⟩
  boolean b := by
    cases b with
    | true => exact ⟨.word .true, .word .true, rfl, rfl, .word .true⟩
    | false => exact ⟨.word .false, .word .false, rfl, rfl, .word .false⟩
  integer n := ⟨.number (Syntax.integerToken n), .number (Syntax.integerToken n),
    Syntax.text_integerToken n, Syntax.text_integerToken n, .number rfl⟩
  string s := ⟨.string (Syntax.writtenSpellings s), .string (Syntax.writtenSpellings s),
    Syntax.quotedText_written s, Syntax.quotedText_written s, .string _⟩
  array := Syntax.ReadAlike.array
  object := Syntax.ReadAlike.object

/-- Writers of JSON are equal but for the layout of reals. -/
theorem related_eq (ρ τ : Binary64 → List Char) : Related Eq (json ρ) (json τ) where
  null := rfl
  boolean _ := rfl
  integer _ := rfl
  string _ := rfl
  array h := by
    rw [List.forall₂_eq_eq_eq] at h
    rw [h]
    rfl
  object h := by
    have hmembers := h.imp fun m n hmn => Prod.ext hmn.1 hmn.2
    rw [List.forall₂_eq_eq_eq] at hmembers
    rw [hmembers]
    rfl

end Serializer

/-! ### The two texts of a value -/

/-- The real, if the value is one, is not finite. -/
def Value.NotFiniteReal : Value → Prop
  | .real x => x.isFinite = false
  | _ => True

/-- **No real is finite.** -/
def Value.NoFiniteReal (v : Value) : Prop := v.Every NotFiniteReal

/-- Every value satisfies what is true of all values. -/
theorem Value.every_true (v : Value) : v.Every fun _ => True := by
  induction v using Value.induction with
  | null | boolean | integer | real | string => trivial
  | array items ih => exact every_array_iff.2 ⟨trivial, ih⟩
  | object members ih => exact every_object_iff.2 ⟨trivial, ih⟩

/-- Compact text is what a writer of JSON makes of a value. -/
theorem Value.render_eq_serialize (style : RealStyle) (v : Value) :
    v.render style = v.serialize (Serializer.json (Binary64.text style)) := by
  induction v using Value.induction with
  | null | integer | real | string => rfl
  | boolean b => cases b <;> rfl
  | array items ih =>
      rw [render, renderItems_eq_map, serialize, serializeItems_eq_map, List.map_congr_left ih]
      rfl
  | object members ih =>
      rw [render, renderMembers_eq_map, serialize, serializeMembers_eq_map]
      have hmembers : (members.map fun m => stringText m.1 ++ ':' :: m.2.render style) =
          (members.map fun m =>
            (m.1, m.2.serialize (Serializer.json (Binary64.text style)))).map
              Serializer.memberText := by
        rw [List.map_map]
        refine List.map_congr_left fun m hm => ?_
        rw [ih m hm]
        rfl
      rw [hmembers]
      rfl

/-- **The two texts of a value**: compact text, and that of another writer of JSON. They are equal
if no real is finite. Under any options both are read as one value, or both are refused under one
code. -/
theorem serialize_dump {S : Serializer (List Char)} (hS : S.WritesJson) (v : Value) :
    (v.NoFiniteReal → String.ofList (v.serialize S) = v.dump) ∧
    ∀ o : Syntax.Options,
      (∃ w, parse o (Utf8.ofString (String.ofList (v.serialize S))) = .ok w ∧
        parse o (Utf8.ofString v.dump) = .ok w) ∨
      ∃ f g, parse o (Utf8.ofString (String.ofList (v.serialize S))) = .error f ∧
        parse o (Utf8.ofString v.dump) = .error g ∧ f.toError.code = g.toError.code := by
  have hjson := hS.eq_json
  have hdump : v.dump = String.ofList (v.serialize (.json (Binary64.text .compact))) := by
    rw [Value.dump, Value.render_eq_serialize]
  refine ⟨fun hv => ?_, fun o => ?_⟩
  · rw [hdump, hjson]
    refine congrArg String.ofList ((Serializer.related_eq _ _).serialize (fun x hx => ?_) hv)
    exact (hS.notFinite x hx).trans (Syntax.realText_of_notFinite .compact hx).symm
  · have halike : Syntax.ReadAlike (v.serialize S)
        (v.serialize (.json (Binary64.text .compact))) := by
      rw [hjson]
      exact (Serializer.related_readAlike _ _).serialize (fun x _ => hS.readAlike_real x)
        v.every_true
    rw [hdump, Utf8.ofString, Utf8.ofString, String.toList_ofList, String.toList_ofList]
    rcases halike.parse o with hok | ⟨f, g, hf, hg, hfault⟩
    · exact .inl hok
    · exact .inr ⟨f, g, hf, hg, congrArg Syntax.Fault.code hfault⟩

/-- Ten to the power 16, where the two texts have and have not a plus sign, and an infinity, where
they are equal. -/
theorem serialize_dump_power :
    Serializer.interchange.WritesJson ∧
    parse .strict (Utf8.ofString (Value.array [.real ⟨0x4341c37937e08000⟩]).interchangeText) =
      .ok (.array [.real ⟨0x4341c37937e08000⟩]) ∧
    (Value.object [("\x1f", .real ⟨0x7ff0000000000000⟩)]).interchangeText =
      (Value.object [("\x1f", .real ⟨0x7ff0000000000000⟩)]).dump := by
  have hread : parse .strict (Utf8.ofString (Value.array [.real ⟨0x4341c37937e08000⟩]).dump) =
      .ok (.array [.real ⟨0x4341c37937e08000⟩]) :=
    (parse_dump (v := .array [.real ⟨0x4341c37937e08000⟩]) ⟨trivial, trivial⟩ .strict).1.2
      ⟨by decide, .inr ⟨trivial, trivial, trivial⟩⟩
  refine ⟨Serializer.writesJson_interchange, ?_,
    (serialize_dump Serializer.writesJson_interchange _).1 ⟨trivial, rfl, trivial⟩⟩
  rcases (serialize_dump Serializer.writesJson_interchange
      (.array [.real ⟨0x4341c37937e08000⟩])).2 .strict with ⟨w, hw, hdump⟩ | ⟨f, g, -, hdump, -⟩
  · rw [hread] at hdump
    exact Except.ok.inj hdump ▸ hw
  · rw [hread] at hdump
    simp at hdump

end StrictJson
