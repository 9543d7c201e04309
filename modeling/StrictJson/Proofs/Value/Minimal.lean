import Mathlib.Algebra.Order.BigOperators.Group.List
import StrictJson.Proofs.Exchange.Serialization
import StrictJson.Proofs.Syntax.NumberReading

/-!
# No Text Is Shorter

Among all texts that are read as a value without a real, its compact text has the fewest bytes. A
text has other spellings of characters, white space, and members that a later one overwrites, and
none of these saves a byte: the compact text takes a shortest spelling of each character, and of the
members it has only those that are left.

Reals have to be left out of this, since `1e9` is shorter than `1000000000.0`. A text may have them
all the same, in members that are overwritten. So the induction over a text is about the compact
text with nothing in place of each real, which is no longer than the text in any case.

## Main definitions

* `Value.NoReal`: no part of the value is a real.
* `Value.skeleton`: the compact text with nothing in place of each real.

## Main results

* `Syntax.Spelling.length_escapedChar_le`: the compact spelling of a character is a shortest one.
* `Members.ofPairs_subperm`: members that are collected are among the pairs, each of them once.
* `Syntax.Tree.size_meaning_le`: a skeleton is no longer than the text.
* `length_dump_le`: nor is the compact text, if the value has no real.
-/

namespace StrictJson

/-- The number of bytes of some characters. -/
def byteCount (chars : List Char) : ℕ :=
  (Utf8.encodeChars chars).length

@[simp] theorem byteCount_nil : byteCount [] = 0 := rfl

@[simp] theorem byteCount_append (chars more : List Char) :
    byteCount (chars ++ more) = byteCount chars + byteCount more := by
  rw [byteCount, Utf8.encodeChars_append, List.length_append]
  rfl

/-- A character in front counts its own bytes. -/
theorem byteCount_cons (c : Char) (chars : List Char) :
    byteCount (c :: chars) = (Utf8.encodeChar c).length + byteCount chars := by
  rw [byteCount, Utf8.encodeChars_cons, List.length_append]
  rfl

/-! ### Strings -/

/-- No character takes more than six bytes in compact text. -/
theorem byteCount_escapedChar_le (c : Char) : byteCount (escapedChar c) ≤ 6 := by
  have h := Serializer.escapes_escapedChar c
  generalize escapedChar c = chunk at h ⊢
  cases h with
  | quotationMark | backslash | backspace | formFeed | lineFeed | carriageReturn | tab => decide
  | control hc _ =>
      have hcontrol : ∀ n < 0x20, byteCount
          ['\\', 'u', '0', '0', (n / 16).digitChar, (n % 16).digitChar] ≤ 6 := by
        decide
      exact hcontrol _ hc
  | plain =>
      have hfour := (Utf8.length_encodeChar c).2
      rw [byteCount_cons, byteCount_nil]
      omega

/-- **The compact spelling of a character is a shortest one.** -/
theorem Syntax.Spelling.length_escapedChar_le (s : Spelling) :
    byteCount (escapedChar s.char) ≤ s.text.length := by
  obtain ⟨text, char, h⟩ := s
  have hsix := byteCount_escapedChar_le char
  change byteCount (escapedChar char) ≤ text.length
  cases h with
  | plain hc hmark hback =>
      rw [← (Serializer.Escapes.plain hc hmark hback).eq_escapedChar, byteCount_cons,
        byteCount_nil, Utf8.encodeChar_eq_utf8EncodeChar, Nat.add_zero]
  | short hs => cases hs <;> decide
  | unit hu =>
      rw [List.length_cons, List.length_cons, hu.length_eq]
      exact hsix
  | pair hu _ _ hv =>
      simp only [List.length_append, List.length_cons, hu.length_eq, hv.length_eq]
      omega

/-- A string token is no shorter than the compact text of its string. -/
theorem Syntax.byteCount_stringText_le (ss : List Spelling) :
    byteCount (stringText (spelledString ss)) ≤ (quotedText ss).length := by
  have hinside : byteCount ((ss.map Spelling.char).flatMap escapedChar) ≤
      (spelledText ss).length := by
    induction ss with
    | nil => exact Nat.le_refl 0
    | cons s ss ih =>
        rw [List.map_cons, List.flatMap_cons, byteCount_append, spelledText, List.flatMap_cons,
          List.length_append]
        exact Nat.add_le_add s.length_escapedChar_le ih
  have hmark : (Utf8.encodeChar '"').length = 1 := rfl
  rw [stringText, spelledString, String.toList_ofList, byteCount_append, byteCount_cons,
    byteCount_cons, byteCount_nil, hmark, quotedText, List.length_append, List.length_cons,
    List.length_singleton]
  omega

/-! ### Texts with commas between them -/

/-- Each text counts its bytes and a comma, and one comma too many is counted. -/
theorem byteCount_commaSeparated (texts : List (List Char)) :
    byteCount (commaSeparated texts) = (texts.map (byteCount · + 1)).sum - 1 := by
  have hcomma : (Utf8.encodeChar ',').length = 1 := rfl
  induction texts with
  | nil => rfl
  | cons t ts ih =>
      cases ts with
      | nil => rfl
      | cons u us =>
          rw [commaSeparated, byteCount_append, byteCount_cons, hcomma, ih]
          simp only [List.map_cons, List.sum_cons]
          omega

/-- One more text adds its bytes and a comma at most. -/
theorem byteCount_commaSeparated_cons_le (t : List Char) (texts : List (List Char)) :
    byteCount (commaSeparated (t :: texts)) ≤
      byteCount t + 1 + byteCount (commaSeparated texts) := by
  rw [byteCount_commaSeparated, byteCount_commaSeparated, List.map_cons, List.sum_cons]
  omega

/-- Fewer things have fewer bytes, also in another order. -/
theorem byteCount_commaSeparated_le_of_subperm {α : Type} {few many : List α}
    (text : α → List Char) (h : few.Subperm many) :
    byteCount (commaSeparated (few.map text)) ≤ byteCount (commaSeparated (many.map text)) := by
  obtain ⟨kept, hperm, hsublist⟩ := h
  have hsum : ((few.map text).map (byteCount · + 1)).sum =
      ((kept.map text).map (byteCount · + 1)).sum :=
    ((hperm.map text).map _).symm.sum_eq
  have hle : ((kept.map text).map (byteCount · + 1)).sum ≤
      ((many.map text).map (byteCount · + 1)).sum :=
    ((hsublist.map text).map _).sum_le_sum fun _ _ => Nat.zero_le _
  rw [byteCount_commaSeparated, byteCount_commaSeparated, hsum]
  exact Nat.sub_le_sub_right hle 1

/-- **Members that are collected are among the pairs**, each of them once. -/
theorem Members.ofPairs_subperm {α : Type} (pairs : List (String × α)) :
    (ofPairs pairs).Subperm pairs :=
  List.subperm_of_subset (List.Nodup.of_map _ (nodup_ofPairs pairs)) fun _ => mem_of_mem_ofPairs

/-! ### Skeletons -/

namespace Value

/-- A value that is not a real. -/
def IsNoReal : Value → Prop
  | .real _ => False
  | _ => True

/-- **No part of the value is a real.** -/
def NoReal (v : Value) : Prop := v.Every IsNoReal

/-- The **skeleton** of a value: its compact text with nothing in place of each real. -/
def skeleton (v : Value) : List Char :=
  v.serialize (.json fun _ => [])

/-- The skeleton of a member. -/
def memberSkeleton (m : String × Value) : List Char :=
  Serializer.memberText (m.1, m.2.skeleton)

/-- **Without reals the skeleton is the compact text.** -/
theorem skeleton_eq_render {v : Value} (h : v.NoReal) : v.skeleton = v.render .compact := by
  rw [render_eq_serialize]
  exact (Serializer.related_eq _ _).serialize (fun _ hx => absurd hx id) h

theorem skeleton_array (items : List Value) :
    (Value.array items).skeleton = '[' :: commaSeparated (items.map skeleton) ++ [']'] := by
  rw [skeleton, serialize, serializeItems_eq_map]
  rfl

theorem skeleton_object (members : List (String × Value)) :
    (Value.object members).skeleton =
      '{' :: commaSeparated (members.map memberSkeleton) ++ ['}'] := by
  rw [skeleton, serialize, serializeMembers_eq_map, Serializer.json]
  simp only [List.map_map]
  rfl

end Value

/-! ### Skeletons and texts -/

namespace Syntax

/-- The number of bytes in the skeleton of a meaning. -/
def Part.size : (part : Part) → part.Meaning → ℕ
  | value, v | element, v => byteCount (Value.skeleton v)
  | items, vs => byteCount (commaSeparated (vs.map Value.skeleton))
  | members, ms => byteCount (commaSeparated (ms.map Value.memberSkeleton))

/-- A number is no shorter than its skeleton. -/
theorem NumberToken.size_value_le (n : NumberToken) :
    byteCount n.value.skeleton ≤ n.text.length := by
  obtain ⟨numeral, v, hwell, hdenotes⟩ := n
  cases hdenotes with
  | integer hint =>
      have htext : numeral.text = (integerToken _).text :=
        congrArg Numeral.text (hint.eq_integerNumeral hwell)
      rw [NumberToken.text, htext, text_integerToken]
      rfl
  | real => exact Nat.zero_le _

/-- The skeleton of a member is its key, a colon and the skeleton of its value. -/
theorem byteCount_memberSkeleton_le (l : Label) (v : Value) :
    byteCount (Value.memberSkeleton (l.string, v)) ≤ l.text.length + 1 + byteCount v.skeleton := by
  have hkey := byteCount_stringText_le l.key
  have hcolon : (Utf8.encodeChar ':').length = 1 := rfl
  rw [Value.memberSkeleton, Serializer.memberText, byteCount_append, byteCount_cons, hcolon,
    Label.text, List.length_append, List.length_append]
  simp only [Label.string]
  omega

/-- **A skeleton is no longer than the text.** -/
theorem Tree.size_meaning_le {part : Part} (t : Tree part) :
    part.size t.meaning ≤ t.text.length := by
  have hbracket : ∀ (a b : Char) (inner : List Char), (Utf8.encodeChar a).length = 1 →
      (Utf8.encodeChar b).length = 1 → byteCount (a :: inner ++ [b]) = byteCount inner + 2 := by
    intro a b inner ha hb
    rw [byteCount_append, byteCount_cons, byteCount_cons, byteCount_nil, ha, hb]
    omega
  induction t with
  | word w => cases w <;> decide
  | number n => exact n.size_value_le
  | string ss => exact byteCount_stringText_le ss
  | emptyArray space | emptyObject space =>
      rw [text, List.length_append, List.length_cons, List.length_singleton]
      exact Nat.le_add_left 2 _
  | array items ih =>
      rw [meaning, Part.size, Value.skeleton_array, hbracket _ _ _ rfl rfl, text,
        List.length_append, List.length_cons, List.length_singleton]
      exact Nat.add_le_add_right ih 2
  | object members ih =>
      have hmembers := byteCount_commaSeparated_le_of_subperm Value.memberSkeleton
        (Members.ofPairs_subperm members.meaning)
      rw [meaning, Part.size, Value.skeleton_object, hbracket _ _ _ rfl rfl, text,
        List.length_append, List.length_cons, List.length_singleton]
      exact Nat.add_le_add_right (hmembers.trans ih) 2
  | padded before value after ih =>
      rw [text, List.length_append, List.length_append]
      exact ih.trans (by omega)
  | lastItem first ih => exact ih
  | item first others ih ihs =>
      have hcomma := byteCount_commaSeparated_cons_le first.meaning.skeleton
        (others.meaning.map Value.skeleton)
      rw [text, List.length_append, List.length_cons]
      simp only [meaning, Part.size, List.map_cons] at ih ihs hcomma ⊢
      omega
  | lastMember label element ih =>
      have hmember := byteCount_memberSkeleton_le label element.meaning
      rw [text, List.length_append, List.length_cons]
      simp only [meaning, Part.size, List.map_cons, List.map_nil, commaSeparated] at ih ⊢
      omega
  | member label element others ih ihs =>
      have hmember := byteCount_memberSkeleton_le label element.meaning
      have hcomma := byteCount_commaSeparated_cons_le
        (Value.memberSkeleton (label.string, element.meaning))
        (others.meaning.map Value.memberSkeleton)
      simp only [text, List.length_append, List.length_cons]
      simp only [meaning, Part.size, List.map_cons] at ih ihs ⊢
      omega

end Syntax

/-- **No text is shorter.** The compact text of a value without a real is read as the value under
any options under which some text is, and it has no more bytes than that text. -/
theorem length_dump_le {v : Value} (hv : v.NoReal) {o : Syntax.Options} {input : List UInt8}
    (h : parse o input = .ok v) :
    parse o (Utf8.ofString v.dump) = .ok v ∧
      (Utf8.ofString v.dump).length ≤ input.length := by
  have hadmits := Syntax.admits_of_parse h
  have hread := (parse_dumpBytes_eq_ok_iff hadmits.keysDistinct).2 ⟨hadmits.depth, hadmits.nulFree⟩
  rw [Value.reread_of_finite hadmits.finite] at hread
  obtain ⟨d, rfl, rfl⟩ := Syntax.exists_document_of_parse h
  have hsize := d.size_meaning_le
  rw [Syntax.Part.size, Value.skeleton_eq_render hv] at hsize
  rw [Value.ofString_dump]
  exact ⟨hread, hsize⟩

/-- In `{"\u0061":0.0, "a":[]}` a real is overwritten and a key is spelled in two ways. What remains
is written in eight bytes. -/
theorem length_dump_le_overwritten :
    (Value.object [("a", .array [])]).NoReal ∧
    parse ⟨2, false, false⟩ [0x7b, 0x22, 0x5c, 0x75, 0x30, 0x30, 0x36, 0x31, 0x22, 0x3a, 0x30, 0x2e,
      0x30, 0x2c, 0x20, 0x22, 0x61, 0x22, 0x3a, 0x5b, 0x5d, 0x7d] =
      .ok (.object [("a", .array [])]) ∧
    (Utf8.ofString (Value.object [("a", .array [])]).dump).length ≤ 22 := by
  let letter : Syntax.Spelling := ⟨[0x5c, 0x75, 0x30, 0x30, 0x36, 0x31], 'a',
    .unit (.mk (w := 0) (x := 0) (y := 6) (z := 1) rfl rfl rfl rfl) (by decide)⟩
  let escaped : Syntax.Label := ⟨.none, [letter], .none⟩
  let plain : Syntax.Label := ⟨⟨[0x20], List.forall_mem_singleton.2 rfl⟩,
    Syntax.writtenSpellings "a", .none⟩
  let zero : Syntax.Document :=
    .padded .none (.number (Syntax.realToken .compact ⟨0⟩ rfl)) .none
  let empty : Syntax.Document := .padded .none (.emptyArray .none) .none
  let d : Syntax.Document :=
    .padded .none (.object (.member escaped zero (.lastMember plain empty))) .none
  have htext : d.text = [0x7b, 0x22, 0x5c, 0x75, 0x30, 0x30, 0x36, 0x31, 0x22, 0x3a, 0x30, 0x2e,
      0x30, 0x2c, 0x20, 0x22, 0x61, 0x22, 0x3a, 0x5b, 0x5d, 0x7d] := by decide
  have hmeaning : d.meaning = .object [("a", .array [])] := rfl
  have hread : parse ⟨2, false, false⟩ d.text = .ok (.object [("a", .array [])]) := by
    rw [← hmeaning, Syntax.parse_text, Syntax.refuse_eq_ok_iff]
    decide
  rw [htext] at hread
  have hreal : (Value.object [("a", .array [])]).NoReal := ⟨trivial, ⟨trivial, trivial⟩, trivial⟩
  exact ⟨hreal, hread, (length_dump_le hreal hread).2⟩

end StrictJson
