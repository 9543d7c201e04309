import Mathlib.Data.Int.Notation
import Mathlib.Data.List.Forall2
import StrictJson.Proofs.Utf8.Sequence
import StrictJson.Utf8.Table

/-!
# Well-Formed Bytes

Three descriptions of the same bytes: those that the checker accepts, the rows of sequences from the
table, and what the encoder writes for some characters. The checker, the decoder and the encoder
agree on single sequences in front of anything, and everything here follows from that by taking one
sequence after the other. The table is a description of its own: it lists ranges of bytes where the
decoder computes a number and looks at it.

## Main definitions

* `IsSequence`: a sequence of the table.
* `Encodes`: what the encoder writes for some characters.
* `Walk`: repeated decoding from an index on.

## Main results

* `isSequence_iff`: the sequences of the table are the encoded characters.
* `isValid_iff`, `decode?_eq_some_iff`: well-formed bytes are the encoded texts.
* `encodeInto_cases`: what the encoder writes and what it refuses.
* `isValid_iff_sequences_iff_encodes`: the three descriptions, and decoding as the inverse of
  encoding.
-/

namespace StrictJson.Utf8

/-! ### Texts -/

@[simp] theorem encodeChars_nil : encodeChars [] = [] := rfl

@[simp] theorem encodeChars_cons (c : Char) (chars : List Char) :
    encodeChars (c :: chars) = encodeChar c ++ encodeChars chars := rfl

/-- Texts are encoded one after the other. -/
theorem encodeChars_append (chars more : List Char) :
    encodeChars (chars ++ more) = encodeChars chars ++ encodeChars more :=
  List.flatMap_append

/-- Nothing can be decoded where nothing is left. -/
@[simp] theorem next?_nil : next? [] = none := rfl

/-- Decoding takes one character after the other. -/
theorem decodePrefix_encodeChar_append (c : Char) (rest : List UInt8) :
    decodePrefix (encodeChar c ++ rest) = (c :: (decodePrefix rest).1, (decodePrefix rest).2) := by
  rw [decodePrefix]
  split
  · next hnone => simp [next?_encodeChar_append] at hnone
  · next d n hsome =>
    simp only [next?_encodeChar_append, Option.some.injEq, Prod.mk.injEq] at hsome
    obtain ⟨rfl, rfl⟩ := hsome
    rw [List.drop_left]

/-- A text is decoded to its end. -/
theorem decodePrefix_encodeChars (chars : List Char) :
    decodePrefix (encodeChars chars) = (chars, []) := by
  induction chars with
  | nil =>
      rw [encodeChars_nil, decodePrefix]
      rfl
  | cons c chars ih => rw [encodeChars_cons, decodePrefix_encodeChar_append, ih]

/-- What has been decoded and what is left make up the bytes. -/
theorem encodeChars_decodePrefix (bytes : List UInt8) :
    encodeChars (decodePrefix bytes).1 ++ (decodePrefix bytes).2 = bytes := by
  fun_induction decodePrefix bytes with
  | case1 bytes hnone => rfl
  | case2 bytes c n hsome chars rest hrest ih =>
      rw [hrest] at ih
      obtain ⟨rfl, hbytes⟩ := eq_encodeChar_append_of_next? hsome
      rw [encodeChars_cons, List.append_assoc, ih, ← hbytes]

/-- **The texts are what decodes to its end**, and each is decoded as its characters. -/
theorem decode?_eq_some_iff {bytes : List UInt8} {chars : List Char} :
    decode? bytes = some chars ↔ encodeChars chars = bytes := by
  constructor
  · intro h
    rw [decode?] at h
    split at h
    · next chars' hall =>
      obtain rfl := Option.some.inj h
      have hbytes := encodeChars_decodePrefix bytes
      rwa [hall, List.append_nil] at hbytes
    · simp at h
  · rintro rfl
    rw [decode?, decodePrefix_encodeChars]

/-- A text has one row of characters. -/
theorem encodeChars_injective : Function.Injective encodeChars := by
  intro chars chars' h
  have h' := decode?_eq_some_iff.2 h
  rw [decode?_eq_some_iff.2 rfl] at h'
  exact (Option.some.inj h').symm

/-- The checker takes one character after the other. -/
theorem isValid_encodeChar_append (c : Char) (rest : List UInt8) :
    isValid (encodeChar c ++ rest) = isValid rest := by
  rw [isValid]
  split
  · next hnone => simp [next?_encodeChar_append] at hnone
  · next d n hsome =>
    simp only [next?_encodeChar_append, Option.some.injEq, Prod.mk.injEq] at hsome
    rw [← hsome.2, List.drop_left]

/-- **The well-formed bytes are the texts.** -/
theorem isValid_iff {bytes : List UInt8} :
    isValid bytes = true ↔ ∃ chars, encodeChars chars = bytes := by
  constructor
  · intro h
    fun_induction isValid bytes with
    | case1 bytes hnone => exact ⟨[], (List.isEmpty_iff.1 h).symm⟩
    | case2 bytes c n hsome ih =>
        obtain ⟨chars, hchars⟩ := ih h
        obtain ⟨rfl, hbytes⟩ := eq_encodeChar_append_of_next? hsome
        exact ⟨c :: chars, by rw [encodeChars_cons, hchars, ← hbytes]⟩
  · rintro ⟨chars, rfl⟩
    induction chars with
    | nil => rw [encodeChars_nil, isValid, next?_nil, List.isEmpty_nil]
    | cons c chars ih => rwa [encodeChars_cons, isValid_encodeChar_append]

/-! ### The table -/

/-- The bytes are a **sequence of the table**: each lies in the range at its place in some row. -/
def IsSequence (bytes : List UInt8) : Prop :=
  ∃ row ∈ rows, List.Forall₂ (fun r b => r.contains b = true) (row.lead :: row.trail) bytes

/-- A byte in a range, by its number. -/
theorem contains_iff {r : ByteRange} {b : UInt8} :
    r.contains b = true ↔ r.first.toNat ≤ b.toNat ∧ b.toNat ≤ r.last.toNat := by
  simp [ByteRange.contains, UInt8.le_iff_toNat_le]

/-- A lead byte and its trail bytes are the sequence of the character that they spell. -/
theorem exists_encodeChar {lead : UInt8} {trail : List UInt8}
    (hlen : sequenceLength? lead = some (trail.length + 1)) (htrail : trail.all isTrail = true)
    (hmin : minimum (trail.length + 1) ≤ codePoint lead trail)
    (hvalid : (codePoint lead trail).isValidChar) : ∃ c, encodeChar c = lead :: trail :=
  ⟨Char.ofNat (codePoint lead trail), by
    rw [encodeChar, toNat_ofNat_of_isValidChar hvalid, sequence_codePoint hlen htrail hmin]⟩

/-- The lead bytes by the length that they announce. -/
theorem sequenceLength?_of_le {lead : UInt8} {n : ℕ}
    (h : (n = 1 ∧ lead.toNat < 0x80) ∨ (n = 2 ∧ 0xc0 ≤ lead.toNat ∧ lead.toNat < 0xe0) ∨
      (n = 3 ∧ 0xe0 ≤ lead.toNat ∧ lead.toNat < 0xf0) ∨
      (n = 4 ∧ 0xf0 ≤ lead.toNat ∧ lead.toNat < 0xf5)) : sequenceLength? lead = some n := by
  simp only [sequenceLength?, UInt8.lt_iff_toNat_lt, UInt8.reduceToNat]
  grind

theorem exists_encodeChar_one {a : UInt8} (ha : a.toNat < 0x80) : ∃ c, encodeChar c = [a] := by
  refine exists_encodeChar (sequenceLength?_of_le (.inl ⟨rfl, ha⟩)) rfl (Nat.zero_le _) ?_
  simp only [codePoint, List.foldl_nil, List.length_nil, leadBits, Nat.isValidChar]
  omega

theorem exists_encodeChar_two {a b : UInt8} (ha : 0xc2 ≤ a.toNat ∧ a.toNat ≤ 0xdf)
    (hb : 0x80 ≤ b.toNat ∧ b.toNat ≤ 0xbf) : ∃ c, encodeChar c = [a, b] := by
  refine exists_encodeChar (sequenceLength?_of_le (.inr (.inl ⟨rfl, ?_⟩))) ?_ ?_ ?_
  · omega
  · simpa only [List.all_cons, List.all_nil, Bool.and_true, isTrail_iff] using hb
  all_goals
    simp only [codePoint, List.foldl_cons, List.foldl_nil, List.length_cons, List.length_nil,
      leadBits, minimum, Nat.isValidChar]
    omega

/-- Of three bytes, those that a shorter sequence could spell begin with `e0` and a low trail byte,
and the surrogates with `ed` and a high one. -/
theorem exists_encodeChar_three {a b c : UInt8} (ha : 0xe0 ≤ a.toNat ∧ a.toNat ≤ 0xef)
    (hb : 0x80 ≤ b.toNat ∧ b.toNat ≤ 0xbf) (hc : 0x80 ≤ c.toNat ∧ c.toNat ≤ 0xbf)
    (hmin : a.toNat = 0xe0 → 0xa0 ≤ b.toNat) (hsurrogate : a.toNat = 0xed → b.toNat ≤ 0x9f) :
    ∃ char, encodeChar char = [a, b, c] := by
  refine exists_encodeChar (sequenceLength?_of_le (.inr (.inr (.inl ⟨rfl, ?_⟩)))) ?_ ?_ ?_
  · omega
  · simpa only [List.all_cons, List.all_nil, Bool.and_true, Bool.and_eq_true, isTrail_iff]
      using ⟨hb, hc⟩
  all_goals
    simp only [codePoint, List.foldl_cons, List.foldl_nil, List.length_cons, List.length_nil,
      leadBits, minimum, Nat.isValidChar]
    omega

/-- Of four bytes, those that a shorter sequence could spell begin with `f0` and a low trail byte,
and those past the last code point with `f4` and a high one. -/
theorem exists_encodeChar_four {a b c d : UInt8} (ha : 0xf0 ≤ a.toNat ∧ a.toNat ≤ 0xf4)
    (hb : 0x80 ≤ b.toNat ∧ b.toNat ≤ 0xbf) (hc : 0x80 ≤ c.toNat ∧ c.toNat ≤ 0xbf)
    (hd : 0x80 ≤ d.toNat ∧ d.toNat ≤ 0xbf) (hmin : a.toNat = 0xf0 → 0x90 ≤ b.toNat)
    (hmax : a.toNat = 0xf4 → b.toNat ≤ 0x8f) : ∃ char, encodeChar char = [a, b, c, d] := by
  refine exists_encodeChar (sequenceLength?_of_le (.inr (.inr (.inr ⟨rfl, ?_⟩)))) ?_ ?_ ?_
  · omega
  · simpa only [List.all_cons, List.all_nil, Bool.and_true, Bool.and_eq_true, isTrail_iff]
      using ⟨hb, hc, hd⟩
  all_goals
    simp only [codePoint, List.foldl_cons, List.foldl_nil, List.length_cons, List.length_nil,
      leadBits, minimum, Nat.isValidChar]
    omega

/-- What lies in the ranges of a row is the sequence of a character. -/
theorem exists_encodeChar_of_isSequence {bytes : List UInt8} (h : IsSequence bytes) :
    ∃ c, encodeChar c = bytes := by
  obtain ⟨row, hrow, hbytes⟩ := h
  simp only [rows, anyTrail, List.mem_cons, List.not_mem_nil, or_false] at hrow
  rcases hrow with rfl | rfl | rfl | rfl | rfl | rfl | rfl | rfl | rfl
  all_goals
    simp only [List.forall₂_cons_left_iff, List.forall₂_nil_left_iff, contains_iff,
      UInt8.reduceToNat] at hbytes
  · obtain ⟨a, _, ha, rfl, rfl⟩ := hbytes
    exact exists_encodeChar_one (by omega)
  · obtain ⟨a, _, ha, ⟨b, _, hb, rfl, rfl⟩, rfl⟩ := hbytes
    exact exists_encodeChar_two ha hb
  iterate 4
    obtain ⟨a, _, ha, ⟨b, _, hb, ⟨c, _, hc, rfl, rfl⟩, rfl⟩, rfl⟩ := hbytes
    exact exists_encodeChar_three (by omega) (by omega) hc (by omega) (by omega)
  iterate 3
    obtain ⟨a, _, ha, ⟨b, _, hb, ⟨c, _, hc, ⟨d, _, hd, rfl, rfl⟩, rfl⟩, rfl⟩, rfl⟩ := hbytes
    exact exists_encodeChar_four (by omega) (by omega) hc hd (by omega) (by omega)

/-- Bytes of known numbers lie in the ranges of a row if their numbers do. -/
theorem isSequence_of_row (row : Row) (ns : List ℕ) (hrow : row ∈ rows)
    (h : List.Forall₂ (fun r n => n < 256 ∧ r.first.toNat ≤ n ∧ n ≤ r.last.toNat)
      (row.lead :: row.trail) ns) : IsSequence (ns.map UInt8.ofNat) := by
  refine ⟨row, hrow, List.forall₂_map_right_iff.2 (h.imp fun r n hn => ?_)⟩
  rw [contains_iff, UInt8.toNat_ofNat_of_lt' hn.1]
  exact hn.2

/-- The sequence of a character lies in the ranges of the row that its number belongs to. -/
theorem isSequence_encodeChar (c : Char) : IsSequence (encodeChar c) := by
  have hvalid := isValidChar_toNat c
  simp only [Nat.isValidChar] at hvalid
  rw [encodeChar, sequence]
  generalize c.toNat = n at hvalid
  split_ifs with h1 h2 h3
  · refine isSequence_of_row ⟨⟨0x00, 0x7f⟩, []⟩ [n] (by decide) ?_
    simp only [List.forall₂_cons, List.Forall₂.nil, UInt8.reduceToNat, and_true]
    omega
  · refine isSequence_of_row ⟨⟨0xc2, 0xdf⟩, [anyTrail]⟩ [_, _] (by decide) ?_
    simp only [anyTrail, List.forall₂_cons, List.Forall₂.nil, UInt8.reduceToNat, and_true]
    omega
  · rcases (by omega : n < 0x1000 ∨ (0x1000 ≤ n ∧ n < 0xd000) ∨ (0xd000 ≤ n ∧ n < 0xd800) ∨
      (0xe000 ≤ n ∧ n < 0x10000)) with h | h | h | h
    · refine isSequence_of_row ⟨⟨0xe0, 0xe0⟩, [⟨0xa0, 0xbf⟩, anyTrail]⟩ [_, _, _] (by decide) ?_
      simp only [anyTrail, List.forall₂_cons, List.Forall₂.nil, UInt8.reduceToNat, and_true]
      omega
    · refine isSequence_of_row ⟨⟨0xe1, 0xec⟩, [anyTrail, anyTrail]⟩ [_, _, _] (by decide) ?_
      simp only [anyTrail, List.forall₂_cons, List.Forall₂.nil, UInt8.reduceToNat, and_true]
      omega
    · refine isSequence_of_row ⟨⟨0xed, 0xed⟩, [⟨0x80, 0x9f⟩, anyTrail]⟩ [_, _, _] (by decide) ?_
      simp only [anyTrail, List.forall₂_cons, List.Forall₂.nil, UInt8.reduceToNat, and_true]
      omega
    · refine isSequence_of_row ⟨⟨0xee, 0xef⟩, [anyTrail, anyTrail]⟩ [_, _, _] (by decide) ?_
      simp only [anyTrail, List.forall₂_cons, List.Forall₂.nil, UInt8.reduceToNat, and_true]
      omega
  · rcases (by omega : n < 0x40000 ∨ (0x40000 ≤ n ∧ n < 0x100000) ∨ 0x100000 ≤ n) with h | h | h
    · refine isSequence_of_row ⟨⟨0xf0, 0xf0⟩, [⟨0x90, 0xbf⟩, anyTrail, anyTrail]⟩
        [_, _, _, _] (by decide) ?_
      simp only [anyTrail, List.forall₂_cons, List.Forall₂.nil, UInt8.reduceToNat, and_true]
      omega
    · refine isSequence_of_row ⟨⟨0xf1, 0xf3⟩, [anyTrail, anyTrail, anyTrail]⟩
        [_, _, _, _] (by decide) ?_
      simp only [anyTrail, List.forall₂_cons, List.Forall₂.nil, UInt8.reduceToNat, and_true]
      omega
    · refine isSequence_of_row ⟨⟨0xf4, 0xf4⟩, [⟨0x80, 0x8f⟩, anyTrail, anyTrail]⟩
        [_, _, _, _] (by decide) ?_
      simp only [anyTrail, List.forall₂_cons, List.Forall₂.nil, UInt8.reduceToNat, and_true]
      omega

/-- **The sequences of the table are the encoded characters.** -/
theorem isSequence_iff {bytes : List UInt8} : IsSequence bytes ↔ ∃ c, encodeChar c = bytes := by
  constructor
  · exact exists_encodeChar_of_isSequence
  · rintro ⟨c, rfl⟩
    exact isSequence_encodeChar c

/-- Sequences of the table, one after the other, are a text. -/
theorem exists_sequences_iff {bytes : List UInt8} :
    (∃ seqs : List (List UInt8), (∀ s ∈ seqs, IsSequence s) ∧ seqs.flatten = bytes) ↔
      ∃ chars, encodeChars chars = bytes := by
  constructor
  · rintro ⟨seqs, hseqs, rfl⟩
    induction seqs with
    | nil => exact ⟨[], rfl⟩
    | cons s seqs ih =>
        rw [List.forall_mem_cons] at hseqs
        obtain ⟨c, rfl⟩ := isSequence_iff.1 hseqs.1
        obtain ⟨chars, hchars⟩ := ih hseqs.2
        exact ⟨c :: chars, by rw [encodeChars_cons, hchars, List.flatten_cons]⟩
  · rintro ⟨chars, rfl⟩
    refine ⟨chars.map encodeChar, List.forall_mem_map.2 fun c _ => isSequence_encodeChar c, ?_⟩
    rw [encodeChars, List.flatMap_def]

/-! ### Encoding numbers -/

/-- The number is a **Unicode scalar value**: a code point that is no surrogate. -/
def IsScalarValue (n : ℤ) : Prop :=
  0 ≤ n ∧ n ≤ 0x10ffff ∧ ¬ (0xd800 ≤ n ∧ n ≤ 0xdfff)

/-- The number of a character, as the encoder takes it. -/
def scalarValue (c : Char) : Int32 :=
  Int32.ofNat c.toNat

theorem toInt_scalarValue (c : Char) : (scalarValue c).toInt = c.toNat :=
  Int32.toInt_ofNat_of_lt (Nat.lt_trans (toNat_lt c) (by decide))

/-- The characters are the scalar values. -/
theorem isScalarValue_iff {n : Int32} : IsScalarValue n.toInt ↔ ∃ c, scalarValue c = n := by
  constructor
  · rintro ⟨hlo, hhi, hsurrogate⟩
    have hvalid : n.toInt.toNat.isValidChar := by
      simp only [Nat.isValidChar]
      omega
    refine ⟨Char.ofNat n.toInt.toNat, ?_⟩
    rw [← Int32.toInt_inj, toInt_scalarValue, toNat_ofNat_of_isValidChar hvalid]
    omega
  · rintro ⟨c, rfl⟩
    have hvalid := isValidChar_toNat c
    simp only [Nat.isValidChar] at hvalid
    rw [toInt_scalarValue, IsScalarValue]
    omega

/-- **A character is encoded by its sequence.** -/
theorem encode_scalarValue (c : Char) : encode (scalarValue c) = .ok (encodeChar c) := by
  obtain ⟨hlo, hhi, hsurrogate⟩ := isScalarValue_iff.2 ⟨c, rfl⟩
  have hnat : (scalarValue c).toUInt32.toNat = c.toNat := by
    have hnonneg : 0 ≤ scalarValue c := Int32.le_iff_toInt_le.2 hlo
    have hclamp := Int32.toInt_eq_toNatClampNeg hnonneg
    rw [toInt_scalarValue] at hclamp
    rw [Int32.toNat_toUInt32_of_le hnonneg]
    exact_mod_cast hclamp.symm
  simp only [encode, Int32.lt_iff_toInt_lt, Int32.le_iff_toInt_le, Int32.reduceToInt]
  rw [if_neg (by omega), if_neg hsurrogate, hnat, encodeChar]

/-- **Any other number is refused**, a surrogate under another code than the rest. -/
theorem exists_encode_eq_error {n : Int32} (h : ¬ IsScalarValue n.toInt) :
    ∃ e, encode n = .error e ∧ e.toError.code =
      if 0xd800 ≤ n.toInt ∧ n.toInt ≤ 0xdfff then .invalidUtf8 else .invalidArgument := by
  simp only [encode, Int32.lt_iff_toInt_lt, Int32.le_iff_toInt_le, Int32.reduceToInt]
  rw [IsScalarValue] at h
  split_ifs with hrange hsurrogate
  · omega
  · exact ⟨_, rfl, rfl⟩
  · exact ⟨_, rfl, rfl⟩
  · omega

/-- What the encoder writes is decoded where it stands, whatever stands around it. -/
theorem decodeAt?_encodeChar (before after : List UInt8) (c : Char) :
    decodeAt? (before ++ encodeChar c ++ after) before.length =
      some (c, before.length + (encodeChar c).length) := by
  rw [decodeAt?, List.append_assoc, List.drop_left, next?_encodeChar_append]

/-! ### Texts as a client sees them -/

/-- The bytes are what the encoder gives for the characters, one after the other. -/
def Encodes (chars : List Char) (bytes : List UInt8) : Prop :=
  ∃ outputs, List.Forall₂ (fun c output => encode (scalarValue c) = .ok output) chars outputs ∧
    outputs.flatten = bytes

theorem encodes_iff {chars : List Char} {bytes : List UInt8} :
    Encodes chars bytes ↔ encodeChars chars = bytes := by
  have houtputs : ∀ outputs, List.Forall₂ (fun c output => encode (scalarValue c) = .ok output)
      chars outputs ↔ chars.map encodeChar = outputs := by
    intro outputs
    simp only [encode_scalarValue, Except.ok.injEq]
    rw [← List.forall₂_map_left_iff (R := Eq), List.forall₂_eq_eq_eq]
  simp only [Encodes, houtputs, exists_eq_left', encodeChars, List.flatMap_def]

/-- **Repeated decoding** from an index on: the characters, and the index where none is decoded. -/
inductive Walk (bytes : List UInt8) : ℕ → List Char → ℕ → Prop
  | stop {index : ℕ} : decodeAt? bytes index = none → Walk bytes index [] index
  | next {index middle final : ℕ} {c : Char} {chars : List Char} :
      decodeAt? bytes index = some (c, middle) → Walk bytes middle chars final →
      Walk bytes index (c :: chars) final

/-- Repeated decoding finds the characters of a text and ends behind it. -/
theorem walk_encodeChars (before : List UInt8) (chars : List Char) :
    Walk (before ++ encodeChars chars) before.length chars
      (before.length + (encodeChars chars).length) := by
  induction chars generalizing before with
  | nil =>
      refine .stop ?_
      rw [decodeAt?, List.drop_left]
      rfl
  | cons c chars ih =>
      have hnext := ih (before ++ encodeChar c)
      rw [List.append_assoc, List.length_append] at hnext
      rw [encodeChars_cons, List.length_append, ← Nat.add_assoc]
      refine .next ?_ hnext
      rw [← List.append_assoc, decodeAt?_encodeChar]

/-- What repeated decoding finds stands between the two indices. -/
theorem Walk.drop_eq {bytes : List UInt8} {index final : ℕ} {chars : List Char}
    (h : Walk bytes index chars final) :
    bytes.drop index = encodeChars chars ++ bytes.drop final := by
  induction h with
  | stop h => rfl
  | next hc h ih =>
      rename_i index middle final c chars
      rw [decodeAt?] at hc
      split at hc
      · next d n hnext =>
        obtain ⟨rfl, rfl⟩ := Prod.mk.inj (Option.some.inj hc)
        obtain ⟨rfl, hbytes⟩ := eq_encodeChar_append_of_next? hnext
        rw [List.drop_drop] at hbytes
        rw [hbytes, ih, encodeChars_cons, List.append_assoc]
      · simp at hc

/-- **Repeated decoding from the start reaches the end exactly on the texts.** -/
theorem walk_iff {bytes : List UInt8} {chars : List Char} :
    Walk bytes 0 chars bytes.length ↔ encodeChars chars = bytes := by
  constructor
  · intro h
    have hdrop := h.drop_eq
    rw [List.drop_zero, List.drop_length, List.append_nil] at hdrop
    exact hdrop.symm
  · rintro rfl
    simpa using walk_encodeChars [] chars

/-- **What the encoder appends** to a buffer: one to four bytes for a scalar value, which are
decoded as its character wherever they stand. For any other number it appends nothing. -/
theorem encodeInto_cases (n : Int32) (buffer : List UInt8) :
    (IsScalarValue n.toInt → ∃ (c : Char) (written : List UInt8),
      encodeInto buffer n = (.ok written.length, buffer ++ written) ∧
      1 ≤ written.length ∧ written.length ≤ 4 ∧ (c.toNat : ℤ) = n.toInt ∧
      ∀ before after, decodeAt? (before ++ written ++ after) before.length =
        some (c, before.length + written.length)) ∧
    (¬ IsScalarValue n.toInt → ∃ e, encodeInto buffer n = (.error e, buffer) ∧ e.toError.code =
      if 0xd800 ≤ n.toInt ∧ n.toInt ≤ 0xdfff then .invalidUtf8 else .invalidArgument) := by
  constructor
  · intro h
    obtain ⟨c, rfl⟩ := isScalarValue_iff.1 h
    obtain ⟨hpos, hfour⟩ := length_encodeChar c
    refine ⟨c, encodeChar c, ?_, hpos, hfour, (toInt_scalarValue c).symm, fun before after => ?_⟩
    · rw [encodeInto, encode_scalarValue]
    · exact decodeAt?_encodeChar before after c
  · intro h
    obtain ⟨e, he, hcode⟩ := exists_encode_eq_error h
    exact ⟨e, by rw [encodeInto, he], hcode⟩

/-- **Checking, decoding and encoding are about the same bytes.**

The checker accepts bytes exactly if they are sequences of the table, one after the other, and
exactly if they are what the encoder gives for some characters. Those characters are the only ones,
and they are what repeated decoding finds on its way from the start of the bytes to their end.

The encoder accepts the scalar values and no other numbers. It appends a sequence from which the
decoder gets the character back, whatever stands around it, or it appends nothing. -/
theorem isValid_iff_sequences_iff_encodes (bytes : List UInt8) :
    (isValid bytes = true ↔
      ∃ seqs : List (List UInt8), (∀ s ∈ seqs, IsSequence s) ∧ seqs.flatten = bytes) ∧
    (isValid bytes = true ↔ ∃ chars, Encodes chars bytes) ∧
    (∀ chars, Encodes chars bytes ↔ Walk bytes 0 chars bytes.length) ∧
    (∀ chars chars', Encodes chars bytes → Encodes chars' bytes → chars = chars') ∧
    ∀ (n : Int32) (buffer : List UInt8),
      (IsScalarValue n.toInt → ∃ (c : Char) (written : List UInt8),
        encodeInto buffer n = (.ok written.length, buffer ++ written) ∧
        1 ≤ written.length ∧ written.length ≤ 4 ∧ (c.toNat : ℤ) = n.toInt ∧
        ∀ before after, decodeAt? (before ++ written ++ after) before.length =
          some (c, before.length + written.length)) ∧
      (¬ IsScalarValue n.toInt → ∃ e, encodeInto buffer n = (.error e, buffer) ∧ e.toError.code =
        if 0xd800 ≤ n.toInt ∧ n.toInt ≤ 0xdfff then .invalidUtf8 else .invalidArgument) := by
  simp only [encodes_iff]
  refine ⟨isValid_iff.trans exists_sequences_iff.symm, isValid_iff, fun chars => walk_iff.symm,
    fun chars chars' h h' => encodeChars_injective (h.trans h'.symm), encodeInto_cases⟩

/-- The two bytes `c3 a9` are the letter é, and the encoder writes them behind another byte. -/
theorem isValid_iff_sequences_iff_encodes_letter :
    Walk [0xc3, 0xa9] 0 ['é'] 2 ∧ encodeInto [0x20] 0xe9 = (.ok 2, [0x20, 0xc3, 0xa9]) ∧
      isValid [0xc3, 0xa9] = true := by
  have hencodes : Encodes ['é'] [0xc3, 0xa9] := encodes_iff.2 rfl
  obtain ⟨-, hvalid, hwalk, -⟩ := isValid_iff_sequences_iff_encodes [0xc3, 0xa9]
  exact ⟨(hwalk _).1 hencodes, rfl, hvalid.2 ⟨_, hencodes⟩⟩

end StrictJson.Utf8
