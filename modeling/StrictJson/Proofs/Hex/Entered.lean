import StrictJson.Hex.Bytes
import StrictJson.Proofs.Syntax.StringText
import StrictJson.Text.Blank

/-!
# Hexadecimal as It Is Entered

Bytes are shown with two digits each in lower case. Whoever enters them may write the letters in
either case and put white space wherever they like, also between the two digits of a byte: the bytes
are read all the same.

## Main definitions

* `Hex.IsWhiteSpace`: the characters that may stand between digits.
* `Hex.Enters`: a text that has some digits, and white space besides.

## Main results

* `Hex.decode_of_enters`: the bytes of the digits are read from the text without its white space.
-/

namespace StrictJson.Hex

/-- **White space**: the characters with the property White_Space of Unicode, one by one. -/
def IsWhiteSpace (c : Char) : Prop :=
  c.toNat ∈ [0x9, 0xa, 0xb, 0xc, 0xd, 0x20, 0x85, 0xa0, 0x1680, 0x2000, 0x2001, 0x2002, 0x2003,
    0x2004, 0x2005, 0x2006, 0x2007, 0x2008, 0x2009, 0x200a, 0x2028, 0x2029, 0x202f, 0x205f, 0x3000]

instance (c : Char) : Decidable (IsWhiteSpace c) :=
  inferInstanceAs (Decidable (c.toNat ∈ _))

/-- A text **enters** a row of digits: it has them in their order, the letters in either case, and
white space at any place. -/
inductive Enters : List Char → List Char → Prop where
  | nil : Enters [] []
  | digit {d c : Char} {digits text : List Char} (h : c = d ∨ c = d.toUpper)
      (rest : Enters digits text) : Enters (d :: digits) (c :: text)
  | blank {c : Char} {digits text : List Char} (h : IsWhiteSpace c)
      (rest : Enters digits text) : Enters digits (c :: text)

/-- White space is taken for blank, and nothing else is. -/
theorem isBlank_iff {c : Char} : Text.isBlank c = true ↔ IsWhiteSpace c := by
  simp only [Text.isBlank, IsWhiteSpace, Bool.or_eq_true, Bool.and_eq_true, decide_eq_true_eq,
    beq_iff_eq, List.mem_cons, List.not_mem_nil, or_false]
  omega

/-! ### Digits -/

/-- A **digit as it is entered**: one of a number below sixteen, in either case. -/
def IsEntered (n : ℕ) (c : Char) : Prop :=
  n < 16 ∧ (c = n.digitChar ∨ c = n.digitChar.toUpper)

/-- An entered digit is an ASCII character. -/
theorem IsEntered.isAscii {n : ℕ} {c : Char} (h : IsEntered n c) : c.toNat < 0x80 := by
  obtain ⟨hlt, rfl | rfl⟩ := h <;> interval_cases n <;> decide

/-- An entered digit is not taken for a blank. -/
theorem IsEntered.isBlank {n : ℕ} {c : Char} (h : IsEntered n c) : Text.isBlank c = false := by
  obtain ⟨hlt, rfl | rfl⟩ := h <;> interval_cases n <;> rfl

/-- An entered digit has the value of the digit. -/
theorem IsEntered.digitValue? {n : ℕ} {c : Char} (h : IsEntered n c) :
    digitValue? (Syntax.asciiByte c) = some n := by
  obtain ⟨hlt, rfl | rfl⟩ := h <;> interval_cases n <;> rfl

/-! ### Texts without blanks -/

/-- Without the blanks there is one character for each digit. -/
theorem Enters.forall₂_filter {values : List ℕ} {text : List Char}
    (h : Enters (values.map Nat.digitChar) text) (hvalues : ∀ n ∈ values, n < 16) :
    List.Forall₂ IsEntered values (text.filter fun c => !Text.isBlank c) := by
  generalize hdigits : values.map Nat.digitChar = digits at h
  induction h generalizing values with
  | nil =>
      rw [List.map_eq_nil_iff.1 hdigits]
      exact .nil
  | @digit d c digits text hc _ ih =>
      obtain ⟨n, rest, rfl, rfl, hrest⟩ := List.map_eq_cons_iff.1 hdigits
      obtain ⟨hn, hothers⟩ := List.forall_mem_cons.1 hvalues
      have hentered : IsEntered n c := ⟨hn, hc⟩
      rw [List.filter_cons_of_pos (by rw [hentered.isBlank, Bool.not_false])]
      exact .cons hentered (ih hothers hrest)
  | blank hblank _ ih =>
      rw [List.filter_cons_of_neg (by simp [isBlank_iff.2 hblank])]
      exact ih hvalues hdigits

/-- The values of the two digits of each byte. -/
def nibbles (bytes : List UInt8) : List ℕ :=
  bytes.flatMap fun b => [b.toNat / 16, b.toNat % 16]

theorem nibbles_cons (b : UInt8) (bytes : List UInt8) :
    nibbles (b :: bytes) = b.toNat / 16 :: b.toNat % 16 :: nibbles bytes :=
  List.flatMap_cons

theorem encode_eq_map (bytes : List UInt8) : encode bytes = (nibbles bytes).map Nat.digitChar := by
  rw [encode, nibbles, List.map_flatMap]
  rfl

theorem nibble_lt {bytes : List UInt8} {n : ℕ} (h : n ∈ nibbles bytes) : n < 16 := by
  obtain ⟨b, -, hn⟩ := List.mem_flatMap.1 h
  have hb := b.toNat_lt
  rcases List.mem_pair.1 hn with rfl | rfl <;> omega

/-- Entered digits take a byte each. -/
theorem encodeChars_entered {n : ℕ} {c : Char} (h : IsEntered n c) (chars : List Char) :
    Utf8.encodeChars (c :: chars) = Syntax.asciiByte c :: Utf8.encodeChars chars := by
  rw [Utf8.encodeChars, List.flatMap_cons, Utf8.encodeChar_of_lt h.isAscii]
  rfl

/-- **Pairs of entered digits are the bytes**, and there is an even number of digits. -/
theorem decodePairs_entered {bytes : List UInt8} {chars : List Char}
    (h : List.Forall₂ IsEntered (nibbles bytes) chars) (position : ℕ) :
    decodePairs position (Utf8.encodeChars chars) = .ok bytes ∧
      (Utf8.encodeChars chars).length % 2 = 0 := by
  induction bytes generalizing chars position with
  | nil =>
      obtain rfl := List.forall₂_nil_left_iff.1 h
      exact ⟨rfl, rfl⟩
  | cons b bytes ih =>
      rw [nibbles_cons, List.forall₂_cons_left_iff] at h
      obtain ⟨high, _, hhigh, htail, rfl⟩ := h
      obtain ⟨low, rest, hlow, hothers, rfl⟩ := List.forall₂_cons_left_iff.1 htail
      obtain ⟨hrest, heven⟩ := ih hothers (position + 2)
      have hbyte : 16 * (b.toNat / 16) + b.toNat % 16 = b.toNat := by omega
      rw [encodeChars_entered hhigh, encodeChars_entered hlow]
      refine ⟨?_, ?_⟩
      · simp only [decodePairs, hhigh.digitValue?, hlow.digitValue?, hrest, hbyte,
          UInt8.ofNat_toNat]
      · rw [List.length_cons, List.length_cons]
        omega

/-- **Bytes are read as they were entered**, once the blanks are taken out. -/
theorem decode_of_enters {bytes : List UInt8} {text : List Char} (h : Enters (encode bytes) text) :
    decode (Utf8.encodeChars (text.filter fun c => !Text.isBlank c)) = .ok bytes := by
  rw [encode_eq_map] at h
  obtain ⟨hpairs, heven⟩ := decodePairs_entered (h.forall₂_filter fun _ => nibble_lt) 0
  rw [decode, if_neg (by omega), hpairs]

/-- Digits that are shown can be entered as they are, with white space behind them. -/
theorem enters_encode (bytes : List UInt8) (rest : List Char)
    (hrest : ∀ c ∈ rest, IsWhiteSpace c) : Enters (encode bytes) (encode bytes ++ rest) := by
  induction encode bytes with
  | nil =>
      rw [List.nil_append]
      induction rest with
      | nil => exact .nil
      | cons c rest ih =>
          obtain ⟨hc, hothers⟩ := List.forall_mem_cons.1 hrest
          exact .blank hc (ih hothers)
  | cons d digits ih => exact .digit (.inl rfl) ih

end StrictJson.Hex
