import StrictJson.Proofs.Syntax.Procedure
import StrictJson.Proofs.Syntax.Spelling
import StrictJson.Proofs.Utf8.Boundary

/-!
# Strings by Descent

The procedures for strings read what the readers of strings over cursors return. There a character
is handed on as soon as its element has been read; here its bytes are written to a buffer, and the
characters are taken from the buffer when the string has been read to its end. The two come to the
same because the buffer holds whole characters after every element.

## Main results

* `reads_numericEscape`: escapes of four digits are code points that can be encoded.
* `reads_element`: an element adds the bytes of its character to the buffer.
* `reads_string`: a string is read as it is over cursors.
-/

namespace StrictJson.Syntax.Descent

variable {o : Options} {input : List UInt8} {calls : List (ℕ × ℕ)} {c : Cursor} {d : ℕ}

/-! ### Escapes -/

/-- Four digits are read as they are over cursors. -/
theorem reads_unit : Reads o input calls (readUnit input) c d d
    ((Syntax.readUnit c).map fun unit => (unit, c.advance 4)) := by
  refine .of_isIn fun hc => reads_here.followed ?_
  have hlen := hc.length_eq
  rw [hc.drop_eq, Syntax.readUnit, List.length_take]
  by_cases hfour : 4 ≤ c.rest.length
  · rw [if_pos (by omega), if_neg (by omega)]
    cases hexValue 0 (c.rest.take 4) with
    | ok unit => exact (reads_advance hfour).followed (reads_pure unit)
    | error b => exact reads_refuse
  · rw [if_neg (by omega), if_pos (by omega)]
    exact reads_refuse

/-- The code point of a surrogate pair. -/
theorem toNat_pairChar {high low : ℕ} (hhigh : 0xd800 ≤ high ∧ high ≤ 0xdbff)
    (hlow : 0xdc00 ≤ low ∧ low ≤ 0xdfff) :
    ((pairChar high low).toNat : ℤ) = 0x10000 + ((high : ℤ) - 0xd800) * 0x400 + (low - 0xdc00) := by
  rw [pairChar, Utf8.toNat_ofNat_of_isValidChar (by simp only [Nat.isValidChar]; omega)]
  omega

/-- Where no second escape begins there is no second half of a pair. -/
theorem readLowHalf_of_forall_ne {high : ℕ}
    (h : ∀ tail, (c.advance 6).rest ≠ 0x5c :: 0x75 :: tail) :
    Syntax.readLowHalf high c = .error ⟨.unpairedHigh high, c.position⟩ := by
  rw [Syntax.readLowHalf]
  split
  · exact absurd ‹_› (h _)
  · rfl

/-- The second half of a pair is read as it is over cursors, from behind the first one on. -/
theorem reads_lowHalf {high : ℕ} (hhigh : 0xd800 ≤ high ∧ high ≤ 0xdbff) :
    Reads o input calls (readLowHalf input high c.position) (c.advance 6) d d
      ((Syntax.readLowHalf high c).map fun (char, next) => ((char.toNat : ℤ), next)) := by
  refine reads_here.followed (reads_remaining.followed ?_)
  by_cases hescape : ∃ tail, (c.advance 6).rest = 0x5c :: 0x75 :: tail
  · obtain ⟨tail, hrest⟩ := hescape
    have htwo : (c.advance 6).advance 2 = c.advance 8 := c.advance_advance 6 2
    have hfour : (c.advance 8).advance 4 = c.advance 12 := c.advance_advance 8 4
    have hmark : 2 ≤ (c.advance 6).rest.length := by
      rw [hrest, List.length_cons, List.length_cons]
      omega
    rw [Syntax.readLowHalf, hrest]
    refine (reads_advance hmark).followed ?_
    rw [htwo]
    have hunit : Reads o input calls (readUnit input) (c.advance 8) d d _ := reads_unit
    cases hlow : Syntax.readUnit (c.advance 8) with
    | error e => exact (hlow ▸ hunit).broken
    | ok low =>
        refine (hlow ▸ hunit).followed ?_
        rw [hfour]
        dsimp only
        by_cases h : 0xdc00 ≤ low ∧ low ≤ 0xdfff
        · simp only [if_pos h, ← toNat_pairChar hhigh h, Except.map]
          exact reads_pure _
        · rw [if_neg h, if_neg h]
          exact reads_refuse
  · have hne : ∀ tail, (c.advance 6).rest ≠ 0x5c :: 0x75 :: tail := not_exists.1 hescape
    rw [readLowHalf_of_forall_ne hne]
    split
    · exact absurd ‹_› (hne _)
    · exact reads_refuse

/-- The code point of an escape is that of its four digits, unless they are half of a pair. -/
theorem reads_codePoint : Reads o input calls (readCodePoint input c.position) (c.advance 2) d d
    (match Syntax.readUnit (c.advance 2) with
      | .error e => .error e
      | .ok unit =>
        if 0xd800 ≤ unit ∧ unit ≤ 0xdbff then
          (Syntax.readLowHalf unit c).map fun (char, next) => ((char.toNat : ℤ), next)
        else if 0xdc00 ≤ unit ∧ unit ≤ 0xdfff then .error ⟨.unpairedLow unit, c.position⟩
        else .ok (unit, c.advance 6)) := by
  have hunit : Reads o input calls (readUnit input) (c.advance 2) d d _ := reads_unit
  have hsix : (c.advance 2).advance 4 = c.advance 6 := c.advance_advance 2 4
  rw [hsix] at hunit
  cases hread : Syntax.readUnit (c.advance 2) with
  | error e => exact (hread ▸ hunit).broken
  | ok unit =>
      refine (hread ▸ hunit).followed ?_
      dsimp only
      split_ifs with hhigh hlow
      · exact reads_lowHalf hhigh
      · exact reads_refuse
      · exact reads_pure _

/-- No surrogate pair has the code point zero. -/
theorem toNat_ne_zero_of_readLowHalf {high : ℕ} (hhigh : 0xd800 ≤ high ∧ high ≤ 0xdbff)
    {char : Char} {next : Cursor} (h : Syntax.readLowHalf high c = .ok (char, next)) :
    char.toNat ≠ 0 := by
  rw [Syntax.readLowHalf] at h
  split at h
  · split at h
    · simp at h
    · next low _ =>
      split_ifs at h with hlow
      obtain ⟨rfl, -⟩ := Prod.mk.inj (Except.ok.inj h)
      have hvalue := toNat_pairChar hhigh hlow
      omega
  · simp at h

/-- **A character can be written** wherever an escape spells it. -/
theorem reads_writeCodePoint (buffer : List UInt8) (char : Char) (offset : ℕ) :
    Reads o input calls (writeCodePoint buffer char.toNat offset) c d d
      (.ok (buffer ++ Utf8.encodeChar char, c)) := by
  have hscalar : Utf8.IsScalarValue (char.toNat : ℤ) :=
    Utf8.toInt_scalarValue char ▸ Utf8.isScalarValue_iff.2 ⟨char, rfl⟩
  refine (reads_note (.assembled char.toNat) hscalar rfl rfl).followed ?_
  have hencode : Utf8.encodeInto buffer (Int32.ofInt char.toNat) =
      (.ok (Utf8.encodeChar char).length, buffer ++ Utf8.encodeChar char) := by
    have hnumber : Int32.ofInt char.toNat = Utf8.scalarValue char := rfl
    rw [hnumber, Utf8.encodeInto, Utf8.encode_scalarValue]
  rw [hencode]
  exact reads_pure _

/-- **An escape of four digits**, or a pair of them, is read as it is over cursors. -/
theorem reads_numericEscape (role : Role) (buffer : List UInt8) :
    Reads o input calls (readNumericEscape input o role buffer c.position) (c.advance 2) d d
      ((Syntax.readNumericEscape o role c).map fun (char, next) =>
        (buffer ++ Utf8.encodeChar char, next)) := by
  have hcode : Reads o input calls (readCodePoint input c.position) (c.advance 2) d d _ :=
    reads_codePoint
  rw [Syntax.readNumericEscape]
  cases hread : Syntax.readUnit (c.advance 2) with
  | error e => exact (hread ▸ hcode).broken
  | ok unit =>
      obtain ⟨digits, hdigits, -⟩ := spellsUnit_of_readUnit hread
      have hlt := hdigits.lt
      rw [hread] at hcode
      dsimp only at hcode ⊢
      split_ifs at hcode ⊢ with hhigh hlow hnul
      · cases hread' : Syntax.readLowHalf unit c with
        | error e => exact (hread' ▸ hcode).broken
        | ok found =>
            refine (hread' ▸ hcode).followed ?_
            rw [if_neg fun hnul => toNat_ne_zero_of_readLowHalf hhigh hread' (by omega)]
            exact reads_writeCodePoint buffer found.1 c.position
      · exact hcode.broken
      · refine hcode.followed ?_
        rw [if_pos (by simpa using hnul)]
        exact reads_refuse
      · have hchar : (unit : ℤ) = (Char.ofNat unit).toNat := by
          rw [toNat_ofNat_of_unit hlt (by omega)]
        refine hcode.followed ?_
        rw [if_neg (by simpa using hnul), hchar]
        exact reads_writeCodePoint buffer (Char.ofNat unit) c.position

/-- The characters of one-letter escapes are ASCII. -/
theorem encodeChar_of_shortEscape? {letter : UInt8} {char : Char}
    (h : shortEscape? letter = some char) :
    Utf8.encodeChar char = [UInt8.ofNat char.toNat] := by
  refine Utf8.encodeChar_of_lt ?_
  rw [shortEscape?] at h
  split_ifs at h <;> (obtain rfl := Option.some.inj h; decide)

/-- **An escape** is read as it is over cursors, from behind its backslash on. -/
theorem reads_escape (context : StringContext) (buffer : List UInt8) :
    Reads o input calls (readEscape input o context buffer) (c.advance 1) d d
      ((Syntax.readEscape o context c).map fun (char, next) =>
        (buffer ++ Utf8.encodeChar char, next)) := by
  refine reads_here.followed ((reads_minus (Nat.le_add_left 1 _)).followed
    (reads_peek.followed ?_))
  have htwo : (c.advance 1).advance 1 = c.advance 2 := c.advance_advance 1 1
  rw [Syntax.readEscape, Nat.add_sub_cancel]
  cases hletter : (c.advance 1).peek? with
  | none => exact reads_refuse
  | some letter =>
      refine (reads_advance_one hletter).followed ?_
      rw [htwo]
      dsimp only
      cases hshort : shortEscape? letter with
      | some char =>
          dsimp only
          rw [← encodeChar_of_shortEscape? hshort]
          exact reads_pure _
      | none =>
          dsimp only
          split_ifs with hu
          · exact reads_numericEscape context.role buffer
          · exact reads_refuse

/-! ### Elements -/

/-- A character of several bytes is copied as it is decoded. -/
theorem reads_copyCharacter (buffer : List UInt8) :
    Reads o input calls (copyCharacter input buffer) c d d
      (match Utf8.next? c.rest with
        | some (char, n) => .ok (buffer ++ Utf8.encodeChar char, c.advance n)
        | none => .error ⟨.malformedText, c.position⟩) := by
  refine .of_isIn fun hc => reads_here.followed ?_
  rw [Utf8.decodeAt?, hc.drop_eq]
  cases hnext : Utf8.next? c.rest with
  | none => exact reads_refuse
  | some found =>
      obtain ⟨char, n⟩ := found
      obtain ⟨-, hn⟩ := Utf8.next?_length hnext
      obtain ⟨hlen, hrest⟩ := Utf8.eq_encodeChar_append_of_next? hnext
      have hadvance := hc.advance hn
      refine (reads_moveTo hadvance).followed
        ((reads_slice (Nat.le_add_right _ _) hadvance.le).followed ?_)
      have htake : (input.drop c.position).take (c.position + n - c.position) =
          Utf8.encodeChar char := by
        rw [hc.drop_eq, hrest, Nat.add_sub_cancel_left, hlen, List.take_left]
      rw [htake]
      exact reads_pure _

/-- A byte below 0x80 is a character. -/
theorem next?_cons_of_lt {b : UInt8} (hb : b < 0x80) (rest : List UInt8) :
    ∃ char, Utf8.next? (b :: rest) = some (char, 1) ∧ Utf8.encodeChar char = [b] := by
  have hlt : b.toNat < 0x80 := UInt8.lt_iff_toNat_lt.1 hb
  have hchar : (Char.ofNat b.toNat).toNat = b.toNat :=
    Utf8.toNat_ofNat_of_isValidChar (.inl (by omega))
  have hencode : Utf8.encodeChar (Char.ofNat b.toNat) = [b] := by
    rw [Utf8.encodeChar_of_lt (by omega), hchar, UInt8.ofNat_toNat]
  have hnext := Utf8.next?_encodeChar_append (Char.ofNat b.toNat) rest
  rw [hencode] at hnext
  exact ⟨_, hnext, hencode⟩

/-- **An element** is read as it is over cursors. It adds its character to the buffer. -/
theorem reads_element (context : StringContext) {buffer : List UInt8}
    (hbuffer : Utf8.isValid buffer = true) :
    Reads o input calls (readElement input o context buffer) c d d
      ((Syntax.readElement o context c).map fun (element, next) =>
        (match element with
          | some char => .inl (buffer ++ Utf8.encodeChar char)
          | none => .inr buffer, next)) := by
  refine (reads_note (.collected buffer) hbuffer rfl rfl).followed (reads_peek.followed ?_)
  rw [Syntax.readElement]
  cases hb : c.peek? with
  | none => exact reads_refuse
  | some b =>
      dsimp only
      split_ifs with hquote hbackslash hcontrol hascii
      · exact (reads_advance_one hb).followed (reads_pure _)
      · refine (reads_advance_one hb).followed ?_
        have hescape : Reads o input calls (readEscape input o context buffer) (c.advance 1) d d
            _ := reads_escape context buffer
        cases hread : Syntax.readEscape o context c with
        | error e => exact (hread ▸ hescape).broken
        | ok result => exact (hread ▸ hescape).followed (reads_pure _)
      · exact reads_here.followed reads_refuse
      · obtain ⟨char, hnext, hencode⟩ := next?_cons_of_lt hascii (c.advance 1).rest
        rw [Cursor.rest_eq_cons_of_peek? hb, hnext, ← hencode]
        exact (reads_advance_one hb).followed (reads_pure _)
      · have hcopy : Reads o input calls (copyCharacter input buffer) c d d _ :=
          reads_copyCharacter buffer
        cases hnext : Utf8.next? c.rest with
        | none => exact (hnext ▸ hcopy).broken
        | some found => exact (hnext ▸ hcopy).followed (reads_pure _)

/-! ### Whole strings -/

/-- **The elements of a string** are read as they are over cursors. -/
theorem reads_elements (context : StringContext) {buffer : List UInt8}
    (hbuffer : Utf8.isValid buffer = true) :
    Reads o input calls (loop input (readElement input o context) buffer) c d d
      ((readElements o context c).map fun (chars, next) =>
        (buffer ++ Utf8.encodeChars chars, next)) := by
  refine (yields_loop (fun buffer _ => Utf8.isValid buffer = true)
    (fun buffer c result => result = (readElements o context c).map fun (chars, next) =>
      (buffer ++ Utf8.encodeChars chars, next))
    (fun buffer c hbuffer => (reads_element context hbuffer).yields ?_) hbuffer).reads
  have heq := readElements_eq o context c
  cases hread : Syntax.readElement o context c with
  | error e =>
      rw [hread] at heq
      exact .error (heq ▸ rfl)
  | ok found =>
      rw [hread] at heq
      obtain ⟨_ | char, next⟩ := found
      · refine .done ?_
        rw [heq]
        simp [Except.map]
      · refine .again (Utf8.isValid_append_of hbuffer (Utf8.isValid_iff.2 ⟨[char], by simp⟩))
          (readElement_progress hread) ?_
        rintro _ rfl
        rw [heq]
        cases hrest : readElements o context next <;> simp [hrest, Except.map]

/-- **A string is read as it is over cursors**, from its opening quotation mark on. -/
theorem reads_string (role : Role) {b : UInt8} (hb : c.peek? = some b) :
    Reads o input calls (readString input o role) c d d (Syntax.readString o role c) := by
  refine reads_here.followed ((reads_advance_one hb).followed ?_)
  have hloop : Reads o input calls
      (loop input (readElement input o ⟨role, c.position⟩) []) (c.advance 1) d d _ :=
    reads_elements ⟨role, c.position⟩ Utf8.isValid_nil
  rw [Syntax.readString]
  cases hread : readElements o ⟨role, c.position⟩ (c.advance 1) with
  | error e => exact (hread ▸ hloop).broken
  | ok found =>
      obtain ⟨chars, next⟩ := found
      refine (hread ▸ hloop).followed ?_
      have hdecode : Utf8.decode? ([] ++ Utf8.encodeChars chars) = some chars :=
        Utf8.decode?_eq_some_iff.2 rfl
      rw [hdecode]
      exact reads_pure _

end StrictJson.Syntax.Descent
