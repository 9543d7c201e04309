import StrictJson.Proofs.Syntax.Spelling

/-!
# Reading a String

What becomes of any bytes behind an opening quotation mark, where the character of number zero is
allowed. They begin with a row of spellings, and what comes next ends the string in one way or the
other: it is the closing quotation mark, or it is **misspelled**, which is to say neither that nor
another spelling. So a string is read exactly if it is spelled, and what is wrong with one that is
not read is settled by the bytes from the first misspelled one on, whatever stands before them.

The two codes for a misspelled character divide it by what is at fault: the notation, or the
character that it would stand for.

## Main definitions

* `Misspelled`: bytes that begin neither with a spelling nor with the closing quotation mark.

## Main results

* `exists_spelledText`: any bytes are spellings up to the closing mark or a misspelled character.
* `readString_exact`: what is read, for all bytes.
-/

namespace StrictJson.Syntax

/-! ### Misspelled characters -/

/-- The bytes **lack four digits**: they end before, or one of the four is none. -/
def LacksUnit (bytes : List UInt8) : Prop :=
  ∀ digits n rest, SpellsUnit digits n → bytes ≠ digits ++ rest

/-- The bytes are **misspelled**: they begin neither with a spelling nor with the closing quotation
mark. With them goes the code under which that is reported. -/
inductive Misspelled : List UInt8 → ErrorCode → Prop
  /-- Nothing follows. -/
  | endOfInput : Misspelled [] .invalidSyntax
  /-- A control stands as it is. -/
  | control {b : UInt8} (rest : List UInt8) : b < 0x20 → Misspelled (b :: rest) .invalidSyntax
  /-- The bytes begin with no character in UTF-8. -/
  | malformed {bytes : List UInt8} : bytes ≠ [] →
      (∀ c rest, bytes ≠ Utf8.encodeChar c ++ rest) → Misspelled bytes .invalidUtf8
  /-- Nothing follows a backslash. -/
  | backslash : Misspelled [0x5c] .invalidSyntax
  /-- No escape has this letter. -/
  | letter {b : UInt8} (rest : List UInt8) : (∀ c, ¬ ShortEscape b c) → b ≠ 0x75 →
      Misspelled (0x5c :: b :: rest) .invalidSyntax
  /-- An escape lacks its four digits. -/
  | unit {rest : List UInt8} : LacksUnit rest → Misspelled (0x5c :: 0x75 :: rest) .invalidSyntax
  /-- The second half of a surrogate pair comes first. -/
  | low {digits : List UInt8} {n : ℕ} (rest : List UInt8) : SpellsUnit digits n → 0xdc00 ≤ n →
      n ≤ 0xdfff → Misspelled (0x5c :: 0x75 :: (digits ++ rest)) .invalidUtf8
  /-- No escape follows the first half of a surrogate pair. -/
  | unpaired {digits : List UInt8} {n : ℕ} {rest : List UInt8} : SpellsUnit digits n →
      0xd800 ≤ n → n ≤ 0xdbff → (∀ more, rest ≠ 0x5c :: 0x75 :: more) →
      Misspelled (0x5c :: 0x75 :: (digits ++ rest)) .invalidUtf8
  /-- The escape that follows the first half lacks its four digits. -/
  | secondUnit {digits : List UInt8} {n : ℕ} {rest : List UInt8} : SpellsUnit digits n →
      0xd800 ≤ n → n ≤ 0xdbff → LacksUnit rest →
      Misspelled (0x5c :: 0x75 :: (digits ++ 0x5c :: 0x75 :: rest)) .invalidSyntax
  /-- The escape that follows the first half is no second half. -/
  | mismatched {digits digits' : List UInt8} {n n' : ℕ} (rest : List UInt8) :
      SpellsUnit digits n → 0xd800 ≤ n → n ≤ 0xdbff → SpellsUnit digits' n' →
      ¬ (0xdc00 ≤ n' ∧ n' ≤ 0xdfff) →
      Misspelled (0x5c :: 0x75 :: (digits ++ 0x5c :: 0x75 :: (digits' ++ rest))) .invalidUtf8

/-! ### One character -/

/-- Behind a backslash and `u` stands an escape or a pair of them, or they are misspelled. -/
theorem spelling_or_misspelled_of_unit (bytes : List UInt8) :
    (∃ (s : Spelling) (rest : List UInt8), 0x5c :: 0x75 :: bytes = s.text ++ rest) ∨
      ∃ code, Misspelled (0x5c :: 0x75 :: bytes) code := by
  by_cases hunit : LacksUnit bytes
  · exact .inr ⟨_, .unit hunit⟩
  simp only [LacksUnit, not_forall, not_not] at hunit
  obtain ⟨digits, n, rest, hdigits, rfl⟩ := hunit
  by_cases hhigh : 0xd800 ≤ n ∧ n ≤ 0xdbff
  · by_cases hnext : ∃ more, rest = 0x5c :: 0x75 :: more
    · obtain ⟨more, rfl⟩ := hnext
      by_cases hunit' : LacksUnit more
      · exact .inr ⟨_, .secondUnit hdigits hhigh.1 hhigh.2 hunit'⟩
      simp only [LacksUnit, not_forall, not_not] at hunit'
      obtain ⟨digits', n', rest', hdigits', rfl⟩ := hunit'
      by_cases hlow : 0xdc00 ≤ n' ∧ n' ≤ 0xdfff
      · have hpair := Spells.pair hdigits hhigh.1 hhigh.2 hdigits' hlow.1 hlow.2
        exact .inl ⟨⟨_, _, hpair⟩, rest', by simp only [List.cons_append, List.append_assoc]⟩
      · exact .inr ⟨_, .mismatched rest' hdigits hhigh.1 hhigh.2 hdigits' hlow⟩
    · exact .inr ⟨_, .unpaired hdigits hhigh.1 hhigh.2 (not_exists.1 hnext)⟩
  · by_cases hlow : 0xdc00 ≤ n ∧ n ≤ 0xdfff
    · exact .inr ⟨_, .low rest hdigits hlow.1 hlow.2⟩
    · exact .inl ⟨⟨_, _, .unit hdigits (by omega)⟩, rest, rfl⟩

/-- **Any bytes begin with the closing mark or with a spelling, or they are misspelled.** -/
theorem mark_or_spelling_or_misspelled (bytes : List UInt8) :
    (∃ rest, bytes = 0x22 :: rest) ∨
      (∃ (s : Spelling) (rest : List UInt8), bytes = s.text ++ rest) ∨
      ∃ code, Misspelled bytes code := by
  cases bytes with
  | nil => exact .inr (.inr ⟨_, .endOfInput⟩)
  | cons b rest =>
      by_cases hmark : b = 0x22
      · exact .inl ⟨rest, by rw [hmark]⟩
      right
      by_cases hback : b = 0x5c
      · subst hback
        cases rest with
        | nil => exact .inr ⟨_, .backslash⟩
        | cons letter rest =>
            by_cases hshort : ∃ c, ShortEscape letter c
            · obtain ⟨c, hc⟩ := hshort
              exact .inl ⟨⟨_, c, .short hc⟩, rest, rfl⟩
            · by_cases hu : letter = 0x75
              · exact hu ▸ spelling_or_misspelled_of_unit rest
              · exact .inr ⟨_, .letter rest (not_exists.1 hshort) hu⟩
      · by_cases hcontrol : b < 0x20
        · exact .inr ⟨_, .control rest hcontrol⟩
        · by_cases hplain : ∃ c more, b :: rest = Utf8.encodeChar c ++ more
          · obtain ⟨c, more, hc⟩ := hplain
            obtain ⟨d, tail, htail⟩ := List.exists_cons_of_ne_nil (Utf8.encodeChar_ne_nil c)
            have hhead : b = d := by
              rw [htail] at hc
              exact (List.cons.inj hc).1
            obtain ⟨h20, h22, h5c⟩ := plain_of_head htail (hhead ▸ hmark) (hhead ▸ hback)
              (hhead ▸ hcontrol)
            refine .inl ⟨⟨_, c, .plain h20 h22 h5c⟩, more, ?_⟩
            rw [hc, Utf8.encodeChar_eq_utf8EncodeChar]
          · simp only [not_exists] at hplain
            exact .inr ⟨_, .malformed (List.cons_ne_nil _ _) hplain⟩

variable {o : Options} {context : StringContext} {p : ℕ}

/-- Four digits that are lacking are not read. -/
theorem exists_readUnit_eq_error {bytes : List UInt8} (h : LacksUnit bytes) :
    ∃ f, readUnit ⟨p, bytes⟩ = .error f ∧ f.fault.code = .invalidSyntax := by
  cases hread : readUnit ⟨p, bytes⟩ with
  | ok n =>
      obtain ⟨digits, hdigits, hrest⟩ := spellsUnit_of_readUnit hread
      exact absurd hrest (h digits n _ hdigits)
  | error f =>
      refine ⟨f, rfl, ?_⟩
      simp only [readUnit] at hread
      split_ifs at hread
      · obtain rfl := Except.error.inj hread
        rfl
      · split at hread
        · simp at hread
        · obtain rfl := Except.error.inj hread
          rfl

/-- The cursor moves past an escape of four digits. -/
theorem advance_unit {digits : List UInt8} {n : ℕ} (h : SpellsUnit digits n) (rest : List UInt8) :
    (⟨p, 0x5c :: 0x75 :: (digits ++ rest)⟩ : Cursor).advance 6 = ⟨p + 6, rest⟩ := by
  have hadvance := Cursor.advance_append p (0x5c :: 0x75 :: digits) rest
  simpa only [List.length_cons, h.length_eq, List.cons_append] using hadvance

/-- After the first half of a pair the second half is read. -/
theorem readNumericEscape_high {role : Role} {digits rest : List UInt8} {n : ℕ}
    (h : SpellsUnit digits n) (hlo : 0xd800 ≤ n) (hhi : n ≤ 0xdbff) :
    readNumericEscape o role ⟨p, 0x5c :: 0x75 :: (digits ++ rest)⟩ =
      readLowHalf n ⟨p, 0x5c :: 0x75 :: (digits ++ rest)⟩ := by
  have hread : readUnit ((⟨p, 0x5c :: 0x75 :: (digits ++ rest)⟩ : Cursor).advance 2) = .ok n :=
    readUnit_append h
  rw [readNumericEscape, hread]
  simp only [hlo, hhi, and_self, if_true]

/-- The second half of a pair is read from the escape that follows. -/
theorem readLowHalf_escape {digits rest : List UInt8} {n : ℕ} (h : SpellsUnit digits n) :
    readLowHalf n ⟨p, 0x5c :: 0x75 :: (digits ++ 0x5c :: 0x75 :: rest)⟩ =
      match readUnit ⟨p + 8, rest⟩ with
      | .error e => .error e
      | .ok low =>
        if 0xdc00 ≤ low ∧ low ≤ 0xdfff then .ok (pairChar n low, ⟨p + 12, rest.drop 4⟩)
        else .error ⟨.mismatchedLow n low, p⟩ := by
  have hadvance : ∀ k, (⟨p, 0x5c :: 0x75 :: (digits ++ 0x5c :: 0x75 :: rest)⟩ : Cursor).advance
      (6 + k) = (⟨p + 6, 0x5c :: 0x75 :: rest⟩ : Cursor).advance k := by
    intro k
    rw [← advance_unit h]
    simp only [Cursor.advance, List.drop_drop, Nat.add_assoc]
  rw [readLowHalf, hadvance 0, hadvance 2, hadvance 6]
  rfl

/-- Bytes that begin with no character begin with a high byte, since any other byte would be a
character by itself. -/
theorem le_toNat_of_malformed {b : UInt8} {rest : List UInt8}
    (h : ∀ c more, b :: rest ≠ Utf8.encodeChar c ++ more) : 0x80 ≤ b.toNat := by
  by_contra hlt
  have hchar : (Char.ofNat b.toNat).toNat = b.toNat :=
    Utf8.toNat_ofNat_of_isValidChar (.inl (by omega))
  refine h (Char.ofNat b.toNat) rest ?_
  rw [Utf8.encodeChar_of_lt (by omega), hchar, UInt8.ofNat_toNat]
  rfl

/-- Bytes that begin with no character are not read. -/
theorem readElement_malformed {b : UInt8} {rest : List UInt8}
    (h : ∀ c more, b :: rest ≠ Utf8.encodeChar c ++ more) :
    readElement o context ⟨p, b :: rest⟩ = .error ⟨.malformedText, p⟩ := by
  have hhigh := le_toNat_of_malformed h
  have hmark : b ≠ 0x22 := by rintro rfl; exact absurd hhigh (by decide)
  have hback : b ≠ 0x5c := by rintro rfl; exact absurd hhigh (by decide)
  have hcontrol : ¬ b < 0x20 := by
    simp only [UInt8.lt_iff_toNat_lt, UInt8.reduceToNat]
    omega
  have hnext : Utf8.next? (b :: rest) = none := by
    refine Option.eq_none_iff_forall_ne_some.2 fun r hr => ?_
    exact h r.1 _ (Utf8.eq_encodeChar_append_of_next? hr).2
  simp only [readElement, Cursor.peek?_cons, hmark, hback, hcontrol, hnext, if_false]

/-- **What is misspelled is not read**, and it is reported under its code. -/
theorem exists_readElement_eq_error {bytes : List UInt8} {code : ErrorCode}
    (h : Misspelled bytes code) :
    ∃ f, readElement o context ⟨p, bytes⟩ = .error f ∧ f.fault.code = code := by
  -- An escape fails as its four digits or its second half do.
  have hnumeric : ∀ {tail : List UInt8}, (∃ f : Failure,
      readNumericEscape o context.role ⟨p, 0x5c :: 0x75 :: tail⟩ = .error f ∧
        f.fault.code = code) →
      ∃ f, readElement o context ⟨p, 0x5c :: 0x75 :: tail⟩ = .error f ∧ f.fault.code = code := by
    rintro tail ⟨f, hf, hcode⟩
    exact ⟨f, by rw [readElement_numericEscape, hf]; rfl, hcode⟩
  cases h with
  | endOfInput => exact ⟨_, rfl, rfl⟩
  | @control b rest hb =>
      have hmark : b ≠ 0x22 := by rintro rfl; exact absurd hb (by decide)
      have hback : b ≠ 0x5c := by rintro rfl; exact absurd hb (by decide)
      refine ⟨⟨.controlCharacter b, p⟩, ?_, rfl⟩
      simp only [readElement, Cursor.peek?_cons, hmark, hback, hb, if_false, if_true]
  | malformed hne hplain =>
      obtain ⟨b, rest, rfl⟩ := List.exists_cons_of_ne_nil hne
      exact ⟨_, readElement_malformed hplain, rfl⟩
  | backslash => exact ⟨_, rfl, rfl⟩
  | @letter b rest hshort hu =>
      have hnone : shortEscape? b = none := Option.eq_none_iff_forall_ne_some.2 fun c hc =>
        hshort c (shortEscape?_eq_some_iff.1 hc)
      have hmark : (0x5c : UInt8) ≠ 0x22 := by decide
      refine ⟨⟨.unknownEscape b, p⟩, ?_, rfl⟩
      simp only [readElement, Cursor.peek?_cons, hmark, readEscape, Cursor.advance_one_cons, hnone,
        hu, if_false, if_true, Except.map]
  | unit hunit =>
      refine hnumeric ?_
      obtain ⟨f, hf, hcode⟩ := exists_readUnit_eq_error hunit
      refine ⟨f, ?_, hcode⟩
      rw [readNumericEscape, Cursor.advance]
      exact hf ▸ rfl
  | @low digits n rest hdigits hlo hhi =>
      refine hnumeric ⟨⟨.unpairedLow n, p⟩, ?_, rfl⟩
      have hread : readUnit ((⟨p, 0x5c :: 0x75 :: (digits ++ rest)⟩ : Cursor).advance 2) = .ok n :=
        readUnit_append hdigits
      have hhigh : ¬ (0xd800 ≤ n ∧ n ≤ 0xdbff) := by omega
      rw [readNumericEscape, hread]
      simp only [hhigh, hlo, hhi, and_self, if_true, if_false]
  | @unpaired digits n rest hdigits hlo hhi hrest =>
      refine hnumeric ⟨⟨.unpairedHigh n, p⟩, ?_, rfl⟩
      rw [readNumericEscape_high hdigits hlo hhi, readLowHalf, advance_unit hdigits]
      split
      · next more hmore => exact absurd hmore (hrest more)
      · rfl
  | secondUnit hdigits hlo hhi hunit =>
      refine hnumeric ?_
      obtain ⟨f, hf, hcode⟩ := exists_readUnit_eq_error hunit
      exact ⟨f, by rw [readNumericEscape_high hdigits hlo hhi, readLowHalf_escape hdigits, hf],
        hcode⟩
  | @mismatched digits digits' n n' rest hdigits hlo hhi hdigits' hlow =>
      refine hnumeric ⟨⟨.mismatchedLow n n', p⟩, ?_, rfl⟩
      rw [readNumericEscape_high hdigits hlo hhi, readLowHalf_escape hdigits,
        readUnit_append hdigits']
      exact if_neg hlow

/-! ### Whole strings -/

/-- **Any bytes are spellings up to the closing mark or a misspelled character.** -/
theorem exists_spelledText (bytes : List UInt8) :
    ∃ (ss : List Spelling) (tail : List UInt8), bytes = spelledText ss ++ tail ∧
      ((∃ rest, tail = 0x22 :: rest) ∨ ∃ code, Misspelled tail code) := by
  -- Every spelling takes a byte away at least.
  induction hlen : bytes.length using Nat.strongRecOn generalizing bytes with
  | ind k ih =>
      rcases mark_or_spelling_or_misspelled bytes with hmark | ⟨s, rest, rfl⟩ | hbad
      · exact ⟨[], bytes, rfl, .inl hmark⟩
      · have hpos := s.length_pos
        rw [List.length_append] at hlen
        obtain ⟨ss, tail, rfl, htail⟩ := ih rest.length (by omega) rest rfl
        refine ⟨s :: ss, tail, ?_, htail⟩
        rw [spelledText, spelledText, List.flatMap_cons, List.append_assoc]
      · exact ⟨[], bytes, rfl, .inr hbad⟩

/-- Where the character of number zero is allowed, spellings are not refused. -/
theorem refuse_spelledConstructs {α : Type} (ho : o.allowNul = true) (role : Role)
    (ss : List Spelling) (r : Except Failure α) : refuse o (spelledConstructs role p ss) r = r := by
  refine refuse_of_forall fun construct hmem => ?_
  obtain ⟨q, rfl, -⟩ := of_mem_spelledConstructs hmem
  rw [Construct.refusal?, if_pos ho]

/-- A misspelled character behind spellings settles what is reported. -/
theorem exists_readElements_eq_error (ho : o.allowNul = true) {bad : List UInt8}
    {code : ErrorCode} (h : Misspelled bad code) (ss : List Spelling) (p : ℕ) :
    ∃ f, readElements o context ⟨p, spelledText ss ++ bad⟩ = .error f ∧ f.fault.code = code := by
  induction ss generalizing p with
  | nil =>
      obtain ⟨f, hf, hcode⟩ := exists_readElement_eq_error h
      refine ⟨f, ?_, hcode⟩
      rw [spelledText, List.flatMap_nil, List.nil_append, readElements_eq, hf]
  | cons s ss ih =>
      obtain ⟨f, hf, hcode⟩ := ih (p + s.text.length)
      refine ⟨f, ?_, hcode⟩
      rw [spelledText, List.flatMap_cons, List.append_assoc,
        readElements_of_readElement (readElement_append s), ← spelledText, hf, Except.map,
        ← List.append_nil (s.constructs _ _)]
      exact refuse_spelledConstructs ho context.role [s] _

/-- **What is read behind an opening quotation mark**, where the character of number zero is
allowed. A string is read exactly if it is spelled up to a closing mark, and then the cursor stands
past that. Under a code a failure is reported exactly if spellings lead to a misspelled character of
that code. -/
theorem readString_exact (ho : o.allowNul = true) (role : Role) (p : ℕ) (bytes : List UInt8) :
    (∀ s next, readString o role ⟨p, 0x22 :: bytes⟩ = .ok (s, next) ↔
      ∃ ss : List Spelling, spelledString ss = s ∧ bytes = spelledText ss ++ 0x22 :: next.rest ∧
        next.position = p + 1 + (spelledText ss).length + 1) ∧
    ∀ code, (∃ f, readString o role ⟨p, 0x22 :: bytes⟩ = .error f ∧ f.fault.code = code) ↔
      ∃ (ss : List Spelling) (bad : List UInt8), bytes = spelledText ss ++ bad ∧
        Misspelled bad code := by
  have hspelled : ∀ (ss : List Spelling) (rest : List UInt8),
      readString o role ⟨p, 0x22 :: (spelledText ss ++ 0x22 :: rest)⟩ =
        .ok (spelledString ss, ⟨p + 1 + (spelledText ss).length + 1, rest⟩) := by
    intro ss rest
    rw [readString, Cursor.advance_one_cons, readElements_append,
      refuse_spelledConstructs ho]
    rfl
  have hbad : ∀ (ss : List Spelling) {bad : List UInt8} {code : ErrorCode}, Misspelled bad code →
      ∃ f, readString o role ⟨p, 0x22 :: (spelledText ss ++ bad)⟩ = .error f ∧
        f.fault.code = code := by
    intro ss bad code hmisspelled
    obtain ⟨f, hf, hcode⟩ := exists_readElements_eq_error ho hmisspelled ss (p + 1)
    refine ⟨f, ?_, hcode⟩
    rw [readString, Cursor.advance_one_cons, hf]
  refine ⟨fun s next => ⟨fun h => ?_, ?_⟩, fun code => ⟨?_, ?_⟩⟩
  · obtain ⟨ss, rfl, hrest⟩ := exists_of_readString (Cursor.peek?_cons 0x22) h
    have hbytes : bytes = spelledText ss ++ 0x22 :: next.rest := by
      simpa only [quotedText, List.cons_append, List.append_assoc, List.nil_append,
        List.cons.injEq, true_and] using hrest
    refine ⟨ss, rfl, hbytes, ?_⟩
    rw [hbytes, hspelled] at h
    exact (congrArg (fun r => r.2.position) (Except.ok.inj h)).symm
  · rintro ⟨ss, rfl, rfl, hposition⟩
    rw [hspelled, ← hposition]
  · rintro ⟨f, hf, rfl⟩
    obtain ⟨ss, tail, rfl, ⟨rest, rfl⟩ | ⟨code, hcode⟩⟩ := exists_spelledText bytes
    · rw [hspelled] at hf
      simp at hf
    · obtain ⟨g, hg, rfl⟩ := hbad ss hcode
      rw [hf] at hg
      exact ⟨ss, tail, rfl, Except.error.inj hg ▸ hcode⟩
  · rintro ⟨ss, bad, rfl, hmisspelled⟩
    exact hbad ss hmisspelled

/-- Two escapes that are the halves of a pair are read as the one character, and the first half in
front of the closing mark is refused. -/
theorem readString_surrogates :
    ({ allowNul := true } : Options).allowNul = true ∧
    readString { allowNul := true } .value ⟨3, [0x22,
        0x5c, 0x75, 0x44, 0x38, 0x33, 0x64, 0x5c, 0x75, 0x44, 0x45, 0x30, 0x30, 0x22, 0x2c]⟩ =
      .ok ("😀", ⟨17, [0x2c]⟩) ∧
    ∃ f, readString { allowNul := true } .value ⟨3, [0x22,
        0x61, 0x5c, 0x75, 0x44, 0x38, 0x33, 0x64, 0x22, 0x2c]⟩ = .error f ∧
      f.fault.code = .invalidUtf8 := by
  have hhigh : SpellsUnit [0x44, 0x38, 0x33, 0x64] 0xd83d :=
    .mk (w := 13) (x := 8) (y := 3) (z := 13) rfl rfl rfl rfl
  have hlow : SpellsUnit [0x44, 0x45, 0x30, 0x30] 0xde00 :=
    .mk (w := 13) (x := 14) (y := 0) (z := 0) rfl rfl rfl rfl
  have hpair := Spells.pair hhigh (by decide) (by decide) hlow (by decide) (by decide)
  have hplain := Spells.plain (c := 'a') (by decide) (by decide) (by decide)
  refine ⟨rfl, ((readString_exact rfl .value 3 _).1 _ _).2 ⟨[⟨_, _, hpair⟩], rfl, rfl, rfl⟩,
    ((readString_exact rfl .value 3 _).2 _).2 ⟨[⟨_, _, hplain⟩], _, rfl,
      .unpaired hhigh (by decide) (by decide) ?_⟩⟩
  intro more h
  exact absurd (List.cons.inj h).1 (by decide)

end StrictJson.Syntax
