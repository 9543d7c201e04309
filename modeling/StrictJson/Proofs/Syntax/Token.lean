import StrictJson.Proofs.Syntax.Numeral
import StrictJson.Proofs.Syntax.Spelling

/-!
# Tokens

The tokens of a document that need to know what follows them, and white space. A word is a run of
letters and a number goes on as long as it can, so a reader finds their end only if the next byte
cannot go on with them. The bytes that go on with no word and no number are **delimiters**. Only
white space and the structural bytes of the grammar follow a token there, and all of them are
delimiters.

## Main definitions

* `Space`, `Word`, `NumberToken`: the tokens, each with what makes it one.
* `Delimited`: to begin with a delimiter.

## Main results

* `readWord_append`, `readNumber_append`: a token with nothing that goes on with it behind it is
  read as its value.
* `exists_of_readWord`, `exists_of_readNumber`: what is read is a token.
-/

namespace StrictJson.Syntax

/-! ### White space -/

/-- A run of **white space**, which may be empty. -/
structure Space where
  text : List UInt8
  isSpace : ∀ b ∈ text, isSpace b = true

/-- No white space. -/
def Space.none : Space := ⟨[], by simp⟩

/-- White space and then more of it. -/
def Space.append (space more : Space) : Space :=
  ⟨space.text ++ more.text, fun b hb =>
    (List.mem_append.1 hb).elim (space.isSpace b) (more.isSpace b)⟩

/-- White space in front of the cursor makes no difference once white space is skipped. -/
theorem skipSpace_space_append (space : Space) (p : ℕ) (rest : List UInt8) :
    (⟨p, space.text ++ rest⟩ : Cursor).skipSpace =
      (⟨p + space.text.length, rest⟩ : Cursor).skipSpace := by
  rw [Cursor.skipSpace, Cursor.skipSpace, Cursor.skipWhile, Cursor.skipWhile, Cursor.advance,
    Cursor.advance, List.takeWhile_append_of_pos space.isSpace, List.length_append,
    List.drop_append, List.drop_of_length_le (Nat.le_add_right ..), Nat.add_sub_cancel_left,
    List.nil_append, Nat.add_assoc]

/-- White space in front of another byte is skipped up to that byte. -/
theorem skipSpace_space_cons (space : Space) (p : ℕ) {b : UInt8} (rest : List UInt8)
    (hb : Syntax.isSpace b = false) :
    (⟨p, space.text ++ b :: rest⟩ : Cursor).skipSpace = ⟨p + space.text.length, b :: rest⟩ := by
  rw [skipSpace_space_append, Cursor.skipSpace_of_stops (stops_cons.2 hb)]

/-! ### Delimiters -/

/-- Whether a byte can go on with a word or a number that ends before it. -/
def goesOn (b : UInt8) : Bool :=
  isLetter b || Numeral.isContinuation b

/-- The bytes begin with a **delimiter**, or there are none. -/
def Delimited (rest : List UInt8) : Prop :=
  Stops goesOn rest

theorem Delimited.stops_isLetter {rest : List UInt8} (h : Delimited rest) :
    Stops isLetter rest := by
  intro b hb
  have := h b hb
  rw [goesOn, Bool.or_eq_false_iff] at this
  exact this.1

theorem Delimited.stops_continues {rest : List UInt8} (h : Delimited rest) (n : Numeral) :
    Stops n.continues rest := by
  intro b hb
  have := h b hb
  rw [goesOn, Bool.or_eq_false_iff] at this
  exact Numeral.continues_of_isContinuation this.2

/-- White space is a delimiter. -/
theorem goesOn_of_isSpace {b : UInt8} (h : isSpace b = true) : goesOn b = false := by
  simp only [isSpace, Bool.or_eq_true, beq_iff_eq] at h
  obtain ((rfl | rfl) | rfl) | rfl := h <;> rfl

/-- What is delimited stays so with white space before it. -/
theorem Delimited.space_append {rest : List UInt8} (h : Delimited rest) (space : Space) :
    Delimited (space.text ++ rest) := by
  obtain ⟨text, hspace⟩ := space
  cases text with
  | nil => exact h
  | cons b bytes => exact stops_cons.2 (goesOn_of_isSpace (hspace b (List.mem_cons_self ..)))

/-! ### Words -/

/-- The three **words** of the grammar. -/
inductive Word where
  | true
  | false
  | null

namespace Word

/-- The letters of a word. -/
def text : Word → List UInt8
  | true => [0x74, 0x72, 0x75, 0x65]
  | false => [0x66, 0x61, 0x6c, 0x73, 0x65]
  | null => [0x6e, 0x75, 0x6c, 0x6c]

/-- The value that a word stands for. -/
def value : Word → Value
  | true => .boolean .true
  | false => .boolean .false
  | null => .null

end Word

theorem wordValue?_eq_some_iff {letters : List UInt8} {v : Value} :
    wordValue? letters = some v ↔ ∃ w : Word, w.text = letters ∧ w.value = v := by
  constructor
  · intro h
    rw [wordValue?] at h
    split_ifs at h with h1 h2 h3
    · exact ⟨.true, h1.symm, Option.some.inj h⟩
    · exact ⟨.false, h2.symm, Option.some.inj h⟩
    · exact ⟨.null, h3.symm, Option.some.inj h⟩
  · rintro ⟨w, rfl, rfl⟩
    cases w <;> rfl

/-- **A word that no letter follows is read as its value.** -/
theorem readWord_append (w : Word) {rest : List UInt8} (hrest : Stops isLetter rest) (p : ℕ) :
    readWord ⟨p, w.text ++ rest⟩ = .ok (w.value, ⟨p + w.text.length, rest⟩) := by
  have hletters : ∀ b ∈ w.text, isLetter b = true := by
    cases w <;> exact List.all_eq_true.1 rfl
  rw [readWord]
  simp only [takeWhile_append_of_stops hletters hrest,
    wordValue?_eq_some_iff.2 ⟨w, rfl, rfl⟩, Cursor.advance_append]

/-- A word that is read stands in front of what remains, and no letter follows it. -/
theorem exists_of_readWord {c next : Cursor} {v : Value} (h : readWord c = .ok (v, next)) :
    ∃ w : Word, w.value = v ∧ c.rest = w.text ++ next.rest ∧
      next.position = c.position + w.text.length ∧ Stops isLetter next.rest := by
  rw [readWord] at h
  split at h
  · next v' hv' =>
    simp only [Except.ok.injEq, Prod.mk.injEq] at h
    obtain ⟨rfl, rfl⟩ := h
    obtain ⟨w, hw, rfl⟩ := wordValue?_eq_some_iff.1 hv'
    have hdrop := Cursor.rest_skipWhile c isLetter
    rw [Cursor.skipWhile] at hdrop
    refine ⟨w, rfl, ?_, by rw [hw, Cursor.position_advance], ?_⟩
    · rw [hdrop, hw, List.takeWhile_append_dropWhile]
    · rw [hdrop]
      exact stops_dropWhile isLetter c.rest
  · simp at h

/-! ### Numbers -/

/-- A **number**: a numeral of the grammar and the value that it denotes. -/
structure NumberToken where
  numeral : Numeral
  value : Value
  wellFormed : numeral.WellFormed
  denotes : numeral.Denotes value

/-- The bytes of a number. -/
def NumberToken.text (n : NumberToken) : List UInt8 :=
  n.numeral.text

/-- **A number that nothing goes on with is read as its value.** -/
theorem readNumber_append (n : NumberToken) {rest : List UInt8}
    (hrest : Stops n.numeral.continues rest) (p : ℕ) :
    readNumber ⟨p, n.text ++ rest⟩ = .ok (n.value, ⟨p + n.text.length, rest⟩) := by
  have hscan := Numeral.scan_append n.wellFormed hrest
  rw [readNumber, NumberToken.text, hscan]
  simp only [Numeral.value?_eq_some_iff.2 n.denotes, Cursor.advance_append]

/-- A number that is read stands in front of what remains, and nothing goes on with it. -/
theorem exists_of_readNumber {c next : Cursor} {v : Value} (h : readNumber c = .ok (v, next)) :
    ∃ n : NumberToken, n.value = v ∧ c.rest = n.text ++ next.rest ∧
      next.position = c.position + n.text.length ∧ Stops n.numeral.continues next.rest := by
  rw [readNumber] at h
  split at h
  · simp at h
  · next numeral rest hscan =>
    split at h
    · next v' hv' =>
      simp only [Except.ok.injEq, Prod.mk.injEq] at h
      obtain ⟨rfl, rfl⟩ := h
      have hwell := Numeral.wellFormed_of_scan hscan
      have htext := (Numeral.scan_text hscan).1
      have hrest : (c.advance numeral.text.length).rest = rest := by
        rw [Cursor.rest_advance, ← htext, List.drop_left]
      refine ⟨⟨numeral, v', hwell, Numeral.value?_eq_some_iff.1 hv'⟩, rfl, ?_, rfl, ?_⟩
      · rw [hrest, ← htext]
        rfl
      · rw [hrest]
        exact Numeral.stops_of_scan hscan
    · simp at h

/-- A digit is no white space. -/
theorem isSpace_of_isDigit {b : UInt8} (h : isDigit b = true) : isSpace b = false := by
  refine Bool.eq_false_iff.2 fun hspace => ?_
  have hgoes := goesOn_of_isSpace hspace
  simp [goesOn, Numeral.isContinuation, h] at hgoes

/-- A number begins with a minus sign or a digit. -/
theorem NumberToken.exists_head (n : NumberToken) :
    ∃ b bytes, n.text = b :: bytes ∧ (b = 0x2d ∨ isDigit b = true) := by
  obtain ⟨⟨negative, whole, fraction, exponent⟩, v, hn, -⟩ := n
  cases negative with
  | true => exact ⟨_, _, rfl, .inl rfl⟩
  | false =>
      cases whole with
      | nil => exact absurd rfl hn.whole.ne_nil
      | cons d ds => exact ⟨d, _, rfl, .inr (hn.whole.isDigit d (List.mem_cons_self ..))⟩

/-- A numeral is made of digits, a point, the letter of its exponent and signs. -/
theorem Numeral.WellFormed.of_mem_text {n : Numeral} (hn : n.WellFormed) :
    ∀ b ∈ n.text, Numeral.isContinuation b = true ∨ b = 0x2b ∨ b = 0x2d := by
  have hdigit : ∀ {digits : List UInt8}, IsDigits digits → ∀ b ∈ digits,
      Numeral.isContinuation b = true ∨ b = 0x2b ∨ b = 0x2d := by
    intro digits hdigits b hb
    simp [Numeral.isContinuation, hdigits.isDigit b hb]
  obtain ⟨negative, whole, fraction, exponent⟩ := n
  simp only [Numeral.text, List.forall_mem_append]
  refine ⟨⟨⟨?_, hdigit hn.whole⟩, ?_⟩, ?_⟩
  · cases negative with
    | false => exact List.forall_mem_nil _
    | true => exact List.forall_mem_singleton.2 (.inr (.inr rfl))
  · cases fraction with
    | none => exact List.forall_mem_nil _
    | some digits => exact List.forall_mem_cons.2 ⟨.inl rfl, hdigit (hn.fraction digits rfl)⟩
  · cases exponent with
    | none => exact List.forall_mem_nil _
    | some e =>
        obtain ⟨hmarker, hsign, hdigits⟩ := hn.exponent e rfl
        refine List.forall_mem_cons.2 ⟨.inl ?_, List.forall_mem_append.2 ⟨?_, hdigit hdigits⟩⟩
        · rcases hmarker with h | h <;> rw [h] <;> rfl
        · exact fun b hb => .inr (hsign b (Option.mem_toList.1 hb))

/-- Numerals are ASCII. -/
theorem Numeral.WellFormed.lt_of_mem_text {n : Numeral} (hn : n.WellFormed) {b : UInt8}
    (hb : b ∈ n.text) : b.toNat < 0x80 := by
  have hbyte := hn.of_mem_text b hb
  simp only [Numeral.isContinuation, isDigit, Bool.or_eq_true, Bool.and_eq_true, decide_eq_true_eq,
    beq_iff_eq, UInt8.le_iff_toNat_le, UInt8.reduceToNat, ← UInt8.toNat_inj] at hbyte
  omega

/-- The bytes of a number are those of its numeral. -/
theorem NumberToken.of_mem_text (n : NumberToken) :
    ∀ b ∈ n.text, Numeral.isContinuation b = true ∨ b = 0x2b ∨ b = 0x2d :=
  n.wellFormed.of_mem_text

end StrictJson.Syntax
