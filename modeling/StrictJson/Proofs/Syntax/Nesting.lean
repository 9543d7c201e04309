import StrictJson.Proofs.Syntax.Tree

/-!
# Nesting of a Text

How deep a text is nested, found by counting: going from left to right, opening brackets count up
and closing brackets count down, and those inside strings do not count. The greatest count on the
way is the nesting. This looks at nothing but the bytes, and for a document it agrees with the depth
of the tree.

## Main definitions

* `Scan`, `nesting`

## Main results

* `nesting_text`: the nesting of a document is the depth of its tree.
-/

namespace StrictJson.Syntax

/-- Where a **scan** for brackets stands. -/
inductive Scan where
  /-- Outside of strings. -/
  | outside
  /-- Inside a string. -/
  | inside
  /-- Inside a string and right behind a backslash. -/
  | escaped

/-- The greatest number of open brackets on the way through some bytes, if `level` are open at
their beginning. -/
def nestingFrom : Scan → ℕ → List UInt8 → ℕ
  | _, level, [] => level
  | .outside, level, b :: bs =>
    if b = 0x22 then nestingFrom .inside level bs
    else if b = 0x5b ∨ b = 0x7b then nestingFrom .outside (level + 1) bs
    else if b = 0x5d ∨ b = 0x7d then max level (nestingFrom .outside (level - 1) bs)
    else nestingFrom .outside level bs
  | .inside, level, b :: bs =>
    if b = 0x22 then nestingFrom .outside level bs
    else if b = 0x5c then nestingFrom .escaped level bs
    else nestingFrom .inside level bs
  | .escaped, level, _ :: bs => nestingFrom .inside level bs

/-- The **nesting** of a text: the greatest number of brackets that are open at one place. -/
def nesting (bytes : List UInt8) : ℕ :=
  nestingFrom .outside 0 bytes

/-- What is open at the beginning counts. -/
theorem le_nestingFrom (scan : Scan) (level : ℕ) (bytes : List UInt8) :
    level ≤ nestingFrom scan level bytes := by
  induction bytes generalizing scan level with
  | nil => rw [nestingFrom]
  | cons b bs ih =>
      cases scan with
      | outside =>
          rw [nestingFrom]
          split_ifs
          · exact ih ..
          · exact le_trans (Nat.le_succ level) (ih ..)
          · exact le_max_left ..
          · exact ih ..
      | inside =>
          rw [nestingFrom]
          split_ifs <;> exact ih ..
      | escaped => exact ih ..

/-! ### Bytes that do not count -/

/-- Whether a byte is neither a bracket nor a quotation mark. -/
def isPlain (b : UInt8) : Bool :=
  b != 0x22 && b != 0x5b && b != 0x7b && b != 0x5d && b != 0x7d

variable {level : ℕ} {bytes rest : List UInt8}

theorem nestingFrom_outside_append (h : ∀ b ∈ bytes, isPlain b = true) :
    nestingFrom .outside level (bytes ++ rest) = nestingFrom .outside level rest := by
  induction bytes with
  | nil => rfl
  | cons b bs ih =>
      rw [List.forall_mem_cons] at h
      obtain ⟨hb, hbs⟩ := h
      simp only [isPlain, Bool.and_eq_true, bne_iff_ne] at hb
      obtain ⟨⟨⟨⟨h1, h2⟩, h3⟩, h4⟩, h5⟩ := hb
      rw [List.cons_append, nestingFrom, if_neg h1, if_neg (not_or.2 ⟨h2, h3⟩),
        if_neg (not_or.2 ⟨h4, h5⟩), ih hbs]

theorem nestingFrom_inside_append (h : ∀ b ∈ bytes, b ≠ 0x22 ∧ b ≠ 0x5c) :
    nestingFrom .inside level (bytes ++ rest) = nestingFrom .inside level rest := by
  induction bytes with
  | nil => rfl
  | cons b bs ih =>
      rw [List.forall_mem_cons] at h
      rw [List.cons_append, nestingFrom, if_neg h.1.1, if_neg h.1.2, ih h.2]

/-! ### Strings -/

/-- Digits of an escape are no special bytes. -/
theorem SpellsUnit.ne {digits : List UInt8} {n : ℕ} (h : SpellsUnit digits n) :
    ∀ b ∈ digits, b ≠ 0x22 ∧ b ≠ 0x5c := by
  have hdigit : ∀ {b : UInt8} {m : ℕ}, Hex.digitValue? b = some m → b ≠ 0x22 ∧ b ≠ 0x5c := by
    rintro b m hm
    refine ⟨?_, ?_⟩ <;> rintro rfl <;> exact absurd hm (by decide +revert)
  obtain ⟨ha, hb, hc, hd⟩ := h
  intro b hmem
  simp only [List.mem_cons, List.not_mem_nil, or_false] at hmem
  obtain rfl | rfl | rfl | rfl := hmem
  · exact hdigit ha
  · exact hdigit hb
  · exact hdigit hc
  · exact hdigit hd

/-- The bytes of a character that may stand as it is are no special bytes. -/
theorem ne_of_mem_encodeChar {c : Char} (hc : 0x20 ≤ c.toNat) (hmark : c ≠ '"') (hback : c ≠ '\\') :
    ∀ b ∈ Utf8.encodeChar c, b ≠ 0x22 ∧ b ≠ 0x5c := by
  intro b hb
  by_cases hascii : c.toNat < 0x80
  · obtain ⟨b', bytes, htext, h22, h5c, -⟩ := head_encodeChar hc hmark hback
    rw [Utf8.encodeChar_of_lt hascii, List.cons.injEq] at htext
    rw [Utf8.encodeChar_of_lt hascii, List.mem_singleton, htext.1] at hb
    exact hb ▸ ⟨h22, h5c⟩
  · have hle := Utf8.le_of_mem_encodeChar (by omega) hb
    refine ⟨?_, ?_⟩
    all_goals
      rintro rfl
      exact absurd hle (by decide)

/-- A spelling stays inside its string. -/
theorem nestingFrom_spelling (s : Spelling) :
    nestingFrom .inside level (s.text ++ rest) = nestingFrom .inside level rest := by
  have hescape : ∀ bytes : List UInt8,
      nestingFrom .inside level (0x5c :: 0x75 :: bytes) = nestingFrom .inside level bytes :=
    fun _ => rfl
  obtain ⟨text, char, h⟩ := s
  cases h with
  | plain hc hmark hback =>
      have hne := ne_of_mem_encodeChar hc hmark hback
      rw [Utf8.encodeChar_eq_utf8EncodeChar] at hne
      exact nestingFrom_inside_append hne
  | short => rfl
  | unit hu => exact (hescape _).trans (nestingFrom_inside_append hu.ne)
  | pair hu _ _ hv =>
      simp only [List.append_assoc, List.cons_append]
      rw [hescape, nestingFrom_inside_append hu.ne, hescape, nestingFrom_inside_append hv.ne]

/-- A string does not count. -/
theorem nestingFrom_quotedText (ss : List Spelling) :
    nestingFrom .outside level (quotedText ss ++ rest) = nestingFrom .outside level rest := by
  have hinside : ∀ ss : List Spelling,
      nestingFrom .inside level (spelledText ss ++ 0x22 :: rest) =
        nestingFrom .outside level rest := by
    intro ss
    induction ss with
    | nil => rfl
    | cons s ss ih =>
        rw [spelledText, List.flatMap_cons, List.append_assoc, nestingFrom_spelling]
        exact ih
  rw [quotedText, List.append_assoc]
  exact hinside ss

/-! ### Trees -/

/-- White space does not count. -/
theorem Space.isPlain (space : Space) : ∀ b ∈ space.text, isPlain b = true := by
  intro b hb
  have hspace := space.isSpace b hb
  simp only [Syntax.isSpace, Bool.or_eq_true, beq_iff_eq] at hspace
  obtain ((rfl | rfl) | rfl) | rfl := hspace <;> rfl

/-- Words do not count. -/
theorem Word.isPlain (w : Word) : ∀ b ∈ w.text, Syntax.isPlain b = Bool.true := by
  cases w <;> exact List.all_eq_true.1 rfl

/-- Numbers do not count. -/
theorem NumberToken.isPlain (n : NumberToken) : ∀ b ∈ n.text, isPlain b = true := by
  intro b hb
  have hbyte := n.of_mem_text b hb
  by_contra hplain
  simp only [Syntax.isPlain, Bool.and_eq_true, bne_iff_ne, not_and_or, not_not] at hplain
  rcases hplain with (((rfl | rfl) | rfl) | rfl) | rfl <;> exact absurd hbyte (by decide)

/-- A label does not count. -/
theorem nestingFrom_label (l : Label) :
    nestingFrom .outside level (l.text ++ rest) = nestingFrom .outside level rest := by
  rw [Label.text, List.append_assoc, List.append_assoc,
    nestingFrom_outside_append l.before.isPlain, nestingFrom_quotedText,
    nestingFrom_outside_append l.after.isPlain]

/-- A bracket that opens a container counts up. -/
theorem nestingFrom_open {b : UInt8} (h : b = 0x5b ∨ b = 0x7b) :
    nestingFrom .outside level (b :: rest) = nestingFrom .outside (level + 1) rest := by
  obtain rfl | rfl := h <;> rfl

/-- A bracket that closes a container counts down. -/
theorem nestingFrom_close {b : UInt8} (h : b = 0x5d ∨ b = 0x7d) :
    nestingFrom .outside (level + 1) (b :: rest) =
      max (level + 1) (nestingFrom .outside level rest) := by
  obtain rfl | rfl := h <;> rfl

/-- Commas and colons do not count. -/
theorem nestingFrom_separator {b : UInt8} (h : b = 0x2c ∨ b = 0x3a) :
    nestingFrom .outside level (b :: rest) = nestingFrom .outside level rest := by
  obtain rfl | rfl := h <;> rfl

/-- **A tree counts by its depth.** -/
theorem nestingFrom_text {part : Part} (t : Tree part) (level : ℕ) (rest : List UInt8) :
    nestingFrom .outside level (t.text ++ rest) =
      max (level + t.depth) (nestingFrom .outside level rest) := by
  induction t generalizing level rest with
  | word w =>
      rw [Tree.text, nestingFrom_outside_append w.isPlain, Tree.depth, Nat.add_zero,
        max_eq_right (le_nestingFrom ..)]
  | number n =>
      rw [Tree.text, nestingFrom_outside_append n.isPlain, Tree.depth, Nat.add_zero,
        max_eq_right (le_nestingFrom ..)]
  | string ss =>
      rw [Tree.text, nestingFrom_quotedText, Tree.depth, Nat.add_zero,
        max_eq_right (le_nestingFrom ..)]
  | emptyArray space | emptyObject space =>
      rw [Tree.text, List.append_assoc, List.cons_append, List.singleton_append,
        nestingFrom_open (by decide), nestingFrom_outside_append space.isPlain,
        nestingFrom_close (by decide), Tree.depth]
  | array inner ih | object inner ih =>
      rw [Tree.text, List.append_assoc, List.cons_append, List.singleton_append,
        nestingFrom_open (by decide), ih, nestingFrom_close (by decide), Tree.depth]
      omega
  | padded before value after ih =>
      rw [Tree.text, List.append_assoc, List.append_assoc,
        nestingFrom_outside_append before.isPlain, ih, nestingFrom_outside_append after.isPlain,
        Tree.depth]
  | lastItem first ih => exact ih level rest
  | item first others ih ihs =>
      rw [Tree.text, List.append_assoc, List.cons_append, ih, nestingFrom_separator (.inl rfl),
        ihs, Tree.depth]
      omega
  | lastMember label element ih =>
      rw [Tree.text, List.append_assoc, List.cons_append, nestingFrom_label,
        nestingFrom_separator (.inr rfl), ih, Tree.depth]
  | member label element others ih ihs =>
      simp only [Tree.text, List.append_assoc, List.cons_append]
      rw [nestingFrom_label, nestingFrom_separator (.inr rfl), ih,
        nestingFrom_separator (.inl rfl), ihs, Tree.depth]
      omega

/-- **The nesting of a document is the depth of its tree.** -/
theorem nesting_text (d : Document) : nesting d.text = d.depth := by
  have h := nestingFrom_text d 0 []
  rw [List.append_nil, nestingFrom] at h
  rw [nesting, h]
  omega

end StrictJson.Syntax
