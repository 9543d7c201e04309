import StrictJson.Proofs.Syntax.NumberReader
import StrictJson.Proofs.Syntax.Procedure
import StrictJson.Proofs.Utf8.Boundary

/-!
# Words and Numbers by Descent

The procedures for words and numbers read what the readers over cursors return. A number is read
there by its parts, and here as a piece of the input: the position moves past one part after the
other, and then the piece between the first position and the last one is handed to the standard
readers. It is the text of the numeral, so they find the same parts in it.

## Main results

* `reads_word`: a word is read as it is over cursors.
* `reads_number`: a number is read as it is over cursors.
-/

namespace StrictJson.Syntax

namespace Descent

variable {o : Options} {input : List UInt8} {calls : List (ℕ × ℕ)} {c : Cursor} {d : ℕ}

/-! ### Words -/

/-- **A word** is read as it is over cursors. -/
theorem reads_word : Reads o input calls (readWord input) c d d (Syntax.readWord c) := by
  refine .of_isIn fun hc => reads_here.followed (reads_remaining.followed ?_)
  have hlen := hc.length_eq
  have hle : (c.rest.takeWhile isLetter).length ≤ c.rest.length :=
    (List.takeWhile_prefix _).length_le
  refine (reads_slice (Nat.le_add_right _ _) (by omega)).followed ?_
  have hword : (input.drop c.position).take
      (c.position + (c.rest.takeWhile isLetter).length - c.position) =
        c.rest.takeWhile isLetter := by
    rw [hc.drop_eq, Nat.add_sub_cancel_left]
    exact (List.prefix_iff_eq_take.1 (List.takeWhile_prefix _)).symm
  rw [hword, Syntax.readWord]
  cases wordValue? (c.rest.takeWhile isLetter) with
  | some v => exact (reads_advance hle).followed (reads_pure v)
  | none => exact reads_refuse

/-! ### The parts of a number -/

/-- A run of digits is counted. -/
theorem reads_skipDigits : Reads o input calls (skipDigits input) c d d
    (.ok ((c.rest.takeWhile isDigit).length, c.skipWhile isDigit)) := by
  have hcount : (c.skipWhile isDigit).position - c.position =
      (c.rest.takeWhile isDigit).length := Nat.add_sub_cancel_left ..
  rw [← hcount]
  exact reads_here.followed ((reads_skipWhile isDigit).followed
    (reads_here.followed (reads_minus (Nat.le_add_right _ _))))

/-- **The digits before the point** are read as they are over bytes. -/
theorem reads_whole {bytes : List UInt8} (hbytes : c.rest = bytes) (start : ℕ) :
    Reads o input calls (readWhole input start) c d d
      (match Numeral.scanWhole bytes with
        | .ok (whole, _) => .ok ((), c.advance whole.length)
        | .error f => .error ⟨f, start⟩) := by
  subst hbytes
  refine reads_peek.followed ?_
  cases hb : c.peek? with
  | none =>
      rw [Numeral.scanWhole, Cursor.takeWhile_eq_nil (by rw [hb]; rfl)]
      exact reads_refuse
  | some b =>
      have hrest := Cursor.rest_eq_cons_of_peek? hb
      dsimp only
      split_ifs with hzero hdigit
      · subst hzero
        refine (reads_advance_one hb).followed (reads_peek.followed ?_)
        rw [Numeral.scanWhole, hrest, List.takeWhile_cons_of_pos rfl]
        cases hany : (c.advance 1).peek?.any isDigit with
        | true =>
            obtain ⟨b, hb', hdigit⟩ := (Option.any_eq_true _ _).1 hany
            rw [Cursor.rest_eq_cons_of_peek? hb', List.takeWhile_cons_of_pos hdigit]
            exact reads_refuse
        | false =>
            rw [Cursor.takeWhile_eq_nil hany]
            exact reads_pure ()
      · have hscan : Numeral.scanWhole c.rest =
            .ok (c.rest.takeWhile isDigit, c.rest.dropWhile isDigit) := by
          rw [Numeral.scanWhole, hrest, List.takeWhile_cons_of_pos hdigit]
          split
          · next heq => exact absurd heq (List.cons_ne_nil _ _)
          · next heq => exact absurd (List.cons.inj heq).1 hzero
          · rfl
        rw [hscan]
        exact reads_skipDigits.discarded
      · rw [Numeral.scanWhole, hrest, List.takeWhile_cons_of_neg (by simpa using hdigit)]
        exact reads_refuse

/-- **A run of digits that must not be empty** is taken if it is not. -/
theorem reads_digits (fault : Fault) (start : ℕ) :
    Reads o input calls (readDigits input fault start) c d d
      (if c.rest.takeWhile isDigit = [] then .error ⟨fault, start⟩
        else .ok ((), c.skipWhile isDigit)) := by
  refine reads_skipDigits.followed ?_
  simp only [List.length_eq_zero_iff]
  split_ifs
  · exact reads_refuse
  · exact reads_pure ()

/-- **A point and the digits after it** are read as they are over bytes. -/
theorem reads_fraction {bytes : List UInt8} (hbytes : c.rest = bytes) (start : ℕ) :
    Reads o input calls (readFraction input start) c d d
      (match Numeral.scanFraction bytes with
        | .ok (fraction, _) =>
          .ok (fraction.isSome, c.advance (Numeral.fractionText fraction).length)
        | .error f => .error ⟨f, start⟩) := by
  subst hbytes
  cases hany : c.peek?.any (· == 0x2e) with
  | true =>
      obtain ⟨b, hb, heq⟩ := (Option.any_eq_true _ _).1 hany
      obtain rfl := beq_iff_eq.1 heq
      refine (reads_skipIf_true hb rfl).followed ?_
      have hdigits : Reads o input calls (readDigits input .missingFraction start) (c.advance 1) d
          d _ := reads_digits _ _
      rw [if_pos rfl, Cursor.rest_eq_cons_of_peek? hb, Numeral.scanFraction]
      rw [Cursor.skipWhile, Cursor.advance_advance] at hdigits
      cases hrun : (c.advance 1).rest.takeWhile isDigit with
      | nil =>
          rw [hrun, if_pos rfl] at hdigits
          exact hdigits.broken
      | cons b bs =>
          rw [hrun, if_neg (List.cons_ne_nil b bs), Nat.add_comm] at hdigits
          exact hdigits.followed (reads_pure true)
  | false =>
      have hscan : Numeral.scanFraction c.rest = .ok (none, c.rest) := by
        rw [Numeral.scanFraction.eq_def]
        split
        · exact absurd ‹_› (Cursor.rest_ne_cons hany rfl _)
        · rfl
      rw [hscan]
      exact (reads_skipIf_false hany).followed (reads_pure false)

/-- A sign is taken if there is one. -/
theorem reads_sign :
    Reads o input calls (discard (skipIf input fun b => b == 0x2b || b == 0x2d)) c d d
      (.ok ((), c.advance (Numeral.scanSign c.rest).1.toList.length)) := by
  cases hany : c.peek?.any (fun b => b == 0x2b || b == 0x2d) with
  | true =>
      obtain ⟨b, hb, heq⟩ := (Option.any_eq_true _ _).1 hany
      have hsign : (Numeral.scanSign c.rest).1 = some b := by
        rw [Cursor.rest_eq_cons_of_peek? hb]
        obtain rfl | rfl : b = 0x2b ∨ b = 0x2d := by simpa using heq
        · rfl
        · rfl
      rw [hsign]
      exact (reads_skipIf_true hb heq).discarded
  | false =>
      have hsign : (Numeral.scanSign c.rest).1 = none := by
        rw [Numeral.scanSign.eq_def]
        split
        · exact absurd ‹_› (Cursor.rest_ne_cons hany rfl _)
        · exact absurd ‹_› (Cursor.rest_ne_cons hany rfl _)
        · rfl
      rw [hsign]
      exact (reads_skipIf_false hany).discarded

/-- A minus sign is taken if there is one. -/
theorem reads_minusSign :
    Reads o input calls (discard (skipIf input (· == 0x2d))) c d d
      (.ok ((), c.advance
        (if (Numeral.scanMinus c.rest).1 then [0x2d] else [] : List UInt8).length)) := by
  cases hany : c.peek?.any (· == 0x2d) with
  | true =>
      obtain ⟨b, hb, heq⟩ := (Option.any_eq_true _ _).1 hany
      obtain rfl := beq_iff_eq.1 heq
      rw [Cursor.rest_eq_cons_of_peek? hb]
      exact (reads_skipIf_true hb rfl).discarded
  | false =>
      have hminus : (Numeral.scanMinus c.rest).1 = false := by
        rw [Numeral.scanMinus.eq_def]
        split
        · exact absurd ‹_› (Cursor.rest_ne_cons hany rfl _)
        · rfl
      rw [hminus]
      exact (reads_skipIf_false hany).discarded

/-- **An exponent** is read as it is over bytes. -/
theorem reads_exponent {bytes : List UInt8} (hbytes : c.rest = bytes) (start : ℕ) :
    Reads o input calls (readExponent input start) c d d
      (match Numeral.scanExponent bytes with
        | .ok (exponent, _) =>
          .ok (exponent.isSome, c.advance (Numeral.exponentText exponent).length)
        | .error f => .error ⟨f, start⟩) := by
  subst hbytes
  cases hany : c.peek?.any (fun b => b == 0x65 || b == 0x45) with
  | true =>
      obtain ⟨marker, hb, heq⟩ := (Option.any_eq_true _ _).1 hany
      have hmarker : marker = 0x65 ∨ marker = 0x45 := by simpa using heq
      refine (reads_skipIf_true hb heq).followed ?_
      rw [if_pos rfl, Cursor.rest_eq_cons_of_peek? hb, Numeral.scanExponent, if_pos hmarker]
      refine reads_sign.followed ?_
      have happend := Numeral.scanSign_append (c.advance 1).rest
      generalize Numeral.scanSign (c.advance 1).rest = found at happend
      obtain ⟨sign, tail⟩ := found
      have hrest := Cursor.rest_advance_of_append happend
      rw [Cursor.advance_advance] at hrest ⊢
      have hdigits : Reads o input calls (readDigits input .missingExponent start)
          (c.advance (1 + sign.toList.length)) d d _ := reads_digits _ _
      rw [Cursor.skipWhile, hrest, Cursor.advance_advance] at hdigits
      dsimp only
      cases hrun : tail.takeWhile isDigit with
      | nil =>
          rw [hrun, if_pos rfl] at hdigits
          exact hdigits.broken
      | cons b bs =>
          have hlength : (Numeral.exponentText (some ⟨marker, sign, b :: bs⟩)).length =
              1 + sign.toList.length + (b :: bs).length := by
            simp only [Numeral.exponentText, Exponent.text, List.cons_append, List.length_cons,
              List.length_append]
            omega
          rw [hrun, if_neg (List.cons_ne_nil b bs), ← hlength] at hdigits
          exact hdigits.followed (reads_pure true)
  | false =>
      have hscan : Numeral.scanExponent c.rest = .ok (none, c.rest) := by
        cases hrest : c.rest with
        | nil => rfl
        | cons b bs =>
            rw [Cursor.peek?, hrest] at hany
            rw [Numeral.scanExponent, if_neg]
            simpa using hany
      rw [hscan]
      exact (reads_skipIf_false hany).followed (reads_pure false)

/-- **The parts of a numeral** are passed as they are over bytes. -/
theorem reads_skipNumeral (start : ℕ) : Reads o input calls (skipNumeral input start) c d d
    (match Numeral.scan c.rest with
      | .ok (n, _) => .ok (!n.fraction.isSome && !n.exponent.isSome, c.advance n.text.length)
      | .error f => .error ⟨f, start⟩) := by
  refine reads_minusSign.followed ?_
  have hminus := Numeral.scanMinus_append c.rest
  rw [Numeral.scan]
  generalize Numeral.scanMinus c.rest = found at hminus
  obtain ⟨negative, unsigned⟩ := found
  dsimp only at hminus ⊢
  generalize hsign : (if negative = true then [0x2d] else [] : List UInt8) = sign at hminus ⊢
  have hwhole : Reads o input calls (readWhole input start) (c.advance sign.length) d d _ :=
    reads_whole (Cursor.rest_advance_of_append hminus) start
  cases hscan : Numeral.scanWhole unsigned with
  | error f => exact Reads.broken (hscan ▸ hwhole)
  | ok found =>
  obtain ⟨whole, afterWhole⟩ := found
  refine Reads.followed (hscan ▸ hwhole) ?_
  rw [← (Numeral.scanWhole_append hscan).1, ← List.append_assoc] at hminus
  rw [Cursor.advance_length_append]
  dsimp only
  have hfraction : Reads o input calls (readFraction input start)
      (c.advance (sign ++ whole).length) d d _ :=
    reads_fraction (Cursor.rest_advance_of_append hminus) start
  cases hscan : Numeral.scanFraction afterWhole with
  | error f => exact Reads.broken (hscan ▸ hfraction)
  | ok found =>
  obtain ⟨fraction, afterFraction⟩ := found
  refine Reads.followed (hscan ▸ hfraction) ?_
  rw [← Numeral.scanFraction_append hscan, ← List.append_assoc] at hminus
  rw [Cursor.advance_length_append]
  dsimp only
  have hexponent : Reads o input calls (readExponent input start)
      (c.advance (sign ++ whole ++ Numeral.fractionText fraction).length) d d _ :=
    reads_exponent (Cursor.rest_advance_of_append hminus) start
  cases hscan : Numeral.scanExponent afterFraction with
  | error f => exact Reads.broken (hscan ▸ hexponent)
  | ok found =>
  obtain ⟨exponent, rest⟩ := found
  refine Reads.followed (hscan ▸ hexponent) ?_
  rw [Cursor.advance_length_append, ← hsign]
  exact reads_pure _

/-! ### Whole numbers -/

/-- **The text of a numeral stands for what the numeral does.** -/
theorem reads_classify {n : Numeral} (hn : n.WellFormed) (start : ℕ) :
    Reads o input calls (classify n.text (!n.fraction.isSome && !n.exponent.isSome) start) c d d
      (match n.value? with
        | some v => .ok (v, c)
        | none => .error ⟨.unrepresentable n.text, start⟩) := by
  have hinteger := Numeral.filter_integerOfText?_text hn
  simp only [← Option.not_isSome] at hinteger
  rw [classify, hinteger, Numeral.value?]
  cases n.integer? with
  | some i => exact reads_pure _
  | none =>
      dsimp only
      rw [Numeral.realOfText?_text hn]
      have hfinite := Binary64.isFinite_ofParts_iff n.negative n.decimal.nearest_le_infinity
      dsimp only
      by_cases hlt : n.decimal.nearest < Binary64.infinity
      · rw [if_pos (hfinite.2 hlt), if_pos hlt]
        exact reads_pure _
      · rw [if_neg (mt hfinite.1 hlt), if_neg hlt]
        exact reads_refuse

/-- **A number is read as it is over cursors.** Its text is ASCII and one for the reader of
reals. -/
theorem reads_number : Reads o input calls (readNumber input) c d d (Syntax.readNumber c) := by
  refine .of_isIn fun hc => reads_here.followed ?_
  have hskip : Reads o input calls (skipNumeral input c.position) c d d _ := reads_skipNumeral _
  rw [Syntax.readNumber]
  cases hscan : Numeral.scan c.rest with
  | error f =>
      rw [hscan] at hskip
      exact hskip.broken
  | ok found =>
      obtain ⟨n, rest⟩ := found
      rw [hscan] at hskip
      have hn := Numeral.wellFormed_of_scan hscan
      have happend := (Numeral.scan_text hscan).1
      have hlen := hc.length_eq
      have hle : n.text.length ≤ c.rest.length := by
        rw [← happend, List.length_append]
        omega
      refine hskip.followed (reads_here.followed
        ((reads_slice (Nat.le_add_right _ _) (hc.advance hle).le).followed ?_))
      have htext : (input.drop c.position).take (c.position + n.text.length - c.position) =
          n.text := by
        rw [hc.drop_eq, Nat.add_sub_cancel_left, ← happend, List.take_left]
      rw [htext]
      have hascii : ∀ b ∈ n.text, b < 0x80 := fun b hb =>
        UInt8.lt_iff_toNat_lt.2 (hn.lt_of_mem_text hb)
      refine (reads_note (.measured n.text) ⟨hascii, _, Numeral.realOfText?_text hn⟩ rfl
        rfl).followed ?_
      rw [if_pos (Utf8.isValid_of_forall_lt fun b hb => hn.lt_of_mem_text hb)]
      exact reads_classify hn c.position

end Descent

end StrictJson.Syntax
