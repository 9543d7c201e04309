import StrictJson.Proofs.Syntax.NumberReading
import StrictJson.Syntax.NumberReader

/-!
# Numerals as Number Texts

The standard readers of integers and of reals take texts that no document may contain, but of a
numeral of the grammar they make what it stands for. The reader of reals accepts every numeral, and
finds its parts. The reader of integers may accept one that is not the decimal text of its integer,
and only minus zero is left over of these once the texts are compared.

## Main results

* `Numeral.realOfText?_text`: every numeral is a text for the reader of reals.
* `Numeral.filter_integerOfText?_text`: an integer that is written as the numeral is what the
  numeral stands for.
-/

namespace StrictJson

/-- The magnitude nearest to a decimal number is at most infinite. -/
theorem Decimal.nearest_le_infinity (d : Decimal) : d.nearest ≤ Binary64.infinity := by
  have hle : ∀ num den, Binary64.nearest num den ≤ Binary64.infinity :=
    fun _ _ => Nat.min_le_right _ _
  simp only [nearest]
  split_ifs
  · exact Nat.zero_le _
  · exact le_rfl
  · exact hle _ _
  · exact Nat.zero_le _
  · exact hle _ _

/-- A real is finite if its magnitude is less than infinite. -/
theorem Binary64.isFinite_ofParts_iff {m : ℕ} (negative : Bool) (h : m ≤ infinity) :
    (ofParts negative m).isFinite = true ↔ m < infinity := by
  rw [isFinite, magnitude_ofParts negative h, decide_eq_true_eq]

namespace Syntax.Numeral

variable {n : Numeral}

/-- A numeral is known by its text. -/
theorem WellFormed.eq_of_text_eq {k : Numeral} (hn : n.WellFormed) (hk : k.WellFormed)
    (h : n.text = k.text) : n = k := by
  have hscan : scan (n.text ++ []) = .ok (n, []) := scan_append hn (stops_nil _)
  rw [h, scan_append hk (stops_nil _)] at hscan
  exact (Prod.mk.inj (Except.ok.inj hscan)).1.symm

/-- The unsigned text of a numeral. -/
def unsignedText (n : Numeral) : List UInt8 :=
  n.whole ++ (fractionText n.fraction ++ exponentText n.exponent)

/-- A numeral without its sign is read by parts. -/
theorem scanSign_text (hn : n.WellFormed) :
    scanSign n.text = (if n.negative then some 0x2d else none, n.unsignedText) := by
  have hmem : ∀ b ∈ (if n.negative then some (0x2d : UInt8) else none), b = 0x2b ∨ b = 0x2d := by
    cases n.negative <;> simp
  rw [text, List.append_assoc, List.append_assoc, unsignedText,
    ← scanSign_append_of_isDigits hmem hn.whole]
  cases n.negative <;> rfl

/-- No word starts with a digit. -/
theorem wordMagnitude?_unsignedText (hn : n.WellFormed) : wordMagnitude? n.unsignedText = none := by
  obtain ⟨b, bs, hwhole⟩ := List.exists_cons_of_ne_nil hn.whole.ne_nil
  have hdigit := hn.whole.isDigit b (hwhole ▸ List.mem_cons_self)
  simp only [Syntax.isDigit, Bool.and_eq_true, decide_eq_true_eq, UInt8.le_iff_toNat_le,
    UInt8.reduceToNat] at hdigit
  have hkeep : ¬ (0x41 ≤ b ∧ b ≤ 0x5a) := by
    simp only [UInt8.le_iff_toNat_le, UInt8.reduceToNat]
    omega
  have hne : ∀ letter : UInt8, 0x39 < letter.toNat → b ≠ letter := by
    rintro letter hletter rfl
    omega
  rw [unsignedText, hwhole, List.cons_append, wordMagnitude?, List.map_cons, if_neg hkeep]
  simp [hne 0x69 (by decide), hne 0x6e (by decide)]

theorem looseFraction_append_of_stops {fraction : Option (List UInt8)} {rest : List UInt8}
    (hfraction : ∀ digits ∈ fraction, IsDigits digits) (hrest : Stops Syntax.isDigit rest)
    (hpoint : rest.head? ≠ some 0x2e) :
    looseFraction (fractionText fraction ++ rest) = (fraction, rest) := by
  cases fraction with
  | none =>
      rw [fractionText, List.nil_append, looseFraction.eq_def]
      split
      · exact absurd rfl hpoint
      · rfl
  | some digits =>
      have hdigits := (hfraction digits rfl).isDigit
      rw [fractionText, List.cons_append, looseFraction, takeWhile_append_of_stops hdigits hrest,
        dropWhile_append_of_stops hdigits hrest]

/-- **The parts of a numeral** are found again. -/
theorem looseNumeral?_unsignedText (hn : n.WellFormed) :
    looseNumeral? n.negative n.unsignedText = some n := by
  obtain ⟨hdigit, hpoint⟩ : Stops Syntax.isDigit (exponentText n.exponent ++ []) ∧ _ :=
    stops_exponentText hn.exponent (stops_nil _) (by simp)
  have hexponent : scanExponent (exponentText n.exponent ++ []) = .ok (n.exponent, []) :=
    scanExponent_append_of_stops hn.exponent (stops_nil _) (by simp)
  rw [List.append_nil] at hdigit hpoint hexponent
  have hwhole := hn.whole.isDigit
  have hfraction := stops_fractionText n.fraction hdigit
  simp only [looseNumeral?, unsignedText, takeWhile_append_of_stops hwhole hfraction,
    dropWhile_append_of_stops hwhole hfraction,
    looseFraction_append_of_stops hn.fraction hdigit hpoint, hn.whole.ne_nil, false_and, if_false,
    hexponent]

/-- **Every numeral is a text for the reader of reals**, who reads it as the nearest one. -/
theorem realOfText?_text (hn : n.WellFormed) :
    realOfText? n.text = some (.ofParts n.negative n.decimal.nearest) := by
  have hnegative : decide ((if n.negative then some (0x2d : UInt8) else none) = some 0x2d) =
      n.negative := by
    cases n.negative <;> rfl
  simp only [realOfText?, scanSign_text hn, hnegative, wordMagnitude?_unsignedText hn,
    looseNumeral?_unsignedText hn]

/-- The reader of integers reads the text of an integer. -/
theorem integerOfText?_of_isInteger (hn : n.WellFormed) {i : Int64} (hi : n.IsInteger i) :
    integerOfText? n.text = some i := by
  have hunsigned : n.unsignedText = n.whole := by
    rw [unsignedText, hi.fraction, hi.exponent, fractionText, exponentText, List.append_nil,
      List.append_nil]
  have hall : n.whole.all Syntax.isDigit = true := List.all_eq_true.2 hn.whole.isDigit
  have hsigned : (if (if n.negative then some (0x2d : UInt8) else none) = some 0x2d then
      -(digitsValue n.whole : ℤ) else digitsValue n.whole) = i.toInt := by
    rw [hi.signed, signed]
    cases n.negative <;> rfl
  have hrange := i.le_toInt
  have hrange' := i.toInt_lt
  simp only [integerOfText?, scanSign_text hn, hunsigned, hsigned]
  rw [if_pos ⟨hn.whole.ne_nil, hall, hrange, hrange'⟩, Int64.ofInt_toInt]

/-- **An integer that is written as the numeral** is what the numeral stands for, if it has neither
a point nor an exponent. -/
theorem filter_integerOfText?_text (hn : n.WellFormed) :
    ((integerOfText? n.text).filter fun i => (n.fraction.isNone && n.exponent.isNone) &&
      Utf8.encodeChars (integerText i) == n.text) = n.integer? := by
  refine Option.ext fun i => ?_
  rw [Option.filter_eq_some_iff, integer?_eq_some_iff, Bool.and_eq_true, beq_iff_eq,
    ← text_integerToken]
  constructor
  · rintro ⟨-, -, htext⟩
    obtain rfl := (wellFormed_integerNumeral i).eq_of_text_eq hn htext
    obtain hi | ⟨-⟩ := denotes_integerNumeral i
    exact hi
  · intro hi
    obtain rfl := hi.eq_integerNumeral hn
    exact ⟨integerOfText?_of_isInteger hn hi, rfl, rfl⟩

end Syntax.Numeral

end StrictJson
