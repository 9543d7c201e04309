import StrictJson.Proofs.Binary64.Decimal
import StrictJson.Proofs.Syntax.Cursor

/-!
# Numerals of the Grammar

Which bytes are a numeral, and what it denotes, said without the reader. A numeral is **well
formed** if its parts are those of the grammar: a minus sign or none; a zero, or digits that do not
begin with one; a point with digits or neither; a letter for the exponent with a sign or none and
digits, or nothing of it. It denotes an integer if it has neither point nor exponent, is not the
zero with a sign, and the integer fits 64 bits. Any other numeral denotes the real that is nearest
to its exact value, and one that is too large denotes nothing.

The reader takes the longest numeral. What stops it is a byte that cannot go on with that numeral,
which it may well do with another: a point goes on with `1` and stops `1.5`.

## Main definitions

* `Numeral.WellFormed`, `Numeral.signed`, `Numeral.size`, `Numeral.Denotes`
* `Numeral.continues`: the bytes that go on with a numeral.

## Main results

* `Numeral.scan_append`, `Numeral.stops_of_scan`: a numeral is read as far as it goes.
* `Numeral.wellFormed_of_scan`: what is read is a numeral.
* `Numeral.value?_eq_some_iff`: what is computed for a numeral is what it denotes.
-/

namespace StrictJson.Syntax

/-! ### The grammar -/

/-- One decimal digit or more. -/
structure IsDigits (digits : List UInt8) : Prop where
  ne_nil : digits ≠ []
  isDigit : ∀ b ∈ digits, isDigit b = true

/-- An exponent of the grammar: `e` or `E`, a sign or none, and digits. -/
structure Exponent.WellFormed (e : Exponent) : Prop where
  marker : e.marker = 0x65 ∨ e.marker = 0x45
  sign : ∀ b ∈ e.sign, b = 0x2b ∨ b = 0x2d
  digits : IsDigits e.digits

namespace Numeral

/-- A numeral of the grammar. -/
structure WellFormed (n : Numeral) : Prop where
  whole : IsDigits n.whole
  /-- A zero in front stands alone. -/
  leadingZero : ∀ digits, n.whole = 0x30 :: digits → digits = []
  fraction : ∀ digits ∈ n.fraction, IsDigits digits
  exponent : ∀ e ∈ n.exponent, e.WellFormed

/-- The digits before the point, with the sign, as an integer. -/
def signed (n : Numeral) : ℤ :=
  if n.negative then -(digitsValue n.whole : ℤ) else digitsValue n.whole

/-- The exact value without the sign. -/
def size (n : Numeral) : ℚ :=
  (digitsValue n.whole +
      digitsValue (n.fraction.getD []) / 10 ^ (n.fraction.getD []).length) *
    10 ^ (n.exponent.elim 0 Exponent.value)

/-- The numeral is the decimal text of the integer `i`: it has neither point nor exponent, and a
zero has no sign. -/
structure IsInteger (n : Numeral) (i : Int64) : Prop where
  fraction : n.fraction = none
  exponent : n.exponent = none
  sign : i = 0 → n.negative = false
  signed : i.toInt = n.signed

/-- What a numeral **denotes**: an integer if it is the text of one, and else the real nearest to
its exact value, with its sign, unless that is too large. -/
inductive Denotes (n : Numeral) : Value → Prop
  | integer {i : Int64} : n.IsInteger i → Denotes n (.integer i)
  | real {m : ℕ} : (∀ i, ¬ n.IsInteger i) → n.size < Binary64.overflowThreshold →
      Binary64.IsNearest n.size m → Denotes n (.real (.ofParts n.negative m))

/-! ### Reading -/

/-- Whether a byte can go on with some numeral that ends before it. -/
def isContinuation (b : UInt8) : Bool :=
  isDigit b || b == 0x2e || b == 0x65 || b == 0x45

/-- Whether a byte **goes on** with this numeral. A digit always does, the letter of an exponent
does if there is none yet, and a point if there is neither a point nor an exponent. -/
def continues (n : Numeral) (b : UInt8) : Bool :=
  isDigit b || (n.exponent.isNone && (b == 0x65 || b == 0x45)) ||
    (n.exponent.isNone && n.fraction.isNone && b == 0x2e)

/-- What goes on with no numeral does not go on with this one. -/
theorem continues_of_isContinuation {n : Numeral} {b : UInt8} (h : isContinuation b = false) :
    n.continues b = false := by
  simp only [isContinuation, Bool.or_eq_false_iff] at h
  simp [continues, h]

/-- What stops a numeral stops its digits. -/
theorem stops_isDigit {n : Numeral} {rest : List UInt8} (h : Stops n.continues rest) :
    Stops isDigit rest := by
  intro b hb
  have := h b hb
  simp only [continues, Bool.or_eq_false_iff] at this
  exact this.1.1

theorem scanWhole_append_of_stops {whole rest : List UInt8} (hwhole : IsDigits whole)
    (hzero : ∀ digits, whole = 0x30 :: digits → digits = []) (hrest : Stops isDigit rest) :
    scanWhole (whole ++ rest) = .ok (whole, rest) := by
  rw [scanWhole, takeWhile_append_of_stops hwhole.isDigit hrest,
    dropWhile_append_of_stops hwhole.isDigit hrest]
  split
  · exact absurd rfl hwhole.ne_nil
  · next b bs => exact absurd (hzero (b :: bs) rfl) (List.cons_ne_nil b bs)
  · rfl

theorem scanFraction_append_of_stops {fraction : Option (List UInt8)} {rest : List UInt8}
    (hfraction : ∀ digits ∈ fraction, IsDigits digits) (hrest : Stops isDigit rest)
    (hpoint : fraction = none → rest.head? ≠ some 0x2e) :
    scanFraction (fractionText fraction ++ rest) = .ok (fraction, rest) := by
  cases fraction with
  | none =>
      rw [fractionText, List.nil_append]
      cases rest with
      | nil => rfl
      | cons b bytes =>
          rw [scanFraction]
          rintro tail ⟨rfl, rfl⟩
          exact hpoint rfl rfl
  | some digits =>
      have hdigits := hfraction digits rfl
      rw [fractionText, List.cons_append, scanFraction,
        takeWhile_append_of_stops hdigits.isDigit hrest,
        dropWhile_append_of_stops hdigits.isDigit hrest]
      split
      · exact absurd rfl hdigits.ne_nil
      · rfl

/-- Digits are no sign. -/
theorem scanSign_append_of_isDigits {sign : Option UInt8} {digits rest : List UInt8}
    (hsign : ∀ b ∈ sign, b = 0x2b ∨ b = 0x2d) (hdigits : IsDigits digits) :
    scanSign (sign.toList ++ (digits ++ rest)) = (sign, digits ++ rest) := by
  cases sign with
  | none =>
      cases digits with
      | nil => exact absurd rfl hdigits.ne_nil
      | cons d ds =>
          have hd := hdigits.isDigit d (List.mem_cons_self ..)
          rw [Option.toList_none, List.nil_append, List.cons_append, scanSign]
          · rintro tail ⟨rfl, rfl⟩
            exact absurd hd (by decide)
          · rintro tail ⟨rfl, rfl⟩
            exact absurd hd (by decide)
  | some b =>
      rcases hsign b rfl with rfl | rfl <;> rfl

theorem scanExponent_append_of_stops {exponent : Option Exponent} {rest : List UInt8}
    (hexponent : ∀ e ∈ exponent, e.WellFormed) (hrest : Stops isDigit rest)
    (hletter : exponent = none → ∀ b ∈ rest.head?, ¬ (b = 0x65 ∨ b = 0x45)) :
    scanExponent (exponentText exponent ++ rest) = .ok (exponent, rest) := by
  cases exponent with
  | none =>
      rw [exponentText, List.nil_append]
      cases rest with
      | nil => rfl
      | cons b bytes => rw [scanExponent, if_neg (hletter rfl b rfl)]
  | some e =>
      obtain ⟨marker, sign, digits⟩ := e
      have he := hexponent _ rfl
      have hdigits := he.digits
      rw [exponentText, Exponent.text, List.append_assoc, List.cons_append, scanExponent,
        if_pos he.marker]
      simp only [scanSign_append_of_isDigits he.sign hdigits,
        takeWhile_append_of_stops hdigits.isDigit hrest,
        dropWhile_append_of_stops hdigits.isDigit hrest]
      split
      · exact absurd rfl hdigits.ne_nil
      · rfl

/-- Digits are no minus sign. -/
theorem scanMinus_append_of_isDigits (negative : Bool) {whole : List UInt8} (rest : List UInt8)
    (hwhole : IsDigits whole) :
    scanMinus ((if negative then [0x2d] else []) ++ (whole ++ rest)) =
      (negative, whole ++ rest) := by
  cases negative with
  | false =>
      cases whole with
      | nil => exact absurd rfl hwhole.ne_nil
      | cons d ds =>
          have hd := hwhole.isDigit d (List.mem_cons_self ..)
          rw [if_neg Bool.false_ne_true, List.nil_append, List.cons_append, scanMinus]
          rintro tail ⟨rfl, rfl⟩
          exact absurd hd (by decide)
  | true => rfl

/-- An exponent stops the digits in front of it, and is no point. -/
theorem stops_exponentText {exponent : Option Exponent} {rest : List UInt8}
    (hexponent : ∀ e ∈ exponent, e.WellFormed) (hrest : Stops isDigit rest)
    (hpoint : exponent = none → rest.head? ≠ some 0x2e) :
    Stops isDigit (exponentText exponent ++ rest) ∧
      (exponentText exponent ++ rest).head? ≠ some 0x2e := by
  cases exponent with
  | none => exact ⟨hrest, hpoint rfl⟩
  | some e =>
      rw [exponentText, Exponent.text, List.append_assoc, List.cons_append]
      rcases (hexponent e rfl).marker with h | h <;>
        exact ⟨stops_cons.2 (by rw [h]; decide), by simp [h]⟩

/-- A fraction stops the digits in front of it if what follows does. -/
theorem stops_fractionText (fraction : Option (List UInt8)) {rest : List UInt8}
    (hrest : Stops isDigit rest) : Stops isDigit (fractionText fraction ++ rest) := by
  cases fraction with
  | none => exact hrest
  | some digits => exact stops_cons.2 rfl

/-- **A numeral is read as far as it goes**, if what follows cannot go on with it. -/
theorem scan_append {n : Numeral} {rest : List UInt8} (hn : n.WellFormed)
    (hrest : Stops n.continues rest) : scan (n.text ++ rest) = .ok (n, rest) := by
  have hdigit := stops_isDigit hrest
  obtain ⟨negative, whole, fraction, exponent⟩ := n
  have hletter : exponent = none → ∀ b ∈ rest.head?, ¬ (b = 0x65 ∨ b = 0x45) := by
    rintro rfl b hb
    have := hrest b hb
    simp only [continues, Option.isNone_none, Bool.true_and, Bool.or_eq_false_iff,
      beq_eq_false_iff_ne] at this
    exact not_or.2 this.1.2
  have hexp : Stops isDigit (exponentText exponent ++ rest) ∧
      (fraction = none → (exponentText exponent ++ rest).head? ≠ some 0x2e) := by
    by_cases hpoint : exponent = none ∧ rest.head? = some 0x2e
    · obtain ⟨rfl, hhead⟩ := hpoint
      refine ⟨hdigit, ?_⟩
      rintro rfl
      have := hrest 0x2e hhead
      simp [continues] at this
    · have hstops := stops_exponentText hn.exponent hdigit fun hnone hhead => hpoint ⟨hnone, hhead⟩
      exact ⟨hstops.1, fun _ => hstops.2⟩
  have hminus := scanMinus_append_of_isDigits negative
    (fractionText fraction ++ (exponentText exponent ++ rest)) hn.whole
  simp only [text, List.append_assoc, scan, hminus,
    scanWhole_append_of_stops hn.whole hn.leadingZero (stops_fractionText fraction hexp.1),
    scanFraction_append_of_stops hn.fraction hexp.1 hexp.2,
    scanExponent_append_of_stops hn.exponent hdigit hletter]

/-! ### What is read is a numeral -/

/-- The digits at the front of some bytes, if there are any. -/
theorem isDigits_takeWhile {bytes : List UInt8} (h : bytes.takeWhile Syntax.isDigit ≠ []) :
    IsDigits (bytes.takeWhile Syntax.isDigit) :=
  ⟨h, fun _ hb => of_mem_takeWhile hb⟩

theorem isDigits_of_scanWhole {bytes whole rest : List UInt8}
    (h : scanWhole bytes = .ok (whole, rest)) :
    IsDigits whole ∧ ∀ digits, whole = 0x30 :: digits → digits = [] := by
  rw [scanWhole] at h
  split at h
  · simp at h
  · simp at h
  · next digits hne hzero =>
    simp only [Except.ok.injEq, Prod.mk.injEq] at h
    obtain ⟨rfl, -⟩ := h
    refine ⟨isDigits_takeWhile hne, fun tail htail => ?_⟩
    cases tail with
    | nil => rfl
    | cons b bs => exact absurd htail (hzero b bs)

theorem isDigits_of_scanFraction {bytes rest : List UInt8} {fraction : Option (List UInt8)}
    (h : scanFraction bytes = .ok (fraction, rest)) : ∀ digits ∈ fraction, IsDigits digits := by
  intro ds hds
  rw [scanFraction.eq_def] at h
  split at h
  · split at h
    · simp at h
    · next digits hne =>
      simp only [Except.ok.injEq, Prod.mk.injEq] at h
      obtain ⟨rfl, -⟩ := h
      obtain rfl := Option.mem_some.1 hds
      exact isDigits_takeWhile hne
  · simp only [Except.ok.injEq, Prod.mk.injEq] at h
    obtain ⟨rfl, -⟩ := h
    exact absurd hds (Option.not_mem_none ds)

theorem mem_scanSign {bytes : List UInt8} {b : UInt8} (h : b ∈ (scanSign bytes).1) :
    b = 0x2b ∨ b = 0x2d := by
  rw [scanSign.eq_def] at h
  split at h
  · exact Or.inl (Option.mem_some.1 h).symm
  · exact Or.inr (Option.mem_some.1 h).symm
  · exact absurd h (Option.not_mem_none b)

theorem wellFormed_of_scanExponent {bytes rest : List UInt8} {exponent : Option Exponent}
    (h : scanExponent bytes = .ok (exponent, rest)) : ∀ e ∈ exponent, e.WellFormed := by
  intro e he
  rw [scanExponent.eq_def] at h
  split at h
  · simp only [Except.ok.injEq, Prod.mk.injEq] at h
    obtain ⟨rfl, -⟩ := h
    exact absurd he (Option.not_mem_none e)
  · next marker tail =>
    split_ifs at h with hmarker
    · simp only at h
      split at h
      · simp at h
      · next digits hne =>
        simp only [Except.ok.injEq, Prod.mk.injEq] at h
        obtain ⟨rfl, -⟩ := h
        obtain rfl := Option.mem_some.1 he
        exact ⟨hmarker, fun b hb => mem_scanSign hb, isDigits_takeWhile hne⟩
    · simp only [Except.ok.injEq, Prod.mk.injEq] at h
      obtain ⟨rfl, -⟩ := h
      exact absurd he (Option.not_mem_none e)

/-- **What is read is a numeral.** -/
theorem wellFormed_of_scan {bytes rest : List UInt8} {n : Numeral}
    (h : scan bytes = .ok (n, rest)) : n.WellFormed := by
  simp only [scan] at h
  split at h
  · simp at h
  · next whole afterWhole hw =>
    split at h
    · simp at h
    · next fraction afterFraction hf =>
      split at h
      · simp at h
      · next exponent rest' he =>
        simp only [Except.ok.injEq, Prod.mk.injEq] at h
        obtain ⟨rfl, -⟩ := h
        obtain ⟨hwhole, hzero⟩ := isDigits_of_scanWhole hw
        exact ⟨hwhole, hzero, isDigits_of_scanFraction hf, wellFormed_of_scanExponent he⟩

/-! ### What a scan leaves -/

theorem stops_of_scanWhole {bytes whole rest : List UInt8}
    (h : scanWhole bytes = .ok (whole, rest)) : Stops Syntax.isDigit rest := by
  rw [scanWhole] at h
  split at h
  · simp at h
  · simp at h
  · obtain ⟨-, rfl⟩ := Prod.mk.inj (Except.ok.inj h)
    exact stops_dropWhile _ _

theorem stops_of_scanFraction {bytes rest : List UInt8} {fraction : Option (List UInt8)}
    (hbytes : Stops Syntax.isDigit bytes) (h : scanFraction bytes = .ok (fraction, rest)) :
    Stops Syntax.isDigit rest ∧ (fraction = none → rest.head? ≠ some 0x2e) := by
  rw [scanFraction.eq_def] at h
  split at h
  · split at h
    · simp at h
    · obtain ⟨rfl, rfl⟩ := Prod.mk.inj (Except.ok.inj h)
      exact ⟨stops_dropWhile _ _, nofun⟩
  · next hpoint =>
    obtain ⟨rfl, rfl⟩ := Prod.mk.inj (Except.ok.inj h)
    refine ⟨hbytes, fun _ hhead => ?_⟩
    obtain ⟨tail, htail⟩ := List.head?_eq_some_iff.1 hhead
    exact hpoint tail htail

theorem stops_of_scanExponent {bytes rest : List UInt8} {exponent : Option Exponent}
    (hbytes : Stops Syntax.isDigit bytes) (h : scanExponent bytes = .ok (exponent, rest)) :
    Stops Syntax.isDigit rest ∧ (exponent = none →
      rest = bytes ∧ ∀ b ∈ rest.head?, ¬ (b = 0x65 ∨ b = 0x45)) := by
  rw [scanExponent.eq_def] at h
  split at h
  · obtain ⟨rfl, rfl⟩ := Prod.mk.inj (Except.ok.inj h)
    exact ⟨hbytes, fun _ => ⟨rfl, nofun⟩⟩
  · next marker tail =>
    split_ifs at h with hmarker
    · simp only at h
      split at h
      · simp at h
      · obtain ⟨rfl, rfl⟩ := Prod.mk.inj (Except.ok.inj h)
        exact ⟨stops_dropWhile _ _, nofun⟩
    · obtain ⟨rfl, rfl⟩ := Prod.mk.inj (Except.ok.inj h)
      refine ⟨hbytes, fun _ => ⟨rfl, fun b hb => ?_⟩⟩
      obtain rfl := Option.some.inj hb
      exact hmarker

/-- **A scan goes as far as it can**: what it leaves does not go on with the numeral. -/
theorem stops_of_scan {bytes rest : List UInt8} {n : Numeral} (h : scan bytes = .ok (n, rest)) :
    Stops n.continues rest := by
  simp only [scan] at h
  split at h
  · simp at h
  · next whole afterWhole hw =>
    split at h
    · simp at h
    · next fraction afterFraction hf =>
      split at h
      · simp at h
      · next exponent rest' he =>
        obtain ⟨rfl, rfl⟩ := Prod.mk.inj (Except.ok.inj h)
        obtain ⟨hfraction, hpoint⟩ := stops_of_scanFraction (stops_of_scanWhole hw) hf
        obtain ⟨hdigit, hletter⟩ := stops_of_scanExponent hfraction he
        intro b hb
        cases exponent with
        | some e => simp [continues, hdigit b hb]
        | none =>
            obtain ⟨rfl, hmarker⟩ := hletter rfl
            have hmarker := not_or.1 (hmarker b hb)
            cases fraction with
            | some digits => simp [continues, hdigit b hb, hmarker]
            | none =>
                have hpoint : b ≠ 0x2e := by
                  rintro rfl
                  exact hpoint rfl hb
                simp [continues, hdigit b hb, hmarker, hpoint]

/-! ### Meaning -/

/-- Digits after others count less by a power of ten. -/
theorem digitsValue_append (a b : List UInt8) :
    digitsValue (a ++ b) = digitsValue a * 10 ^ b.length + digitsValue b := by
  have hfold : ∀ (b : List UInt8) (k : ℕ),
      b.foldl (fun n b => n * 10 + (b.toNat - 0x30)) k = k * 10 ^ b.length + digitsValue b := by
    intro b
    induction b with
    | nil =>
        intro k
        simp [digitsValue]
    | cons d ds ih =>
        intro k
        rw [List.foldl_cons, ih, List.length_cons,
          show digitsValue (d :: ds) = _ from ih (0 * 10 + (d.toNat - 0x30))]
        ring
  rw [digitsValue, List.foldl_append, hfold]
  rfl

/-- The digits and the power of ten of a numeral spell its exact value. -/
theorem toRat_decimal (n : Numeral) : n.decimal.toRat = n.size := by
  have hdecimal : n.decimal = ⟨digitsValue (n.whole ++ n.fraction.getD []),
      n.exponent.elim 0 Exponent.value - (n.fraction.getD []).length⟩ := by
    obtain ⟨negative, whole, fraction, exponent⟩ := n
    cases exponent <;> rfl
  have h10 : (10 : ℚ) ≠ 0 := by norm_num
  have hpow : (10 : ℚ) ^ (n.fraction.getD []).length ≠ 0 := pow_ne_zero _ h10
  rw [hdecimal, Decimal.toRat, size, digitsValue_append, zpow_sub₀ h10, zpow_natCast]
  push_cast
  field_simp

/-- The integer that is computed for a numeral is the one whose text it is. -/
theorem integer?_eq_some_iff {n : Numeral} {i : Int64} :
    n.integer? = some i ↔ n.IsInteger i := by
  have hsize : -2 ^ 63 ≤ i.toInt ∧ i.toInt < 2 ^ 63 := ⟨i.le_toInt, i.toInt_lt⟩
  have hzero : i = 0 ↔ i.toInt = 0 := by rw [← Int64.toInt_inj]; rfl
  have hof : ∀ z : ℤ, -2 ^ 63 ≤ z → z < 2 ^ 63 → (Int64.ofInt z = i ↔ i.toInt = z) := by
    intro z h1 h2
    rw [← Int64.toInt_inj, Int64.toInt_ofInt_of_le h1 h2, eq_comm]
  constructor
  · intro h
    simp only [integer?] at h
    split_ifs at h with hnone hneg hbig hbig
    all_goals
      simp only [not_or, Option.not_isSome_iff_eq_none] at hnone
      rw [Option.some_inj, hof _ (by omega) (by omega)] at h
    · refine ⟨hnone.1, hnone.2, fun h0 => ?_, by rw [signed, if_pos hneg, h]⟩
      rw [hzero] at h0
      omega
    · refine ⟨hnone.1, hnone.2, fun _ => by simpa using hneg, by rw [signed, if_neg hneg, h]⟩
  · rintro ⟨hf, he, hsign, hi⟩
    rw [hzero] at hsign
    rw [signed] at hi
    rw [integer?, hf, he]
    simp only [Option.isSome_none, Bool.false_eq_true, or_self, if_false]
    split_ifs at hi ⊢ with hneg hbig hbig
    · rcases hbig with hbig | hbig
      · simp [hsign (by omega)] at hneg
      · omega
    · rw [(hof _ (by omega) (by omega)).2 hi]
    · omega
    · rw [(hof _ (by omega) (by omega)).2 hi]

/-- **What is computed for a numeral is what it denotes.** -/
theorem value?_eq_some_iff {n : Numeral} {v : Value} : n.value? = some v ↔ n.Denotes v := by
  have hround := Decimal.roundsTo_nearest n.decimal
  rw [toRat_decimal] at hround
  constructor
  · intro h
    rw [value?] at h
    split at h
    · next i hi =>
      rw [← Option.some.inj h]
      exact .integer (integer?_eq_some_iff.1 hi)
    · next hnone =>
      simp only at h
      split_ifs at h with hfinite
      obtain ⟨hlt, hnear⟩ := Binary64.roundsTo_iff_isNearest.1 ⟨hround, hfinite⟩
      rw [← Option.some.inj h]
      refine .real (fun i hi => ?_) hlt hnear
      rw [integer?_eq_some_iff.2 hi] at hnone
      exact Option.some_ne_none i hnone
  · rintro (hi | ⟨hno, hlt, hnear⟩)
    · rw [value?, integer?_eq_some_iff.2 hi]
    · have hnone : n.integer? = none := by
        cases hi : n.integer? with
        | none => rfl
        | some i => exact absurd (integer?_eq_some_iff.1 hi) (hno i)
      obtain ⟨hround', hfinite⟩ := Binary64.roundsTo_iff_isNearest.2 ⟨hlt, hnear⟩
      obtain rfl := hround.unique hround'
      simp only [value?, hnone, if_pos hfinite]

end Numeral

end StrictJson.Syntax
