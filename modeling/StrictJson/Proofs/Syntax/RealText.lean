import Mathlib.Data.List.DropRight
import StrictJson.Proofs.Binary64.Shortest
import StrictJson.Proofs.Syntax.NumberReading
import StrictJson.Proofs.Value.RoundTrip

/-!
# The Text of a Real

The compact text of a finite real, taken as a numeral. Its **significand**, which is all its digits
but the zeros at either end, has as few digits as any number that rounds to the real, and no number
with as many is closer to it. Neither layout adds a digit to it or drops one.

A zero, and any real from a ten-thousandth up to ten to the power 16, is written in full with a
point. All others are written with one digit in front of the point, which is there only if more
digits follow, and with the power of ten of that digit after an `e`. The layout is chosen by the
digits and not by the real. That makes no difference, though digits and real are different numbers,
since both lie on one side of the two bounds.

## Main definitions

* `Numeral.significand`: the digits without the zeros at either end.
* `Numeral.IsShortestFor`: no number with a shorter significand rounds to the real, and none with as
  long a one is closer.
* `Numeral.IsPlain`, `Numeral.IsScientific`: the two layouts.

## Main results

* `significand_decimalNumeral`: the layouts keep the digits.
* `exists_numeral_dump`: the compact text of a finite real is the shortest numeral for it, in the
  layout for its size, and is read back.
-/

namespace StrictJson.Syntax

open Binary64 (HasDigits RoundsTo RoundsToReal withSign value)

/-! ### Zeros at the ends -/

/-- Whether a byte is the digit zero. -/
def isZeroDigit (b : UInt8) : Bool :=
  b == 0x30

/-- The **significand** of a numeral: all digits but the zeros at either end. -/
def Numeral.significand (n : Numeral) : List UInt8 :=
  ((n.whole ++ n.fraction.getD []).dropWhile isZeroDigit).rdropWhile isZeroDigit

/-- A number begins with another digit than zero. -/
theorem stops_isZeroDigit_decimalBytes {n : ℕ} (hn : n ≠ 0) (rest : List UInt8) :
    Stops isZeroDigit (decimalBytes n ++ rest) := by
  obtain ⟨b, bs, hb⟩ := List.exists_cons_of_ne_nil (isDigits_decimalBytes n).ne_nil
  rw [hb, List.cons_append, stops_cons]
  refine beq_eq_false_iff_ne.2 ?_
  rintro rfl
  exact hn (eq_zero_of_decimalBytes_eq_cons hb)

theorem getLast?_decimalBytes (n : ℕ) :
    (decimalBytes n).getLast? = some (UInt8.ofNat (0x30 + n % 10)) := by
  by_cases h : n < 10
  · rw [decimalBytes_of_lt h, Nat.mod_eq_of_lt h, List.getLast?_singleton]
  · rw [decimalBytes_of_le (not_lt.1 h), List.getLast?_concat]

/-- A number that is not divisible by ten ends in another digit than zero. -/
theorem getLast?_decimalBytes_ne {n : ℕ} (h : n % 10 ≠ 0) :
    (decimalBytes n).getLast? ≠ some 0x30 := by
  have hlt : n % 10 < 10 := Nat.mod_lt n (by decide)
  rw [getLast?_decimalBytes]
  generalize n % 10 = r at h hlt
  interval_cases r <;> first | exact absurd rfl h | decide

theorem ne_zero_of_mod_ten {n : ℕ} (h : n % 10 ≠ 0) : n ≠ 0 := by
  rintro rfl
  exact h rfl

/-- Digits that neither begin nor end with a zero are the significand, whatever zeros are around
them. -/
theorem significand_eq {n : Numeral} {k i j : ℕ} (hk : k % 10 ≠ 0)
    (h : n.whole ++ n.fraction.getD [] =
      List.replicate i 0x30 ++ (decimalBytes k ++ List.replicate j 0x30)) :
    n.significand = decimalBytes k := by
  have hzeros : ∀ {l}, ∀ b ∈ List.replicate l (0x30 : UInt8), isZeroDigit b = true := by
    intro l b hb
    rw [List.eq_of_mem_replicate hb]
    rfl
  have hlast : Stops isZeroDigit (decimalBytes k).reverse := by
    intro b hb
    rw [List.head?_reverse, Option.mem_def] at hb
    refine beq_eq_false_iff_ne.2 ?_
    rintro rfl
    exact getLast?_decimalBytes_ne hk hb
  have hfirst := stops_isZeroDigit_decimalBytes (ne_zero_of_mod_ten hk) (List.replicate j 0x30)
  rw [Numeral.significand, h, dropWhile_append_of_stops hzeros hfirst, List.rdropWhile,
    List.reverse_append, List.reverse_replicate, dropWhile_append_of_stops hzeros hlast,
    List.reverse_reverse]

/-- **The layouts keep the digits.** -/
theorem significand_decimalNumeral (style : RealStyle) (negative : Bool) {d : Decimal}
    (hd : d.digits % 10 ≠ 0) :
    (decimalNumeral style negative d).significand = decimalBytes d.digits := by
  rw [decimalNumeral]
  split_ifs
  · refine significand_eq (i := 0) (j := d.exponent.toNat + 1) hd ?_
    rw [List.replicate_succ', List.replicate_zero, List.nil_append, ← List.append_assoc]
    rfl
  · refine significand_eq (i := 0) (j := 0) hd ?_
    rw [Option.getD_some, List.take_append_drop, List.replicate_zero, List.append_nil,
      List.nil_append]
  · refine significand_eq (i := d.leadingExponent.natAbs - 1 + 1) (j := 0) hd ?_
    rw [Option.getD_some, List.replicate_succ, List.replicate_zero, List.append_nil]
    rfl
  · refine significand_eq (i := 0) (j := 0) hd ?_
    rw [getD_optionalFraction, List.take_append_drop, List.replicate_zero, List.append_nil,
      List.nil_append]

/-! ### Shortest numerals -/

/-- A numeral is **shortest** for a real: its exact value rounds to the real, no number with fewer
digits than its significand does, and of those that do with as many none is closer to the real. -/
structure Numeral.IsShortestFor (n : Numeral) (x : Binary64) : Prop where
  rounds : RoundsToReal n.exactValue x
  fewest : ∀ k q, HasDigits k q → RoundsToReal q x → n.significand.length ≤ k
  closest : ∀ q, HasDigits n.significand.length q → RoundsToReal q x →
    |n.exactValue - x.toRat| ≤ |q - x.toRat|

theorem exactValue_decimalNumeral (style : RealStyle) (negative : Bool) (d : Decimal) :
    (decimalNumeral style negative d).exactValue = withSign negative d.toRat := by
  rw [Numeral.exactValue, negative_decimalNumeral, size_decimalNumeral]

variable {x : Binary64}

theorem magnitude_ne_zero (hzero : x.isZero = false) : x.magnitude ≠ 0 := by
  rwa [Binary64.isZero, beq_eq_false_iff_ne] at hzero

/-- **The numeral of the shortest digits is shortest**, in any layout. -/
theorem isShortestFor_decimalNumeral (style : RealStyle) (hx : x.isFinite = true)
    (hzero : x.isZero = false) :
    (decimalNumeral style x.isNegative (.shortest style.tie x.magnitude)).IsShortestFor x := by
  have h0 := magnitude_ne_zero hzero
  have hm := Binary64.magnitude_lt_infinity hx
  have hshort := Decimal.isShortest_shortest style.tie h0 hm
  have hmod := Decimal.digits_shortest_mod style.tie h0 hm
  generalize Decimal.shortest style.tie x.magnitude = d at *
  have hlen : (decimalNumeral style x.isNegative d).significand.length =
      Decimal.length d.digits := by
    rw [significand_decimalNumeral style _ hmod, decimalBytes, List.length_map,
      Decimal.length_toDigits]
  have hnonneg : 0 ≤ d.toRat := by
    rw [Decimal.toRat]
    positivity
  refine ⟨?_, fun k q hq hround => ?_, fun q hq hround => ?_⟩
  · rw [exactValue_decimalNumeral, Binary64.roundsToReal_iff hx hzero,
      Binary64.abs_withSign _ hnonneg]
    exact ⟨rfl, hshort.roundsTo⟩
  · rw [hlen]
    exact Binary64.length_le_of_hasDigits hshort hx hzero hq hround
  · rw [hlen] at hq
    rw [exactValue_decimalNumeral]
    exact Binary64.dist_le_of_hasDigits hshort hx hzero hq hround

/-! ### Layouts -/

/-- A numeral is written **in full**: it has a point and no exponent, and after the point a single
zero or digits that do not end in one. -/
structure Numeral.IsPlain (n : Numeral) : Prop where
  exponent : n.exponent = none
  fraction : ∃ digits, n.fraction = some digits ∧ digits ≠ [] ∧
    (digits = [0x30] ∨ digits.getLast? ≠ some 0x30)

/-- A numeral is written **with a power of ten**: it has one digit, after the point there are digits
that do not end in a zero if there is a point, and after an `e` stands the power of ten of the
leading digit, with a sign only if it is negative. -/
structure Numeral.IsScientific (n : Numeral) : Prop where
  whole : n.whole.length = 1
  fraction : ∀ digits ∈ n.fraction, digits.getLast? ≠ some 0x30
  exponent : ∃ k : ℤ, n.exponent = some ⟨0x65, if k < 0 then some 0x2d else none,
    decimalBytes k.natAbs⟩ ∧ 10 ^ k ≤ |n.exactValue| ∧ |n.exactValue| < 10 ^ (k + 1)

/-- A numeral with a power of ten is not written in full. -/
theorem Numeral.IsScientific.not_isPlain {n : Numeral} (h : n.IsScientific) : ¬ n.IsPlain := by
  intro hplain
  obtain ⟨k, hk, -⟩ := h.exponent
  rw [hplain.exponent] at hk
  exact Option.some_ne_none _ hk.symm

/-- Digits of a number after the first few do not end in a zero, unless there are none. -/
theorem getLast?_drop_decimalBytes_ne {k : ℕ} (hk : k % 10 ≠ 0) (n : ℕ) :
    ((decimalBytes k).drop n).getLast? ≠ some 0x30 := by
  rw [List.getLast?_drop]
  split_ifs
  · exact (Option.some_ne_none _).symm
  · exact getLast?_decimalBytes_ne hk

/-- Numbers of ordinary size are written in full. -/
theorem isPlain_decimalNumeral {style : RealStyle} (negative : Bool) {d : Decimal}
    (hd : d.digits % 10 ≠ 0)
    (hplain : style.leastPlain ≤ d.leadingExponent ∧ d.leadingExponent < 16) :
    (decimalNumeral style negative d).IsPlain := by
  have hwell := (wellFormed_decimalNumeral style negative (ne_zero_of_mod_ten hd)).fraction
  rw [decimalNumeral, if_pos hplain] at hwell ⊢
  split_ifs at hwell ⊢
  · exact ⟨rfl, _, rfl, (hwell _ rfl).ne_nil, .inl rfl⟩
  · exact ⟨rfl, _, rfl, (hwell _ rfl).ne_nil, .inr (getLast?_drop_decimalBytes_ne hd _)⟩
  · refine ⟨rfl, _, rfl, (hwell _ rfl).ne_nil, .inr ?_⟩
    rw [List.getLast?_append_of_ne_nil _ (isDigits_decimalBytes _).ne_nil]
    exact getLast?_decimalBytes_ne hd

/-- All other numbers are written with a power of ten. -/
theorem isScientific_decimalNumeral {style : RealStyle} (negative : Bool) {d : Decimal}
    (hd : d.digits % 10 ≠ 0) (hsign : style.plusSign = false)
    (hplain : ¬ (style.leastPlain ≤ d.leadingExponent ∧ d.leadingExponent < 16)) :
    (decimalNumeral style negative d).IsScientific := by
  have hsize : |(decimalNumeral style negative d).exactValue| = d.toRat := by
    rw [Numeral.abs_exactValue, size_decimalNumeral]
  refine ⟨?_, fun digits hfraction => ?_, d.leadingExponent, ?_, ?_⟩
  · rw [decimalNumeral, if_neg hplain, List.length_take]
    have := List.length_pos_iff.2 (isDigits_decimalBytes d.digits).ne_nil
    omega
  · rw [decimalNumeral, if_neg hplain, optionalFraction] at hfraction
    split_ifs at hfraction
    · exact absurd hfraction (Option.not_mem_none _)
    · obtain rfl := Option.mem_some.1 hfraction
      exact getLast?_drop_decimalBytes_ne hd 1
  · rw [decimalNumeral, if_neg hplain, styledExponent, hsign, if_neg Bool.false_ne_true]
  · rw [hsize]
    exact Decimal.leadingExponent_spec (ne_zero_of_mod_ten hd)

/-! ### The text -/

theorem realNumeral_of_not_zero (style : RealStyle) (hzero : x.isZero = false) :
    realNumeral style x = decimalNumeral style x.isNegative (.shortest style.tie x.magnitude) := by
  rw [realNumeral, hzero, if_neg Bool.false_ne_true]

/-- The layout of a finite real depends on its size. -/
theorem layout_realNumeral (hx : x.isFinite = true) :
    ((realNumeral .compact x).IsPlain ↔
      x.isZero = true ∨ (10 : ℚ) ^ (-4 : ℤ) ≤ |x.toRat| ∧ |x.toRat| < 10 ^ (16 : ℤ)) ∧
    (¬ (realNumeral .compact x).IsPlain → (realNumeral .compact x).IsScientific) := by
  cases hzero : x.isZero with
  | true =>
      have hplain : (realNumeral .compact x).IsPlain := by
        rw [realNumeral, if_pos hzero]
        exact ⟨rfl, _, rfl, isDigits_zero.ne_nil, .inl rfl⟩
      exact ⟨iff_of_true hplain (.inl rfl), fun hno => absurd hplain hno⟩
  | false =>
      have h0 := magnitude_ne_zero hzero
      have hm := Binary64.magnitude_lt_infinity hx
      have hmod := Decimal.digits_shortest_mod RealStyle.compact.tie h0 hm
      have hiff := Decimal.plain_shortest_iff RealStyle.compact.tie h0 hm
      rw [Binary64.abs_toRat, ← hiff, realNumeral_of_not_zero .compact hzero]
      by_cases hplain : -4 ≤ (Decimal.shortest RealStyle.compact.tie x.magnitude).leadingExponent ∧
          (Decimal.shortest RealStyle.compact.tie x.magnitude).leadingExponent < 16
      · have h : (decimalNumeral .compact x.isNegative _).IsPlain :=
          isPlain_decimalNumeral x.isNegative hmod hplain
        exact ⟨iff_of_true h (.inr hplain), fun hno => absurd h hno⟩
      · have h : (decimalNumeral .compact x.isNegative _).IsScientific :=
          isScientific_decimalNumeral x.isNegative hmod rfl hplain
        exact ⟨iff_of_false h.not_isPlain (not_or.2 ⟨Bool.false_ne_true, hplain⟩), fun _ => h⟩

/-- **The compact text of a finite real.** It is a numeral of the grammar with a point or an
exponent, it is read back as the real to the last bit wherever it stops, it is shortest for the
real, and the size of the real settles its layout. -/
theorem exists_numeral_dump (hx : x.isFinite = true) :
    ∃ n : Numeral, n.text = Utf8.ofString (Value.real x).dump ∧ n.WellFormed ∧
      (n.fraction.isSome = true ∨ n.exponent.isSome = true) ∧
      (∀ p rest, Stops n.continues rest →
        readNumber ⟨p, n.text ++ rest⟩ = .ok (.real x, ⟨p + n.text.length, rest⟩)) ∧
      (x.isZero = false → n.IsShortestFor x) ∧
      (n.IsPlain ↔
        x.isZero = true ∨ (10 : ℚ) ^ (-4 : ℤ) ≤ |x.toRat| ∧ |x.toRat| < 10 ^ (16 : ℤ)) ∧
      (¬ n.IsPlain → n.IsScientific) := by
  obtain ⟨hplain, hscientific⟩ := layout_realNumeral hx
  refine ⟨realNumeral .compact x, ?_, wellFormed_realNumeral hx, ?_, fun p rest hrest =>
    readNumber_append (realToken .compact x hx) hrest p, fun hzero => ?_, hplain, hscientific⟩
  · rw [Value.ofString_dump]
    exact text_realToken .compact x hx
  · by_cases h : (realNumeral .compact x).IsPlain
    · obtain ⟨digits, hdigits, -⟩ := h.fraction
      exact .inl (Option.isSome_iff_exists.2 ⟨digits, hdigits⟩)
    · obtain ⟨k, hk, -⟩ := (hscientific h).exponent
      exact .inr (Option.isSome_iff_exists.2 ⟨_, hk⟩)
  · rw [realNumeral_of_not_zero .compact hzero]
    exact isShortestFor_decimalNumeral .compact hx hzero

/-- The least positive real is written with a single digit, since that is all it takes to round to
it, though its value has hundreds of them. -/
theorem exists_numeral_dump_least :
    Binary64.isFinite ⟨1⟩ = true ∧
    ∃ n : Numeral, n.text = [0x35, 0x65, 0x2d, 0x33, 0x32, 0x34] ∧ n.IsShortestFor ⟨1⟩ ∧
      readNumber ⟨0, n.text⟩ = .ok (.real ⟨1⟩, ⟨6, []⟩) := by
  have hfinite : Binary64.isFinite ⟨1⟩ = true := by decide
  have htext : Utf8.ofString (Value.real ⟨1⟩).dump = [0x35, 0x65, 0x2d, 0x33, 0x32, 0x34] := by
    rw [Value.ofString_dump]
    decide +kernel
  obtain ⟨n, hn, -, -, hread, hshort, -, -⟩ := exists_numeral_dump hfinite
  have hback := hread 0 [] (stops_nil _)
  rw [htext] at hn
  rw [List.append_nil, hn] at hback
  exact ⟨hfinite, n, hn, hshort (by decide), hn ▸ hback⟩

end StrictJson.Syntax
