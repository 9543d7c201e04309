import StrictJson.Proofs.Syntax.Token
import StrictJson.Value.Writer

/-!
# The Text of Numbers

The compact text of an integer and of a finite real is a numeral of the grammar, and it denotes the
number itself. An integer is written with its decimal digits and nothing else. A real is written
with a point or an exponent, so it is never taken for an integer, and the digits are those of a
decimal number that rounds to it, so nothing of it is lost.

## Main results

* `text_integerToken`: the text of an integer is a numeral that denotes it.
* `denotes_decimalNumeral`: digits that are read as a real denote it, in any layout.
* `text_realToken`: the text of a finite real is a numeral that denotes it.
-/

namespace StrictJson.Syntax

/-! ### ASCII -/

/-- The byte of an ASCII character. -/
def asciiByte (c : Char) : UInt8 :=
  UInt8.ofNat c.toNat

/-- All characters are **ASCII**. -/
def IsAscii (chars : List Char) : Prop :=
  ∀ c ∈ chars, c.toNat < 0x80

@[simp] theorem isAscii_nil : IsAscii [] := List.forall_mem_nil _

@[simp] theorem isAscii_cons {c : Char} {chars : List Char} :
    IsAscii (c :: chars) ↔ c.toNat < 0x80 ∧ IsAscii chars := List.forall_mem_cons

@[simp] theorem isAscii_append {chars more : List Char} :
    IsAscii (chars ++ more) ↔ IsAscii chars ∧ IsAscii more := List.forall_mem_append

/-- ASCII characters take one byte each. -/
theorem encodeChars_of_isAscii {chars : List Char} (h : IsAscii chars) :
    Utf8.encodeChars chars = chars.map asciiByte := by
  induction chars with
  | nil => rfl
  | cons c cs ih =>
      rw [isAscii_cons] at h
      rw [Utf8.encodeChars, List.flatMap_cons, Utf8.encodeChar_of_lt h.1, ← Utf8.encodeChars,
        ih h.2]
      rfl

/-! ### Figures -/

/-- The characters of which numbers are written, the **figures**: digits, the point, the letter
before a power of ten, and the signs. -/
def IsFigure (c : Char) : Prop :=
  c.isDigit = true ∨ c ∈ ['.', 'e', '+', '-']

/-- Figures lie between the plus sign and the letter. -/
theorem IsFigure.bounds {c : Char} (h : IsFigure c) : 0x2b ≤ c.toNat ∧ c.toNat ≤ 0x65 := by
  rcases h with hdigit | hmark
  · have hzero : '0'.toNat = 0x30 := rfl
    have hnine : '9'.toNat = 0x39 := rfl
    rw [Char.isDigit_iff_toNat] at hdigit
    omega
  · simp only [List.mem_cons, List.not_mem_nil, or_false] at hmark
    rcases hmark with rfl | rfl | rfl | rfl <;> decide

/-- A number is written in decimal figures. -/
theorem isFigure_of_mem_toDigits {n : ℕ} {c : Char} (h : c ∈ Nat.toDigits 10 n) : IsFigure c :=
  .inl (Nat.isDigit_of_mem_toDigits (by decide) (by decide) h)

/-- **A decimal number is written in figures**, in any layout. -/
theorem isFigure_of_mem_decimalText {style : RealStyle} {d : Decimal} {c : Char}
    (h : c ∈ d.text style) : IsFigure c := by
  have hmark : c = '.' ∨ c = 'e' ∨ c = '+' ∨ c = '-' → IsFigure c := fun hc => .inr (by simp [hc])
  have hzero : c = '0' → IsFigure c := fun hc => .inl (hc ▸ rfl)
  have hdigits : c ∈ d.digitText → IsFigure c := isFigure_of_mem_toDigits
  have htake : ∀ {n}, c ∈ d.digitText.take n → IsFigure c := fun hc =>
    hdigits (List.mem_of_mem_take hc)
  have hdrop : ∀ {n}, c ∈ d.digitText.drop n → IsFigure c := fun hc =>
    hdigits (List.mem_of_mem_drop hc)
  have hzeros : ∀ {n}, c ∈ List.replicate n '0' → IsFigure c := fun hc =>
    hzero (List.eq_of_mem_replicate hc)
  rw [Decimal.text] at h
  split at h
  · rw [Decimal.plainText] at h
    split_ifs at h
    · simp only [List.mem_append, List.mem_cons, List.not_mem_nil, or_false] at h
      rcases h with (hc | hc) | hc | hc
      · exact hdigits hc
      · exact hzeros hc
      · exact hmark (.inl hc)
      · exact hzero hc
    · simp only [List.mem_append, List.mem_cons] at h
      rcases h with hc | hc | hc
      · exact htake hc
      · exact hmark (.inl hc)
      · exact hdrop hc
    · simp only [List.mem_append, List.mem_cons, List.not_mem_nil, or_false] at h
      rcases h with ((hc | hc) | hc) | hc
      · exact hzero hc
      · exact hmark (.inl hc)
      · exact hzeros hc
      · exact hdigits hc
  · rw [Decimal.scientificText] at h
    simp only [List.mem_append, List.mem_singleton] at h
    rcases h with (((hc | hc) | hc) | hc) | hc
    · exact htake hc
    · split_ifs at hc
      · exact absurd hc List.not_mem_nil
      · rcases List.mem_cons.1 hc with hc | hc
        · exact hmark (.inl hc)
        · exact hdrop hc
    · exact hmark (.inr (.inl hc))
    · split_ifs at hc
      · exact hmark (.inr (.inr (.inr (List.mem_singleton.1 hc))))
      · exact hmark (.inr (.inr (.inl (List.mem_singleton.1 hc))))
      · exact absurd hc List.not_mem_nil
    · exact isFigure_of_mem_toDigits hc

/-- Decimal digits are ASCII. -/
theorem isAscii_toDigits (n : ℕ) : IsAscii (Nat.toDigits 10 n) := by
  intro c hc
  have hbounds := (isFigure_of_mem_toDigits hc).bounds
  omega

/-- The text of a decimal number is ASCII. -/
theorem isAscii_decimalText (style : RealStyle) (d : Decimal) : IsAscii (d.text style) := by
  intro c hc
  have hbounds := (isFigure_of_mem_decimalText hc).bounds
  omega

/-! ### Decimal digits -/

/-- The decimal digits of a number, as bytes. -/
def decimalBytes (n : ℕ) : List UInt8 :=
  (Nat.toDigits 10 n).map asciiByte

/-- The byte of one decimal digit. -/
theorem asciiByte_digitChar {n : ℕ} (h : n < 10) :
    asciiByte n.digitChar = UInt8.ofNat (0x30 + n) := by
  interval_cases n <;> rfl

/-- The last digit is the remainder by ten. -/
theorem decimalBytes_of_le {n : ℕ} (h : 10 ≤ n) :
    decimalBytes n = decimalBytes (n / 10) ++ [UInt8.ofNat (0x30 + n % 10)] := by
  rw [decimalBytes, Nat.toDigits_of_base_le (by decide) h, List.map_append, List.map_singleton,
    asciiByte_digitChar (Nat.mod_lt n (by decide)), decimalBytes]

theorem decimalBytes_of_lt {n : ℕ} (h : n < 10) : decimalBytes n = [UInt8.ofNat (0x30 + n)] := by
  rw [decimalBytes, Nat.toDigits_of_lt_base h, List.map_singleton, asciiByte_digitChar h]

/-- The single digit zero. -/
theorem isDigits_zero : IsDigits [0x30] :=
  ⟨List.cons_ne_nil _ _, List.forall_mem_singleton.2 rfl⟩

theorem isDigit_ofNat {n : ℕ} (h : n < 10) : isDigit (UInt8.ofNat (0x30 + n)) = true := by
  interval_cases n <;> rfl

theorem isDigits_decimalBytes (n : ℕ) : IsDigits (decimalBytes n) := by
  induction n using Nat.strong_induction_on with
  | _ n ih =>
      by_cases h : n < 10
      · rw [decimalBytes_of_lt h]
        exact ⟨List.cons_ne_nil _ _, List.forall_mem_singleton.2 (isDigit_ofNat h)⟩
      · rw [decimalBytes_of_le (Nat.le_of_not_lt h)]
        have hrest := ih (n / 10) (by omega)
        refine ⟨List.append_ne_nil_of_left_ne_nil hrest.ne_nil _, ?_⟩
        refine List.forall_mem_append.2 ⟨hrest.isDigit, List.forall_mem_singleton.2 ?_⟩
        exact isDigit_ofNat (Nat.mod_lt n (by decide))

/-- Decimal digits spell their number. -/
theorem digitsValue_decimalBytes (n : ℕ) : digitsValue (decimalBytes n) = n := by
  have hone : ∀ {m : ℕ}, m < 10 → digitsValue [UInt8.ofNat (0x30 + m)] = m := by
    intro m hm
    interval_cases m <;> rfl
  induction n using Nat.strong_induction_on with
  | _ n ih =>
      by_cases h : n < 10
      · rw [decimalBytes_of_lt h, hone h]
      · rw [decimalBytes_of_le (Nat.le_of_not_lt h), Numeral.digitsValue_append,
          ih (n / 10) (by omega), hone (Nat.mod_lt n (by decide)), List.length_singleton]
        omega

/-- Only zero is written with a zero in front. -/
theorem eq_zero_of_decimalBytes_eq_cons {n : ℕ} {digits : List UInt8}
    (h : decimalBytes n = 0x30 :: digits) : n = 0 := by
  induction n using Nat.strong_induction_on generalizing digits with
  | _ n ih =>
      by_cases hlt : n < 10
      · rw [decimalBytes_of_lt hlt, List.cons.injEq] at h
        have h1 := h.1
        interval_cases n <;> first | rfl | exact absurd h1 (by decide)
      · have hle := Nat.le_of_not_lt hlt
        rw [decimalBytes_of_le hle] at h
        obtain ⟨b, bs, hb⟩ := List.exists_cons_of_ne_nil (isDigits_decimalBytes (n / 10)).ne_nil
        rw [hb, List.cons_append, List.cons.injEq] at h
        have := ih (n / 10) (by omega) (h.1 ▸ hb)
        omega

/-- Decimal digits have no leading zero. -/
theorem decimalBytes_leadingZero (n : ℕ) (digits : List UInt8)
    (h : decimalBytes n = 0x30 :: digits) : digits = [] := by
  rw [eq_zero_of_decimalBytes_eq_cons h] at h
  exact (List.cons.inj h).2.symm

/-! ### Integers -/

/-- The numeral of an integer. -/
def integerNumeral (n : Int64) : Numeral :=
  ⟨n.toInt < 0, decimalBytes n.toInt.natAbs, none, none⟩

/-- The numeral of an integer denotes it. -/
theorem denotes_integerNumeral (n : Int64) : (integerNumeral n).Denotes (.integer n) := by
  refine .integer ⟨rfl, rfl, ?_, ?_⟩
  · rintro rfl
    rfl
  · rw [Numeral.signed, integerNumeral, digitsValue_decimalBytes]
    simp only [decide_eq_true_eq]
    split_ifs <;> omega

theorem wellFormed_integerNumeral (n : Int64) : (integerNumeral n).WellFormed where
  whole := isDigits_decimalBytes _
  leadingZero := decimalBytes_leadingZero _
  fraction := fun _ h => absurd h (Option.not_mem_none _)
  exponent := fun _ h => absurd h (Option.not_mem_none _)

/-- The **token of an integer**. -/
def integerToken (n : Int64) : NumberToken :=
  ⟨integerNumeral n, .integer n, wellFormed_integerNumeral n, denotes_integerNumeral n⟩

/-- The text of an integer is its token. -/
theorem text_integerToken (n : Int64) :
    (integerToken n).text = Utf8.encodeChars (integerText n) := by
  have hascii : IsAscii (integerText n) := by
    refine isAscii_append.2 ⟨?_, isAscii_toDigits _⟩
    split_ifs <;> simp
  rw [encodeChars_of_isAscii hascii]
  simp only [NumberToken.text, integerToken, integerNumeral, Numeral.text, Numeral.fractionText,
    Numeral.exponentText, integerText, decimalBytes, List.append_nil, List.map_append,
    decide_eq_true_eq]
  split_ifs <;> rfl

/-! ### Reals -/

/-- Digits after the point, if there are any. -/
def optionalFraction (digits : List UInt8) : Option (List UInt8) :=
  if digits.isEmpty then none else some digits

/-- The exponent of a numeral in a style. -/
def styledExponent (style : RealStyle) (k : ℤ) : Exponent :=
  ⟨0x65, if k < 0 then some 0x2d else if style.plusSign then some 0x2b else none,
    decimalBytes k.natAbs⟩

/-- The numeral of a decimal number in the layout of a style. -/
def decimalNumeral (style : RealStyle) (negative : Bool) (d : Decimal) : Numeral :=
  let digits := decimalBytes d.digits
  let k := d.leadingExponent
  if style.leastPlain ≤ k ∧ k < 16 then
    if 0 ≤ d.exponent then
      ⟨negative, digits ++ List.replicate d.exponent.toNat 0x30, some [0x30], none⟩
    else if 0 ≤ k then
      ⟨negative, digits.take (k.toNat + 1), some (digits.drop (k.toNat + 1)), none⟩
    else ⟨negative, [0x30], some (List.replicate (k.natAbs - 1) 0x30 ++ digits), none⟩
  else
    ⟨negative, digits.take 1, optionalFraction (digits.drop 1), some (styledExponent style k)⟩

theorem getD_optionalFraction (digits : List UInt8) :
    (optionalFraction digits).getD [] = digits := by
  cases digits <;> rfl

theorem wellFormed_styledExponent (style : RealStyle) (k : ℤ) :
    (styledExponent style k).WellFormed := by
  refine ⟨.inl rfl, fun b hb => ?_, isDigits_decimalBytes _⟩
  simp only [styledExponent] at hb
  split_ifs at hb
  · exact .inr (Option.mem_some.1 hb).symm
  · exact .inl (Option.mem_some.1 hb).symm
  · exact absurd hb (Option.not_mem_none _)

/-- The exponent asks for the power of ten that it is made for. -/
theorem value_styledExponent (style : RealStyle) (k : ℤ) : (styledExponent style k).value = k := by
  rw [Exponent.value]
  simp only [styledExponent, digitsValue_decimalBytes]
  by_cases hk : k < 0
  · rw [if_pos hk, if_pos rfl]
    omega
  · rw [if_neg hk, if_neg]
    · omega
    · split_ifs <;> decide

theorem length_decimalBytes (d : Decimal) : (decimalBytes d.digits).length = d.digitText.length :=
  List.length_map _

theorem isDigits_take {digits : List UInt8} (h : IsDigits digits) {n : ℕ} (hn : 0 < n) :
    IsDigits (digits.take n) := by
  refine ⟨?_, fun b hb => h.isDigit b (List.mem_of_mem_take hb)⟩
  rw [Ne, List.take_eq_nil_iff]
  exact not_or.2 ⟨hn.ne', h.ne_nil⟩

theorem isDigits_drop {digits : List UInt8} (h : IsDigits digits) {n : ℕ}
    (hn : n < digits.length) : IsDigits (digits.drop n) := by
  refine ⟨?_, fun b hb => h.isDigit b (List.mem_of_mem_drop hb)⟩
  rw [Ne, List.drop_eq_nil_iff]
  omega

theorem isDigit_of_mem_replicate {n : ℕ} {b : UInt8} (h : b ∈ List.replicate n 0x30) :
    isDigit b = true := by
  rw [List.eq_of_mem_replicate h]
  rfl

/-- The numeral of a decimal number is one of the grammar. -/
theorem wellFormed_decimalNumeral (style : RealStyle) (negative : Bool) {d : Decimal}
    (hd : d.digits ≠ 0) : (decimalNumeral style negative d).WellFormed := by
  have hdigits := isDigits_decimalBytes d.digits
  have hlen := length_decimalBytes d
  have hexp : d.leadingExponent = d.exponent + d.digitText.length - 1 := rfl
  obtain ⟨b, bs, hb⟩ := List.exists_cons_of_ne_nil hdigits.ne_nil
  have hlead : b ≠ 0x30 := fun h => hd (eq_zero_of_decimalBytes_eq_cons (h ▸ hb))
  rw [decimalNumeral]
  split_ifs with hplain hnonneg hk
  · refine ⟨⟨List.append_ne_nil_of_left_ne_nil hdigits.ne_nil _, ?_⟩, ?_, ?_, ?_⟩
    · exact List.forall_mem_append.2 ⟨hdigits.isDigit, fun b hb => isDigit_of_mem_replicate hb⟩
    · intro rest h
      rw [hb, List.cons_append, List.cons.injEq] at h
      exact absurd h.1 hlead
    · rintro _ ⟨rfl⟩
      exact isDigits_zero
    · exact fun _ h => absurd h (Option.not_mem_none _)
  · refine ⟨isDigits_take hdigits (Nat.succ_pos _), ?_, ?_, ?_⟩
    · intro rest h
      rw [hb, List.take_succ_cons, List.cons.injEq] at h
      exact absurd h.1 hlead
    · rintro _ ⟨rfl⟩
      exact isDigits_drop hdigits (by omega)
    · exact fun _ h => absurd h (Option.not_mem_none _)
  · refine ⟨isDigits_zero, fun rest h => (List.cons.inj h).2.symm, ?_, ?_⟩
    · rintro _ ⟨rfl⟩
      refine ⟨List.append_ne_nil_of_right_ne_nil _ hdigits.ne_nil, ?_⟩
      exact List.forall_mem_append.2 ⟨fun b hb => isDigit_of_mem_replicate hb, hdigits.isDigit⟩
    · exact fun _ h => absurd h (Option.not_mem_none _)
  · refine ⟨isDigits_take hdigits Nat.one_pos, ?_, ?_, ?_⟩
    · intro rest h
      rw [hb, List.take_succ_cons, List.cons.injEq] at h
      exact absurd h.1 hlead
    · intro fraction h
      simp only [optionalFraction] at h
      split_ifs at h with hempty
      · exact absurd h (Option.not_mem_none _)
      · obtain rfl := Option.mem_some.1 h
        refine ⟨fun hnil => hempty (by rw [hnil]; rfl), fun b hb => ?_⟩
        exact hdigits.isDigit b (List.mem_of_mem_drop hb)
    · rintro _ ⟨rfl⟩
      exact wellFormed_styledExponent style _

/-- The value of zeros in front of digits. -/
theorem digitsValue_replicate (n : ℕ) : digitsValue (List.replicate n 0x30) = 0 := by
  induction n with
  | zero => rfl
  | succ n ih =>
      rw [List.replicate_succ', Numeral.digitsValue_append, ih]
      rfl

/-- **The numeral of a decimal number has its value.** -/
theorem size_decimalNumeral (style : RealStyle) (negative : Bool) (d : Decimal) :
    (decimalNumeral style negative d).size = d.toRat := by
  have hlen := length_decimalBytes d
  have hvalue := digitsValue_decimalBytes d.digits
  have hexp : d.leadingExponent = d.exponent + d.digitText.length - 1 := rfl
  have hpos : 0 < d.digitText.length :=
    hlen ▸ List.length_pos_iff.2 (isDigits_decimalBytes _).ne_nil
  rw [← Numeral.toRat_decimal, decimalNumeral]
  split_ifs with hplain hnonneg hk
  · have hdecimal : Numeral.decimal
        ⟨negative, decimalBytes d.digits ++ List.replicate d.exponent.toNat 0x30, some [0x30],
          none⟩ = ⟨d.digits * 10 ^ d.exponent.toNat * 10, -1⟩ := by
      simp only [Numeral.decimal, Option.getD_some, Numeral.digitsValue_append, hvalue,
        digitsValue_replicate, List.length_replicate]
      rfl
    have he : d.exponent = (d.exponent.toNat : ℤ) := (Int.toNat_of_nonneg hnonneg).symm
    rw [hdecimal, Decimal.toRat, Decimal.toRat, he, zpow_natCast, Int.toNat_natCast]
    push_cast
    rw [zpow_neg_one, mul_assoc, mul_inv_cancel₀ (by norm_num), mul_one]
  · congr 1
    simp only [Numeral.decimal, Option.getD_some, List.take_append_drop, hvalue, List.length_drop,
      hlen]
    have he : 0 - ((d.digitText.length - (d.leadingExponent.toNat + 1) : ℕ) : ℤ) = d.exponent := by
      omega
    rw [he]
  · congr 1
    have hzero : digitsValue [0x30] = 0 := rfl
    simp only [Numeral.decimal, Option.getD_some, Numeral.digitsValue_append, hvalue, hzero,
      digitsValue_replicate, List.length_append, List.length_replicate, hlen, Nat.zero_mul,
      Nat.zero_add]
    have he : 0 - ((d.leadingExponent.natAbs - 1 + d.digitText.length : ℕ) : ℤ) = d.exponent := by
      omega
    rw [he]
  · congr 1
    simp only [Numeral.decimal, getD_optionalFraction, value_styledExponent,
      List.take_append_drop, hvalue, List.length_drop, hlen]
    have he : d.leadingExponent - ((d.digitText.length - 1 : ℕ) : ℤ) = d.exponent := by
      omega
    rw [he]

/-- The text of a decimal number is its numeral. -/
theorem text_decimalNumeral (style : RealStyle) (negative : Bool) (d : Decimal) :
    (decimalNumeral style negative d).text =
      Utf8.encodeChars ((if negative then ['-'] else []) ++ d.text style) := by
  have hsign : IsAscii (if negative then ['-'] else []) := by
    split_ifs <;> simp
  have hminus : (if negative then ['-'] else []).map asciiByte =
      if negative then [0x2d] else [] := by
    cases negative <;> rfl
  rw [encodeChars_of_isAscii (isAscii_append.2 ⟨hsign, isAscii_decimalText style d⟩),
    List.map_append, hminus]
  have hdigits : d.digitText.map asciiByte = decimalBytes d.digits := rfl
  have hzero : asciiByte '0' = 0x30 := rfl
  by_cases hplain : style.leastPlain ≤ d.leadingExponent ∧ d.leadingExponent < 16
  · simp only [decimalNumeral, Decimal.text, Decimal.plainText, if_pos hplain]
    by_cases hnonneg : 0 ≤ d.exponent
    · simp only [if_pos hnonneg, Numeral.text, Numeral.fractionText, Numeral.exponentText,
        List.append_nil, List.map_append, List.map_replicate, hdigits, hzero, List.append_assoc]
      rfl
    · by_cases hk : 0 ≤ d.leadingExponent
      · simp only [if_neg hnonneg, if_pos hk, Numeral.text, Numeral.fractionText,
          Numeral.exponentText, List.append_nil, List.map_append, List.map_cons, List.map_take,
          List.map_drop, hdigits, List.append_assoc]
        rfl
      · simp only [if_neg hnonneg, if_neg hk, Numeral.text, Numeral.fractionText,
          Numeral.exponentText, List.append_nil, List.map_append, List.map_replicate, hdigits,
          hzero, List.append_assoc]
        rfl
  · have hfraction : Numeral.fractionText (optionalFraction ((decimalBytes d.digits).drop 1)) =
        (if (d.digitText.drop 1).isEmpty then [] else '.' :: d.digitText.drop 1).map asciiByte := by
      rw [← hdigits, ← List.map_drop]
      cases d.digitText.drop 1 <;> rfl
    have hexponent : (styledExponent style d.leadingExponent).text = 0x65 ::
        ((if d.leadingExponent < 0 then ['-'] else if style.plusSign then ['+'] else []).map
          asciiByte ++ decimalBytes d.leadingExponent.natAbs) := by
      rw [Exponent.text, styledExponent]
      simp only
      split_ifs <;> rfl
    simp only [decimalNumeral, Decimal.text, Decimal.scientificText, if_neg hplain, Numeral.text,
      Numeral.exponentText, hfraction, hexponent, List.map_append, List.map_take, hdigits,
      List.append_assoc]
    rfl

/-- A numeral of a decimal number is no integer. -/
theorem not_isInteger_decimalNumeral (style : RealStyle) (negative : Bool) (d : Decimal)
    (i : Int64) : ¬ (decimalNumeral style negative d).IsInteger i := by
  rintro ⟨hfraction, hexponent, -, -⟩
  rw [decimalNumeral] at hfraction hexponent
  split_ifs at hfraction hexponent

/-- The numeral of a finite real. -/
def realNumeral (style : RealStyle) (x : Binary64) : Numeral :=
  if x.isZero then ⟨x.isNegative, [0x30], some [0x30], none⟩
  else decimalNumeral style x.isNegative (.shortest style.tie x.magnitude)

/-- The numeral of a finite real has a value that rounds to it. -/
theorem roundsTo_realNumeral {style : RealStyle} {x : Binary64} (hx : x.isFinite = true) :
    Binary64.RoundsTo (realNumeral style x).size x.magnitude := by
  rw [Binary64.isFinite, decide_eq_true_eq] at hx
  rw [realNumeral]
  split_ifs with hzero
  · have hmagnitude : x.magnitude = 0 := by simpa [Binary64.isZero] using hzero
    have hsize : Numeral.size ⟨x.isNegative, [0x30], some [0x30], none⟩ = Binary64.value 0 := by
      rw [Binary64.value_zero, Numeral.size]
      have h0 : digitsValue [0x30] = 0 := rfl
      simp [h0]
    rw [hsize, hmagnitude]
    exact Binary64.roundsTo_value (hmagnitude ▸ hx)
  · rw [size_decimalNumeral]
    have hround := Decimal.roundsTo_nearest (.shortest style.tie x.magnitude)
    rwa [Decimal.nearest_shortest style.tie hx] at hround

theorem wellFormed_realNumeral {style : RealStyle} {x : Binary64} (hx : x.isFinite = true) :
    (realNumeral style x).WellFormed := by
  rw [realNumeral]
  split_ifs with hzero
  · refine ⟨isDigits_zero, fun rest h => (List.cons.inj h).2.symm, ?_, ?_⟩
    · rintro _ ⟨rfl⟩
      exact isDigits_zero
    · exact fun _ h => absurd h (Option.not_mem_none _)
  · refine wellFormed_decimalNumeral style x.isNegative fun hdigits => ?_
    rw [Binary64.isFinite, decide_eq_true_eq] at hx
    have hnearest := Decimal.nearest_shortest style.tie hx
    rw [Decimal.nearest, if_pos hdigits] at hnearest
    exact hzero (by rw [Binary64.isZero, ← hnearest]; rfl)

/-- A finite real is written with a point or an exponent, so its numeral is no integer. -/
theorem not_isInteger_realNumeral (style : RealStyle) (x : Binary64) (i : Int64) :
    ¬ (realNumeral style x).IsInteger i := by
  rw [realNumeral]
  split_ifs with hzero
  · rintro ⟨hfraction, -, -, -⟩
    simp at hfraction
  · exact not_isInteger_decimalNumeral style x.isNegative _ i

/-- A numeral that is no integer and whose value rounds to a finite real of its sign denotes the
real. -/
theorem denotes_of_roundsTo {n : Numeral} {x : Binary64} (hx : x.isFinite = true)
    (hno : ∀ i, ¬ n.IsInteger i) (hsign : n.negative = x.isNegative)
    (hround : Binary64.RoundsTo n.size x.magnitude) : n.Denotes (.real x) := by
  have hfinite : x.magnitude < Binary64.infinity := by
    rwa [Binary64.isFinite, decide_eq_true_eq] at hx
  obtain ⟨hsize, hnearest⟩ := Binary64.roundsTo_iff_isNearest.1 ⟨hround, hfinite⟩
  have hdenotes := Numeral.Denotes.real hno hsize hnearest
  rwa [hsign, Binary64.ofParts_parts] at hdenotes

theorem negative_decimalNumeral (style : RealStyle) (negative : Bool) (d : Decimal) :
    (decimalNumeral style negative d).negative = negative := by
  rw [decimalNumeral]
  split_ifs <;> rfl

/-- **Digits that are read as a real denote it**, in any layout. -/
theorem denotes_decimalNumeral (style : RealStyle) {x : Binary64} {d : Decimal}
    (hx : x.isFinite = true) (hd : d.nearest = x.magnitude) :
    (decimalNumeral style x.isNegative d).Denotes (.real x) := by
  refine denotes_of_roundsTo hx (not_isInteger_decimalNumeral style x.isNegative d)
    (negative_decimalNumeral style x.isNegative d) ?_
  rw [size_decimalNumeral, ← hd]
  exact Decimal.roundsTo_nearest d

/-- **The numeral of a finite real denotes it**, down to the last bit. -/
theorem denotes_realNumeral {style : RealStyle} {x : Binary64} (hx : x.isFinite = true) :
    (realNumeral style x).Denotes (.real x) := by
  refine denotes_of_roundsTo hx (not_isInteger_realNumeral style x) ?_ (roundsTo_realNumeral hx)
  rw [realNumeral]
  split_ifs
  · rfl
  · exact negative_decimalNumeral style x.isNegative _

/-- The **token of a finite real** in a style. -/
def realToken (style : RealStyle) (x : Binary64) (hx : x.isFinite = true) : NumberToken :=
  ⟨realNumeral style x, .real x, wellFormed_realNumeral hx, denotes_realNumeral hx⟩

/-- What is not a finite number is written as null. -/
theorem realText_of_notFinite (style : RealStyle) {x : Binary64} (hx : x.isFinite = false) :
    x.text style = ['n', 'u', 'l', 'l'] := by
  rw [Binary64.text, hx, Bool.not_false, if_pos rfl]

/-- A zero is written with its sign. -/
theorem realText_of_isZero (style : RealStyle) {x : Binary64} (hx : x.isZero = true) :
    x.text style = (if x.isNegative then ['-'] else []) ++ ['0', '.', '0'] := by
  have hfinite : x.isFinite = true := by
    rw [Binary64.isZero, beq_iff_eq] at hx
    rw [Binary64.isFinite, hx]
    exact decide_eq_true (by decide)
  rw [Binary64.text, hfinite, hx, Bool.not_true, if_neg Bool.false_ne_true, if_pos rfl]

/-- Any other finite real is written with its shortest digits. -/
theorem realText_of_finite (style : RealStyle) {x : Binary64} (hx : x.isFinite = true)
    (hzero : x.isZero = false) :
    x.text style = (if x.isNegative then ['-'] else []) ++
      (Decimal.shortest style.tie x.magnitude).text style := by
  rw [Binary64.text, hx, hzero, Bool.not_true, if_neg Bool.false_ne_true,
    if_neg Bool.false_ne_true]

/-- The text of a finite real is its token. -/
theorem text_realToken (style : RealStyle) (x : Binary64) (hx : x.isFinite = true) :
    (realToken style x hx).text = Utf8.encodeChars (x.text style) := by
  have htext : (realToken style x hx).text = (realNumeral style x).text := rfl
  rw [htext, realNumeral]
  cases hzero : x.isZero with
  | true =>
      rw [if_pos rfl, realText_of_isZero style hzero]
      cases x.isNegative <;> rfl
  | false =>
      rw [if_neg Bool.false_ne_true, realText_of_finite style hx hzero, text_decimalNumeral]

end StrictJson.Syntax
