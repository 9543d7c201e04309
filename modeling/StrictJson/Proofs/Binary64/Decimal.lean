import StrictJson.Binary64.Shortest
import StrictJson.Proofs.Binary64.Rounding

/-!
# Decimal Numbers and the Numbers Nearest to Them

A decimal number rounds to the magnitude nearest to its exact value, whatever its digits and its
exponent are. The shortcuts for exponents that are far out agree with this, so rounding looks at the
value alone: the same number written with more zeros or another exponent rounds to the same
magnitude. From that the writer of numbers is seen to be read back. The shortest decimal number of a
magnitude rounds to it, since the search takes no other and the finest grid holds the exact value.

## Main definitions

* `Decimal.toRat`: the exact value.

## Main results

* `Decimal.roundsTo_nearest`: a decimal number rounds to `nearest`.
* `Decimal.nearest_eq_of_toRat_eq`: rounding depends on the value only.
* `Decimal.nearest_shortest`: the shortest decimal number of a magnitude is read back.
-/

namespace StrictJson.Binary64

/-- The magnitude zero has the value zero. -/
theorem value_zero : value 0 = 0 := by
  rw [value, show units 0 = 0 by decide, Nat.cast_zero, zero_div]

/-- What is at least the number after the largest finite one rounds to infinity. -/
theorem roundsTo_infinity {x : ℚ} (h : 2 ^ 1024 ≤ x) : RoundsTo x infinity := by
  refine ⟨le_rfl, fun k hk => Or.inl ?_, fun hi => absurd hi (lt_irrefl _)⟩
  have hk' : value k < value infinity := value_strictMono (by omega)
  rw [← value_infinity] at h
  linarith

/-- What is less than half a unit rounds to zero. -/
theorem roundsTo_zero {num den : ℕ} (hden : 0 < den) (h : 2 * (num * unitsPerOne) < den) :
    RoundsTo (num / den) 0 := by
  refine ⟨Nat.zero_le _, fun k hk => absurd hk (Nat.succ_ne_zero k).symm, fun _ => Or.inl ?_⟩
  rw [two_mul_div_lt_iff hden, show units 0 + units (0 + 1) = 1 by decide, Nat.one_mul]
  exact h

end StrictJson.Binary64

namespace StrictJson.Decimal

open Binary64

/-- The **exact value** of a decimal number. -/
def toRat (d : Decimal) : ℚ :=
  d.digits * 10 ^ d.exponent

theorem toRat_of_nonneg {d : Decimal} (h : 0 ≤ d.exponent) :
    d.toRat = ((d.digits * 10 ^ d.exponent.natAbs : ℕ) : ℚ) := by
  obtain ⟨n, hn⟩ := Int.eq_ofNat_of_zero_le h
  rw [toRat, hn, Int.natAbs_natCast, zpow_natCast]
  push_cast
  rfl

theorem toRat_of_neg {d : Decimal} (h : d.exponent < 0) :
    d.toRat = (d.digits : ℚ) / ((10 ^ d.exponent.natAbs : ℕ) : ℚ) := by
  have hn : d.exponent = -(d.exponent.natAbs : ℤ) := by omega
  rw [toRat, hn, zpow_neg, zpow_natCast, Int.natAbs_neg, Int.natAbs_natCast, div_eq_mul_inv]
  push_cast
  rfl

/-- A power of ten past the range of the finite numbers. -/
theorem two_pow_1024_le {scale : ℕ} (h : 342 ≤ scale) : 2 ^ 1024 ≤ 10 ^ scale :=
  calc 2 ^ 1024 ≤ 10 ^ 342 := by decide +kernel
    _ ≤ 10 ^ scale := Nat.pow_le_pow_right (by decide) h

/-- A power of ten cuts a number of digits down to less than half of a small power of two. -/
theorem two_mul_two_pow_lt {digits scale c : ℕ} (h : digits.log2 + (c + 3) ≤ 3 * scale) :
    2 * (digits * 2 ^ c) < 10 ^ scale := by
  have hdigits : digits < 2 ^ (digits.log2 + 1) := Nat.lt_log2_self
  calc 2 * (digits * 2 ^ c)
      < 2 * (2 ^ (digits.log2 + 1) * 2 ^ c) := by
        have := Nat.mul_lt_mul_of_pos_right hdigits (Nat.two_pow_pos c)
        omega
    _ = 2 ^ (digits.log2 + c + 2) := by ring
    _ ≤ 2 ^ (3 * scale) := Nat.pow_le_pow_right (by decide) (by omega)
    _ = 8 ^ scale := by rw [pow_mul]; norm_num
    _ ≤ 10 ^ scale := Nat.pow_le_pow_left (by decide) scale

/-- **A decimal number rounds to `nearest`**: the shortcuts for far exponents agree with the
rounding of the exact quotient. -/
theorem roundsTo_nearest (d : Decimal) : RoundsTo d.toRat d.nearest := by
  have hpow : ∀ n, 0 < 10 ^ n := fun n => Nat.pow_pos (by decide)
  simp only [nearest, Nat.pow_eq]
  split_ifs with h0 hpos hbig hsmall
  · have hzero : d.toRat = value 0 := by
      rw [toRat, h0, value_zero, Nat.cast_zero, zero_mul]
    rw [hzero]
    exact roundsTo_value (by decide)
  · refine roundsTo_infinity ?_
    rw [toRat_of_nonneg hpos]
    have h1 : 2 ^ 1024 ≤ d.digits * 10 ^ d.exponent.natAbs :=
      (two_pow_1024_le hbig).trans (Nat.le_mul_of_pos_left _ (Nat.pos_of_ne_zero h0))
    have h2 := (Nat.cast_le (α := ℚ)).2 h1
    rwa [Nat.cast_pow, Nat.cast_ofNat] at h2
  · have h := Binary64.roundsTo_nearest (d.digits * 10 ^ d.exponent.natAbs) one_pos
    rwa [Nat.cast_one, div_one, ← toRat_of_nonneg hpos] at h
  · rw [toRat_of_neg (not_le.1 hpos)]
    refine roundsTo_zero (hpow _) ?_
    rw [unitsPerOne_eq]
    exact two_mul_two_pow_lt hsmall
  · rw [toRat_of_neg (not_le.1 hpos)]
    exact Binary64.roundsTo_nearest _ (hpow _)

/-- **Rounding depends on the value only**, not on how it is written. -/
theorem nearest_eq_of_toRat_eq {c d : Decimal} (h : c.toRat = d.toRat) : c.nearest = d.nearest :=
  (h ▸ c.roundsTo_nearest).unique d.roundsTo_nearest

/-! ### Shortest decimal numbers -/

/-- Zeros at the end can move into the exponent. -/
theorem toRat_trim (d : Decimal) : d.trim.toRat = d.toRat := by
  fun_induction trim d with
  | case1 d h ih =>
      obtain ⟨n, hn⟩ := Nat.dvd_of_mod_eq_zero h.2
      rw [ih, toRat, toRat, zpow_add_one₀ (by norm_num), hn, Nat.mul_div_cancel_left n (by decide)]
      push_cast
      ring
  | case2 d h => rfl

/-- A candidate rounds to the magnitude that it is a candidate for. -/
theorem nearest_of_candidate? {tie : Tie} {magnitude exact cut : ℕ} {d : Decimal}
    (h : candidate? tie magnitude exact cut = some d) : d.nearest = magnitude := by
  simp only [candidate?] at h
  split at h
  · next hlow _ =>
    rw [← Option.some.inj h]
    exact eq_of_beq hlow
  · next _ hhigh =>
    rw [← Option.some.inj h]
    exact eq_of_beq hhigh
  · exact absurd h (Option.some_ne_none d).symm
  · next hlow hhigh =>
    split_ifs at h
    · rw [← Option.some.inj h]
      exact eq_of_beq hlow
    · rw [← Option.some.inj h]
      exact eq_of_beq hhigh

/-- The search ends with a number that rounds to the magnitude, if the finest grid has one. -/
theorem nearest_search {tie : Tie} {magnitude exact : ℕ}
    (hexact : Decimal.nearest ⟨exact, -1074⟩ = magnitude) (cut : ℕ) :
    (search tie magnitude exact cut).nearest = magnitude := by
  induction cut with
  | zero => exact hexact
  | succ cut ih =>
      rw [search]
      split
      · next d hd => exact nearest_of_candidate? hd
      · exact ih

/-- A whole multiple of a power of one half has finitely many decimal digits. -/
theorem toRat_mul_five_pow (u n : ℕ) : toRat ⟨u * Nat.pow 5 n, -(n : ℤ)⟩ = u / 2 ^ n := by
  have h10 : (5 : ℚ) ^ n * 2 ^ n = 10 ^ n := by
    rw [← mul_pow, show (5 : ℚ) * 2 = 10 by norm_num]
  rw [toRat, Nat.pow_eq, Nat.cast_mul, Nat.cast_pow, Nat.cast_ofNat, zpow_neg, zpow_natCast,
    ← h10]
  field_simp

/-- The finest grid holds the value of every magnitude. -/
theorem toRat_units (magnitude : ℕ) :
    toRat ⟨units magnitude * Nat.pow 5 1074, -1074⟩ = value magnitude := by
  rw [show (-1074 : ℤ) = -((1074 : ℕ) : ℤ) from rfl, value, cast_unitsPerOne]
  generalize 1074 = n
  exact toRat_mul_five_pow (units magnitude) n

/-- **The shortest decimal number of a magnitude is read back.** -/
theorem nearest_shortest (tie : Tie) {magnitude : ℕ} (h : magnitude < infinity) :
    (shortest tie magnitude).nearest = magnitude := by
  have hexact : Decimal.nearest ⟨units magnitude * Nat.pow 5 1074, -1074⟩ = magnitude := by
    have hround := roundsTo_nearest ⟨units magnitude * Nat.pow 5 1074, -1074⟩
    rw [toRat_units] at hround
    exact hround.unique (roundsTo_value h)
  rw [shortest, nearest_eq_of_toRat_eq (toRat_trim _)]
  exact nearest_search hexact _

end StrictJson.Decimal
