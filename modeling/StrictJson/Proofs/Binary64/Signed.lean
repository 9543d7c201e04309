import StrictJson.Proofs.Binary64.Decimal

/-!
# Rounding with a Sign

Rounding works on magnitudes, and the sign is put on afterwards. That this is right for numbers of
either sign is shown here: what is nearest to the size of a number among the finite magnitudes is,
with the sign, nearest to the number among all finite reals. A real of the other sign is never
nearer, and it is as near only if both are zeros.

The sign of a zero is not settled by nearness, since both zeros stand for the same number. Nearness
and the sign together settle all bits.

## Main definitions

* `withSign`, `toRat`: a number with a sign, and the number that a finite real stands for.
* `IsNearestTo`: no finite real is nearer, and a tie goes to the even pattern.
* `RoundsToReal`: a number is below the overflow threshold and the real is nearest to it.

## Main results

* `isNearestTo_iff`: the reals of one sign that are nearest to a number of that sign.
* `roundsToReal_iff`: what rounds to a real that is not zero has its sign, and the size rounds to
  its magnitude.
-/

namespace StrictJson.Binary64

/-! ### Sizes and signs -/

/-- A number of the size `x`, **with a sign**. -/
def withSign (negative : Bool) (x : ℚ) : ℚ :=
  if negative then -x else x

@[simp] theorem withSign_zero (negative : Bool) : withSign negative 0 = 0 := by
  cases negative
  · rfl
  · exact neg_zero

theorem abs_withSign (negative : Bool) {x : ℚ} (hx : 0 ≤ x) : |withSign negative x| = x := by
  cases negative
  · exact abs_of_nonneg hx
  · exact (abs_neg x).trans (abs_of_nonneg hx)

/-- Numbers of one sign are as far apart as their sizes. -/
theorem abs_withSign_sub_withSign (negative : Bool) (x v : ℚ) :
    |withSign negative x - withSign negative v| = |x - v| := by
  cases negative
  · rfl
  · rw [withSign, withSign, if_pos rfl, if_pos rfl, neg_sub_neg, abs_sub_comm]

/-- Numbers are at least as far apart as their sizes, whatever the signs. -/
theorem abs_sub_le_abs_withSign_sub {x v : ℚ} (hx : 0 ≤ x) (hv : 0 ≤ v) (s t : Bool) :
    |x - v| ≤ |withSign s x - withSign t v| :=
  calc |x - v| = |(|withSign s x| - |withSign t v|)| := by
        rw [abs_withSign s hx, abs_withSign t hv]
    _ ≤ |withSign s x - withSign t v| := abs_abs_sub_abs_le _ _

/-- If the signs make no difference to the distance, they are equal or one number is zero. -/
theorem eq_zero_of_abs_withSign_sub {x v : ℚ} {s t : Bool} (hst : s ≠ t)
    (h : |withSign s x - withSign t v| = |x - v|) : x = 0 ∨ v = 0 := by
  have hsum : |x + v| = |x - v| := by
    rw [← h]
    cases s <;> cases t
    · exact absurd rfl hst
    · rw [withSign, withSign, if_neg Bool.false_ne_true, if_pos rfl, sub_neg_eq_add]
    · rw [withSign, withSign, if_neg Bool.false_ne_true, if_pos rfl, ← neg_add', abs_neg]
    · exact absurd rfl hst
  rcases abs_eq_abs.1 hsum with heq | heq
  · exact .inr (by linarith)
  · exact .inl (by linarith)

/-! ### The nearest real -/

/-- The number that a finite real **stands for**. -/
def toRat (y : Binary64) : ℚ :=
  withSign y.isNegative (value y.magnitude)

/-- A finite real is **nearest** to a number: no finite real is nearer, and one that stands for
another number and is equally near gives way to an even pattern. -/
structure IsNearestTo (x : ℚ) (y : Binary64) : Prop where
  isFinite : y.isFinite = true
  dist_le : ∀ z : Binary64, z.isFinite = true → |x - y.toRat| ≤ |x - z.toRat|
  even_of_tie : ∀ z : Binary64, z.isFinite = true → |x - y.toRat| = |x - z.toRat| →
    z.toRat = y.toRat ∨ y.bits.toNat % 2 = 0

theorem value_nonneg (m : ℕ) : 0 ≤ value m :=
  value_zero ▸ value_strictMono.monotone (Nat.zero_le m)

theorem magnitude_lt_infinity {y : Binary64} (h : y.isFinite = true) : y.magnitude < infinity := by
  rwa [isFinite, decide_eq_true_eq] at h

theorem toRat_ofParts {m : ℕ} (negative : Bool) (h : m < infinity) :
    (ofParts negative m).toRat = withSign negative (value m) := by
  rw [toRat, isNegative_ofParts negative h.le, magnitude_ofParts negative h.le]

/-- The sign is not the last bit. -/
theorem bits_mod_two (y : Binary64) : y.bits.toNat % 2 = y.magnitude % 2 := by
  rw [magnitude, signBit]
  omega

/-- A magnitude that is nearest to zero is that of a zero. -/
theorem IsNearest.value_eq_zero {m : ℕ} (h : IsNearest 0 m) : value m = 0 := by
  have hle := h.dist_le 0 (by decide)
  rw [value_zero, sub_zero, abs_zero, zero_sub, abs_neg, abs_of_nonneg (value_nonneg m)] at hle
  exact le_antisymm hle (value_nonneg m)

variable {x : ℚ} {m : ℕ} {y : Binary64}

/-- **The nearest magnitude with the sign is the nearest real.** -/
theorem IsNearest.isNearestTo (negative : Bool) (hx : 0 ≤ x) (h : IsNearest x m) :
    IsNearestTo (withSign negative x) (ofParts negative m) := by
  have hfinite := h.lt_infinity
  have hself : |withSign negative x - (ofParts negative m).toRat| = |x - value m| := by
    rw [toRat_ofParts negative hfinite, abs_withSign_sub_withSign]
  have hsize : ∀ z : Binary64, |x - value z.magnitude| ≤ |withSign negative x - z.toRat| :=
    fun z => abs_sub_le_abs_withSign_sub hx (value_nonneg _) negative z.isNegative
  refine ⟨isFinite_ofParts negative hfinite, fun z hz => ?_, fun z hz htie => ?_⟩
  · rw [hself]
    exact (h.dist_le _ (magnitude_lt_infinity hz)).trans (hsize z)
  · rw [hself] at htie
    have hmagnitude : |x - value m| = |x - value z.magnitude| :=
      le_antisymm (h.dist_le _ (magnitude_lt_infinity hz)) (htie ▸ hsize z)
    rcases h.even_of_tie _ (magnitude_lt_infinity hz) hmagnitude with hm | heven
    · -- The same magnitude with the other sign is as near only if it is zero.
      left
      rw [toRat_ofParts negative hfinite, toRat, hm]
      by_cases hsign : negative = z.isNegative
      · rw [hsign]
      · have hzero : value m = 0 := by
          rw [toRat, hm] at htie
          rcases eq_zero_of_abs_withSign_sub hsign htie.symm with rfl | hvalue
          · exact h.value_eq_zero
          · exact hvalue
        rw [hzero, withSign_zero, withSign_zero]
    · right
      rw [bits_mod_two, magnitude_ofParts negative hfinite.le, heven]

/-- The magnitude of the nearest real is nearest to the size. -/
theorem IsNearestTo.isNearest (h : IsNearestTo (withSign y.isNegative x) y) :
    IsNearest x y.magnitude := by
  have hself : |withSign y.isNegative x - y.toRat| = |x - value y.magnitude| :=
    abs_withSign_sub_withSign _ _ _
  have hother : ∀ k < infinity,
      |withSign y.isNegative x - (ofParts y.isNegative k).toRat| = |x - value k| := by
    intro k hk
    rw [toRat_ofParts _ hk, abs_withSign_sub_withSign]
  refine ⟨magnitude_lt_infinity h.isFinite, fun k hk => ?_, fun k hk htie => ?_⟩
  · rw [← hself, ← hother k hk]
    exact h.dist_le _ (isFinite_ofParts _ hk)
  · rw [← hself, ← hother k hk] at htie
    rcases h.even_of_tie _ (isFinite_ofParts _ hk) htie with heq | heven
    · left
      rw [toRat_ofParts _ hk, toRat] at heq
      have hsize := congrArg abs heq
      rw [abs_withSign _ (value_nonneg _), abs_withSign _ (value_nonneg _)] at hsize
      exact value_strictMono.injective hsize
    · exact .inr (bits_mod_two y ▸ heven)

/-- A number **rounds to a real**: it is not too large, and the real is nearest to it. -/
def RoundsToReal (x : ℚ) (y : Binary64) : Prop :=
  |x| < overflowThreshold ∧ IsNearestTo x y

theorem toRat_zero : (ofParts false 0).toRat = 0 := by
  rw [toRat_ofParts false (by decide), value_zero, withSign_zero]

theorem value_magnitude_pos (hzero : y.isZero = false) : 0 < value y.magnitude := by
  rw [isZero, beq_eq_false_iff_ne] at hzero
  rw [← value_zero]
  exact value_strictMono (Nat.pos_of_ne_zero hzero)

theorem abs_toRat (y : Binary64) : |y.toRat| = value y.magnitude :=
  abs_withSign _ (value_nonneg _)

/-- What a real is nearest to has its sign, unless the real is zero: to a number of the other sign
zero would be nearer. -/
theorem IsNearestTo.withSign_abs (h : IsNearestTo x y) (hzero : y.isZero = false) :
    withSign y.isNegative |x| = x := by
  have hpos := value_magnitude_pos hzero
  have hle := h.dist_le (ofParts false 0) (isFinite_ofParts false (by decide))
  rw [toRat_zero, sub_zero, toRat] at hle
  cases hsign : y.isNegative with
  | false =>
      rw [hsign, withSign, if_neg Bool.false_ne_true] at hle
      rw [withSign, if_neg Bool.false_ne_true, abs_of_nonneg]
      by_contra hneg
      rw [abs_of_neg (by linarith), abs_of_neg (by linarith)] at hle
      linarith
  | true =>
      rw [hsign, withSign, if_pos rfl] at hle
      rw [withSign, if_pos rfl, abs_of_nonpos, neg_neg]
      by_contra hneg
      rw [abs_of_pos (by linarith), abs_of_pos (by linarith)] at hle
      linarith

/-- **What rounds to a real** other than zero has its sign, and a size that rounds to its
magnitude. -/
theorem roundsToReal_iff (hy : y.isFinite = true) (hzero : y.isZero = false) :
    RoundsToReal x y ↔ withSign y.isNegative |x| = x ∧ RoundsTo |x| y.magnitude := by
  constructor
  · rintro ⟨hlt, hnear⟩
    have hsign := hnear.withSign_abs hzero
    rw [← hsign] at hnear
    exact ⟨hsign, (roundsTo_iff_isNearest.2 ⟨hlt, hnear.isNearest⟩).1⟩
  · rintro ⟨hsign, hround⟩
    obtain ⟨hlt, hnear⟩ := roundsTo_iff_isNearest.1 ⟨hround, magnitude_lt_infinity hy⟩
    refine ⟨hlt, ?_⟩
    have hnear' := hnear.isNearestTo y.isNegative (abs_nonneg x)
    rwa [hsign, ofParts_parts] at hnear'

end StrictJson.Binary64
