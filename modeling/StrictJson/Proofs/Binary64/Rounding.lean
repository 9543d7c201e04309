import Mathlib.Tactic
import StrictJson.Binary64.Nearest

/-!
# Rounding to the Nearest Magnitude

What rounding of an exact quotient does, said over the rational numbers. The values of the
magnitudes grow strictly, so every number lies between two midpoints of neighbours, or on one of
them. **Rounding** a number means to find the magnitude whose two midpoints enclose it, where a
midpoint itself belongs to the neighbour with the even pattern. The midpoint above the largest
finite number belongs to infinity, and so does everything past it.

Two readings of this are proved equal: `RoundsTo`, by the two midpoints next to a magnitude, which
is how the arithmetic works, and `IsNearest`, by the distance to every finite number, which is what
is wanted.

## Main definitions

* `value`: the number that a finite magnitude stands for.
* `RoundsTo`: a number lies between the midpoints around a magnitude.
* `IsNearest`: no finite magnitude is nearer, and a tie goes to the even one.

## Main results

* `roundsTo_nearest`: the quotient of two natural numbers rounds to `nearest` of them.
* `RoundsTo.unique`: a number rounds to one magnitude only.
* `roundsTo_iff_isNearest`: the two readings agree below the overflow threshold.
-/

namespace StrictJson.Binary64

/-! ### The parts of a pattern -/

/-- A number is made of its sign and its magnitude. -/
theorem ofParts_parts (x : Binary64) : ofParts x.isNegative x.magnitude = x := by
  obtain ⟨bits⟩ := x
  have hlt : bits.toNat < 2 ^ 64 := bits.toNat_lt
  have hbits : magnitude ⟨bits⟩ + (if isNegative ⟨bits⟩ = true then signBit else 0) =
      bits.toNat := by
    simp only [magnitude, isNegative, signBit]
    by_cases h : 0x8000000000000000 ≤ bits.toNat
    · simp only [h, decide_true, if_true]
      omega
    · simp only [h, decide_false, Bool.false_eq_true, if_false]
      omega
  rw [ofParts, hbits, UInt64.ofNat_toNat]

/-- The magnitude of a number made of its parts. -/
theorem magnitude_ofParts {m : ℕ} (negative : Bool) (h : m ≤ infinity) :
    (ofParts negative m).magnitude = m := by
  simp only [infinity] at h
  rw [magnitude, ofParts, UInt64.toNat_ofNat', signBit]
  cases negative <;> simp only [Bool.false_eq_true, if_false, if_true] <;> omega

/-- The sign of a number made of its parts. -/
theorem isNegative_ofParts {m : ℕ} (negative : Bool) (h : m ≤ infinity) :
    (ofParts negative m).isNegative = negative := by
  simp only [infinity] at h
  rw [isNegative, ofParts, UInt64.toNat_ofNat', signBit]
  cases negative <;> simp only [Bool.false_eq_true, if_false, if_true, decide_eq_false_iff_not,
    decide_eq_true_eq] <;> omega

/-- A number of finite magnitude is finite, whatever its sign. -/
theorem isFinite_ofParts {m : ℕ} (negative : Bool) (h : m < infinity) :
    (ofParts negative m).isFinite = true := by
  rw [isFinite, magnitude_ofParts negative h.le, decide_eq_true h]

/-! ### The scale of magnitudes -/

theorem binade_pos : 0 < binade := by decide

/-- One magnitude up is one spacing of the binade up. The spacing doubles with each binade but the
first. -/
theorem units_succ (m : ℕ) : units (m + 1) = units m + 2 ^ (m / binade - 1) := by
  by_cases hf : m % binade + 1 < binade
  · have h1 : (m + 1) / binade = m / binade := by
      simp only [binade] at hf ⊢
      omega
    have h2 : (m + 1) % binade = m % binade + 1 := by
      simp only [binade] at hf ⊢
      omega
    simp only [units, h1, h2, Nat.pow_eq]
    split_ifs with h0
    · rw [h0]
      rfl
    · ring
  · have h1 : (m + 1) / binade = m / binade + 1 := by
      simp only [binade] at hf ⊢
      omega
    have h2 : (m + 1) % binade = 0 := by
      simp only [binade] at hf ⊢
      omega
    have hlast : m % binade + 1 = binade := by
      have := Nat.mod_lt m binade_pos
      omega
    simp only [units, h1, h2, Nat.pow_eq, Nat.add_one_ne_zero, if_false, Nat.add_sub_cancel,
      Nat.add_zero]
    split_ifs with h0
    · rw [h0, pow_zero, mul_one]
      exact hlast.symm
    · obtain ⟨e, he⟩ := Nat.exists_eq_add_one_of_ne_zero h0
      rw [he, Nat.add_sub_cancel, pow_succ]
      calc binade * (2 ^ e * 2) = (binade + binade) * 2 ^ e := by ring
        _ = (binade + (m % binade + 1)) * 2 ^ e := by rw [hlast]
        _ = (binade + m % binade) * 2 ^ e + 2 ^ e := by ring

/-- Units grow strictly. -/
theorem units_strictMono : StrictMono units := by
  refine strictMono_nat_of_lt_succ fun m => ?_
  have := Nat.two_pow_pos (m / binade - 1)
  rw [units_succ]
  omega

/-- The units of a significand in a binade. A significand that has just grown out of the binade
counts too, and in the lowest binade so do the small ones. -/
theorem units_binade_add {t q : ℕ} (hq : q ≤ 2 * binade) (ht : t = 0 ∨ binade ≤ q) :
    units (t * binade + q) = q * 2 ^ t := by
  have hb := binade_pos
  have hdiv : (t * binade + q) / binade = t + q / binade := by
    rw [add_comm, Nat.add_mul_div_right _ _ hb, add_comm]
  have hmod : (t * binade + q) % binade = q % binade := by
    rw [add_comm, Nat.add_mul_mod_self_right]
  simp only [units, hdiv, hmod, Nat.pow_eq]
  rcases Nat.lt_or_ge q binade with h1 | h1
  · obtain rfl : t = 0 := by omega
    rw [Nat.div_eq_of_lt h1, Nat.mod_eq_of_lt h1]
    simp
  · rcases Nat.lt_or_ge q (2 * binade) with h2 | h2
    · have hd : q / binade = 1 := by
        simp only [binade] at h1 h2 ⊢
        omega
      have hm : binade + q % binade = q := by
        simp only [binade] at h1 h2 ⊢
        omega
      rw [hd, hm, if_neg (by omega), Nat.add_sub_cancel]
    · obtain rfl : q = 2 * binade := by omega
      rw [Nat.mul_div_cancel _ hb, Nat.mul_mod_left, if_neg (by omega)]
      rw [show t + 2 - 1 = t + 1 by omega, pow_succ]
      ring

/-- The number of units that make up one. It is kept closed: written out it has a thousand
digits. -/
@[irreducible] def unitsPerOne : ℕ :=
  Nat.pow 2 1074

theorem unitsPerOne_eq : unitsPerOne = 2 ^ 1074 := by
  decide +kernel

theorem unitsPerOne_pos : 0 < unitsPerOne := by
  decide +kernel

theorem cast_unitsPerOne : (unitsPerOne : ℚ) = 2 ^ 1074 := by
  have hcast : ∀ n : ℕ, ((2 ^ n : ℕ) : ℚ) = 2 ^ n := fun n => by
    rw [Nat.cast_pow, Nat.cast_ofNat]
  rw [unitsPerOne_eq, hcast]

/-- The **value** of a finite magnitude. -/
def value (m : ℕ) : ℚ :=
  units m / unitsPerOne

/-- Values grow strictly with the magnitude. -/
theorem value_strictMono : StrictMono value := by
  intro m k hmk
  have h : (units m : ℚ) < units k := Nat.cast_lt.2 (units_strictMono hmk)
  exact div_lt_div_of_pos_right h (Nat.cast_pos.2 unitsPerOne_pos)

/-! ### Midpoints -/

/-- A number lies **above the lower midpoint** of a magnitude, or on it if the magnitude is even.
Zero has no lower midpoint. -/
def AboveMid (x : ℚ) (m : ℕ) : Prop :=
  ∀ k, m = k + 1 → value k + value m < 2 * x ∨ (value k + value m = 2 * x ∧ m % 2 = 0)

/-- A number lies **below the upper midpoint** of a magnitude, or on it if the magnitude is even. -/
def BelowMid (x : ℚ) (m : ℕ) : Prop :=
  2 * x < value m + value (m + 1) ∨ (2 * x = value m + value (m + 1) ∧ m % 2 = 0)

/-- A number **rounds to** a magnitude: it lies between the midpoints on both sides. Infinity has
none above it. -/
structure RoundsTo (x : ℚ) (m : ℕ) : Prop where
  le_infinity : m ≤ infinity
  above : AboveMid x m
  below : m < infinity → BelowMid x m

/-- A number that is below the upper midpoint of one magnitude is not above the lower midpoint of a
greater one. -/
theorem BelowMid.not_aboveMid {x : ℚ} {m k : ℕ} (hm : BelowMid x m) (hk : AboveMid x k)
    (hmk : m < k) : False := by
  obtain ⟨j, rfl⟩ : ∃ j, k = j + 1 := ⟨k - 1, by omega⟩
  have h1 : value m ≤ value j := value_strictMono.monotone (by omega)
  have h2 : value (m + 1) ≤ value (j + 1) := value_strictMono.monotone (by omega)
  rcases hm with hm | ⟨hm, heven⟩ <;> rcases hk j rfl with hk | ⟨hk, heven'⟩
  · linarith
  · linarith
  · linarith
  · have hj : value j ≤ value m := by linarith
    have : j ≤ m := value_strictMono.le_iff_le.1 hj
    omega

/-- **A number rounds to one magnitude only.** -/
theorem RoundsTo.unique {x : ℚ} {m k : ℕ} (hm : RoundsTo x m) (hk : RoundsTo x k) : m = k := by
  have hm' := hm.le_infinity
  have hk' := hk.le_infinity
  rcases Nat.lt_trichotomy m k with h | h | h
  · exact ((hm.below (by omega)).not_aboveMid hk.above h).elim
  · exact h
  · exact ((hk.below (by omega)).not_aboveMid hm.above h).elim

/-- The value of a finite magnitude rounds to that magnitude. -/
theorem roundsTo_value {m : ℕ} (h : m < infinity) : RoundsTo (value m) m := by
  refine ⟨h.le, ?_, fun _ => ?_⟩
  · rintro k rfl
    have := value_strictMono (Nat.lt_succ_self k)
    exact Or.inl (by linarith)
  · have := value_strictMono (Nat.lt_succ_self m)
    exact Or.inl (by linarith)

/-! ### Rounding of quotients -/

/-- A rounded quotient is off by half at most, and if it is off by half then it is even. -/
theorem divNearest_spec (num : ℕ) {den : ℕ} (hden : 0 < den) :
    (2 * num < (2 * divNearest num den + 1) * den ∨
        2 * num = (2 * divNearest num den + 1) * den ∧ divNearest num den % 2 = 0) ∧
      (2 * divNearest num den * den < 2 * num + den ∨
        2 * divNearest num den * den = 2 * num + den ∧ divNearest num den % 2 = 0) := by
  have hsum : num / den * den + num % den = num := Nat.div_add_mod' num den
  have hrest : num % den < den := Nat.mod_lt num hden
  have h1 : (2 * (num / den) + 1) * den = 2 * (num / den * den) + den := by ring
  have h2 : 2 * (num / den) * den = 2 * (num / den * den) := by ring
  have h3 : (2 * (num / den + 1) + 1) * den = 2 * (num / den * den) + 3 * den := by ring
  have h4 : 2 * (num / den + 1) * den = 2 * (num / den * den) + 2 * den := by ring
  simp only [divNearest]
  split_ifs with h
  · rw [h1, h2]
    omega
  · rw [h3, h4]
    omega

/-- Comparison of a quotient with a midpoint, without division. -/
theorem two_mul_div_lt_iff {num den m k : ℕ} (hden : 0 < den) :
    2 * (num / den : ℚ) < value m + value k ↔
      2 * (num * unitsPerOne) < (units m + units k) * den := by
  have h : (0 : ℚ) < den := Nat.cast_pos.2 hden
  have h' : (0 : ℚ) < unitsPerOne := Nat.cast_pos.2 unitsPerOne_pos
  rw [value, value, ← add_div, ← mul_div_assoc, div_lt_div_iff₀ h h', mul_assoc]
  exact_mod_cast Iff.rfl

/-- Comparison of a midpoint with a quotient, without division. -/
theorem lt_two_mul_div_iff {num den m k : ℕ} (hden : 0 < den) :
    value m + value k < 2 * (num / den : ℚ) ↔
      (units m + units k) * den < 2 * (num * unitsPerOne) := by
  have h : (0 : ℚ) < den := Nat.cast_pos.2 hden
  have h' : (0 : ℚ) < unitsPerOne := Nat.cast_pos.2 unitsPerOne_pos
  rw [value, value, ← add_div, ← mul_div_assoc, div_lt_div_iff₀ h' h, mul_assoc]
  exact_mod_cast Iff.rfl

/-- A quotient that is a midpoint, without division. -/
theorem two_mul_div_eq_iff {num den m k : ℕ} (hden : 0 < den) :
    2 * (num / den : ℚ) = value m + value k ↔
      2 * (num * unitsPerOne) = (units m + units k) * den := by
  have h : (den : ℚ) ≠ 0 := Nat.cast_ne_zero.2 hden.ne'
  have h' : (unitsPerOne : ℚ) ≠ 0 := Nat.cast_ne_zero.2 unitsPerOne_pos.ne'
  rw [value, value, ← add_div, ← mul_div_assoc, div_eq_div_iff h h', mul_assoc]
  exact_mod_cast Iff.rfl

/-- The binade of a number, given in units as a quotient: its significand fits the binade, and fills
it unless the binade is the lowest one. -/
theorem binade_shift (num : ℕ) {den : ℕ} (hden : 0 < den) :
    let shift := (num / den).log2 - 52
    num < 2 * binade * (den * 2 ^ shift) ∧ (shift = 0 ∨ binade * (den * 2 ^ shift) ≤ num) := by
  intro shift
  have hb : binade = 2 ^ 52 := by decide
  have hlt : num / den < 2 ^ ((num / den).log2 + 1) := Nat.lt_log2_self
  have hshift : (num / den).log2 + 1 ≤ 53 + shift := by omega
  constructor
  · have h1 : num / den < 2 ^ (53 + shift) :=
      lt_of_lt_of_le hlt (Nat.pow_le_pow_right (by decide) hshift)
    calc num < 2 ^ (53 + shift) * den := (Nat.div_lt_iff_lt_mul hden).1 h1
      _ = 2 * binade * (den * 2 ^ shift) := by rw [hb, pow_add]; ring
  · rcases Nat.eq_zero_or_pos shift with h0 | hpos
    · exact Or.inl h0
    · right
      have hne : num / den ≠ 0 := by
        intro h0
        rw [show shift = (num / den).log2 - 52 from rfl, h0] at hpos
        simp at hpos
      have h1 : 2 ^ (52 + shift) ≤ num / den := by
        rw [show 52 + shift = (num / den).log2 by omega]
        exact Nat.log2_self_le hne
      calc binade * (den * 2 ^ shift) = 2 ^ (52 + shift) * den := by rw [hb, pow_add]; ring
        _ ≤ num := (Nat.le_div_iff_mul_le hden).1 h1

/-- The spacing above a magnitude is at least that of any binade it has reached. -/
theorem spacing_le {t m : ℕ} (h : t = 0 ∨ (t + 1) * binade ≤ m) : 2 ^ t ≤ 2 ^ (m / binade - 1) := by
  refine Nat.pow_le_pow_right (by decide) ?_
  rcases h with rfl | h
  · exact Nat.zero_le _
  · have := (Nat.le_div_iff_mul_le binade_pos).2 h
    omega

/-- A quotient that fits a binade and fills it, unless the binade is the lowest one, has a nearest
significand that does so too. -/
theorem significand_bounds {num d t q : ℕ} (hd : 0 < d) (hlt : num < 2 * binade * d)
    (hge : t = 0 ∨ binade * d ≤ num)
    (hup : 2 * num < (2 * q + 1) * d ∨ 2 * num = (2 * q + 1) * d)
    (hlow : 2 * q * d < 2 * num + d ∨ 2 * q * d = 2 * num + d) :
    q ≤ 2 * binade ∧ (t = 0 ∨ binade ≤ q) := by
  constructor
  · by_contra hc
    have h1 : (4 * binade + 2) * d ≤ 2 * q * d := Nat.mul_le_mul_right _ (by omega)
    have h2 : (4 * binade + 2) * d = 2 * (2 * binade * d) + 2 * d := by ring
    omega
  · refine hge.imp id fun hge => ?_
    by_contra hc
    have h1 : (2 * q + 1) * d < 2 * binade * d := Nat.mul_lt_mul_of_pos_right (by omega) hd
    have h2 : 2 * binade * d = 2 * (binade * d) := by ring
    omega

/-- A quotient `num / den`, given in units, lies between the midpoints around the magnitude that
rounding in its binade gives, also when that magnitude is past infinity. -/
theorem mids_round {num den t q : ℕ} (hD : 0 < den * 2 ^ t)
    (hlt : num < 2 * binade * (den * 2 ^ t)) (hge : t = 0 ∨ binade * (den * 2 ^ t) ≤ num)
    (hup : 2 * num < (2 * q + 1) * (den * 2 ^ t) ∨
      2 * num = (2 * q + 1) * (den * 2 ^ t) ∧ q % 2 = 0)
    (hlow : 2 * q * (den * 2 ^ t) < 2 * num + den * 2 ^ t ∨
      2 * q * (den * 2 ^ t) = 2 * num + den * 2 ^ t ∧ q % 2 = 0) :
    (∀ k, t * binade + q = k + 1 →
        (units k + units (t * binade + q)) * den < 2 * num ∨
          (2 * num = (units k + units (t * binade + q)) * den ∧ (t * binade + q) % 2 = 0)) ∧
      (2 * num < (units (t * binade + q) + units (t * binade + q + 1)) * den ∨
        (2 * num = (units (t * binade + q) + units (t * binade + q + 1)) * den ∧
          (t * binade + q) % 2 = 0)) := by
  have hparity : (t * binade + q) % 2 = q % 2 := by
    simp only [binade]
    omega
  obtain ⟨hq, hbq⟩ := significand_bounds hD hlt hge (hup.imp id And.left) (hlow.imp id And.left)
  have hunits := units_binade_add hq hbq
  have hreach : (t + 1) * binade = t * binade + binade := by ring
  constructor
  · intro k hk
    have hprev := units_succ k
    rw [hk] at hunits hparity ⊢
    have hsum : (units k + units (k + 1)) * den + 2 ^ (k / binade - 1) * den =
        2 * q * (den * 2 ^ t) := by
      calc (units k + units (k + 1)) * den + 2 ^ (k / binade - 1) * den
          = (units k + 2 ^ (k / binade - 1) + units (k + 1)) * den := by ring
        _ = (q * 2 ^ t + q * 2 ^ t) * den := by rw [← hprev, hunits]
        _ = 2 * q * (den * 2 ^ t) := by ring
    -- At the foot of a binade the spacing below is half of that above, but then the quotient is not
    -- below the magnitude at all.
    by_cases hfoot : t ≠ 0 ∧ q = binade
    · obtain ⟨ht, rfl⟩ := hfoot
      have hsp : 0 < 2 ^ (k / binade - 1) * den :=
        Nat.mul_pos (Nat.two_pow_pos _) (Nat.pos_of_mul_pos_right hD)
      have h2 : 2 * binade * (den * 2 ^ t) = 2 * (binade * (den * 2 ^ t)) := by ring
      omega
    · have hsp : 2 ^ t * den ≤ 2 ^ (k / binade - 1) * den := by
        refine Nat.mul_le_mul_right _ (spacing_le ?_)
        omega
      rw [mul_comm (2 ^ t)] at hsp
      omega
  · have hsum : (units (t * binade + q) + units (t * binade + q + 1)) * den =
        2 * q * (den * 2 ^ t) + 2 ^ ((t * binade + q) / binade - 1) * den := by
      rw [units_succ, hunits]
      ring
    have hsp : 2 ^ t * den ≤ 2 ^ ((t * binade + q) / binade - 1) * den := by
      refine Nat.mul_le_mul_right _ (spacing_le ?_)
      omega
    have h1 : (2 * q + 1) * (den * 2 ^ t) = 2 * q * (den * 2 ^ t) + den * 2 ^ t := by ring
    rw [mul_comm (2 ^ t)] at hsp
    omega

/-- Rounding in its parts: the pattern found in the binade of the quotient, or infinity. -/
theorem nearest_eq (num den : ℕ) :
    nearest num den =
      min (((num * unitsPerOne / den).log2 - 52) * binade +
        divNearest (num * unitsPerOne) (den * 2 ^ ((num * unitsPerOne / den).log2 - 52)))
        infinity := by
  delta nearest unitsPerOne
  generalize Nat.pow 2 1074 = p
  rfl

/-- **The quotient of two natural numbers rounds to `nearest`** of them. -/
theorem roundsTo_nearest (num : ℕ) {den : ℕ} (hden : 0 < den) :
    RoundsTo (num / den) (nearest num den) := by
  obtain ⟨hlt, hge⟩ := binade_shift (num * unitsPerOne) hden
  obtain ⟨hup, hlow⟩ := divNearest_spec (num * unitsPerOne) (Nat.mul_pos hden (Nat.two_pow_pos
    ((num * unitsPerOne / den).log2 - 52)))
  have hmids := mids_round (Nat.mul_pos hden (Nat.two_pow_pos _)) hlt hge hup hlow
  rw [nearest_eq]
  generalize ((num * unitsPerOne / den).log2 - 52) * binade +
    divNearest (num * unitsPerOne) (den * 2 ^ ((num * unitsPerOne / den).log2 - 52)) = m at *
  have habove : AboveMid (num / den) m := by
    intro k hk
    rw [lt_two_mul_div_iff hden, eq_comm, two_mul_div_eq_iff hden]
    exact hmids.1 k hk
  have hbelow : BelowMid (num / den) m := by
    rw [BelowMid, two_mul_div_lt_iff hden, two_mul_div_eq_iff hden]
    exact hmids.2
  rcases Nat.lt_or_ge infinity m with h | h
  · rw [Nat.min_eq_right h.le]
    refine ⟨le_rfl, fun k hk => Or.inl ?_, fun hi => absurd hi (lt_irrefl _)⟩
    obtain ⟨j, rfl⟩ : ∃ j, m = j + 1 := ⟨m - 1, by omega⟩
    have h1 : value k < value j := value_strictMono (by omega)
    have h2 : value infinity < value (j + 1) := value_strictMono h
    rcases habove j rfl with h3 | ⟨h3, -⟩ <;> linarith
  · rw [Nat.min_eq_left h]
    exact ⟨h, habove, fun _ => hbelow⟩

/-! ### The nearest finite number -/

/-- A finite magnitude is **nearest** to a number: no finite magnitude is nearer, and one that is
equally near gives way to an even one. -/
structure IsNearest (x : ℚ) (m : ℕ) : Prop where
  lt_infinity : m < infinity
  dist_le : ∀ k < infinity, |x - value m| ≤ |x - value k|
  even_of_tie : ∀ k < infinity, |x - value m| = |x - value k| → k = m ∨ m % 2 = 0

/-- The least number that is too large for a finite one: half a spacing past the largest. -/
def overflowThreshold : ℚ :=
  2 ^ 1024 - 2 ^ 970

/-- What would be the number after the largest finite one. -/
theorem value_infinity : value infinity = 2 ^ 1024 := by
  have h : units infinity = 2 ^ 52 * 2 ^ 2046 := by
    rw [show infinity = 2046 * binade + 2 ^ 52 by decide,
      units_binade_add (by decide) (Or.inr (by decide))]
  have e1 : (2 : ℚ) ^ 1024 = 2 ^ 972 * 2 ^ 52 := pow_add 2 972 52
  have e2 : (2 : ℚ) ^ 2046 = 2 ^ 972 * 2 ^ 1074 := pow_add 2 972 1074
  have hone : (2 : ℚ) ^ 1074 ≠ 0 := pow_ne_zero 1074 two_ne_zero
  rw [value, h, cast_unitsPerOne, Nat.cast_mul, Nat.cast_pow, Nat.cast_pow, Nat.cast_ofNat, e1, e2,
    div_eq_iff hone]
  generalize (2 : ℚ) ^ 972 = a
  generalize (2 : ℚ) ^ 1074 = b
  ring

/-- The largest finite number. -/
theorem value_infinity_sub_one : value (infinity - 1) = 2 ^ 1024 - 2 ^ 971 := by
  have h : units (infinity - 1) = (2 ^ 53 - 1) * 2 ^ 2045 := by
    rw [show infinity - 1 = 2045 * binade + (2 ^ 53 - 1) by decide,
      units_binade_add (by decide) (Or.inr (by decide))]
  have hsig : ((2 ^ 53 - 1 : ℕ) : ℚ) = 2 ^ 53 - 1 := by norm_num
  have e1 : (2 : ℚ) ^ 1024 = 2 ^ 971 * 2 ^ 53 := pow_add 2 971 53
  have e2 : (2 : ℚ) ^ 2045 = 2 ^ 971 * 2 ^ 1074 := pow_add 2 971 1074
  have hone : (2 : ℚ) ^ 1074 ≠ 0 := pow_ne_zero 1074 two_ne_zero
  rw [value, h, cast_unitsPerOne, Nat.cast_mul, hsig, Nat.cast_pow, Nat.cast_ofNat, e1, e2,
    div_eq_iff hone]
  generalize (2 : ℚ) ^ 971 = a
  generalize (2 : ℚ) ^ 1074 = b
  ring

/-- The overflow threshold is the midpoint between the largest finite number and what would be the
next one. -/
theorem two_mul_overflowThreshold :
    2 * overflowThreshold = value (infinity - 1) + value infinity := by
  have h : (2 : ℚ) ^ 971 = 2 ^ 970 * 2 := pow_succ 2 970
  rw [overflowThreshold, value_infinity, value_infinity_sub_one, h]
  generalize (2 : ℚ) ^ 1024 = a
  generalize (2 : ℚ) ^ 970 = b
  ring

/-- A number at or above the lower midpoint of a magnitude is no nearer to a lesser one, and as near
only if the magnitude is even. -/
theorem AboveMid.dist_le {x : ℚ} {m k : ℕ} (h : AboveMid x m) (hkm : k < m) :
    |x - value m| ≤ |x - value k| ∧ (|x - value m| = |x - value k| → m % 2 = 0) := by
  obtain ⟨j, rfl⟩ : ∃ j, m = j + 1 := ⟨m - 1, by omega⟩
  have hkj : value k ≤ value j := value_strictMono.monotone (by omega)
  have hj : value j < value (j + 1) := value_strictMono (Nat.lt_succ_self j)
  have hmid : value j + value (j + 1) ≤ 2 * x := by
    rcases h j rfl with h | ⟨h, -⟩ <;> linarith
  have hk : |x - value k| = x - value k := abs_of_pos (by linarith)
  rw [hk]
  refine ⟨abs_le.2 ⟨by linarith, by linarith⟩, fun htie => ?_⟩
  rcases h j rfl with hlt | ⟨-, heven⟩
  · rcases abs_cases (x - value (j + 1)) with ⟨habs, -⟩ | ⟨habs, -⟩ <;> linarith
  · exact heven

/-- A number at or below the upper midpoint of a magnitude is no nearer to a greater one, and as
near only if the magnitude is even. -/
theorem BelowMid.dist_le {x : ℚ} {m k : ℕ} (h : BelowMid x m) (hmk : m < k) :
    |x - value m| ≤ |x - value k| ∧ (|x - value m| = |x - value k| → m % 2 = 0) := by
  have hk' : value (m + 1) ≤ value k := value_strictMono.monotone hmk
  have hm : value m < value (m + 1) := value_strictMono (Nat.lt_succ_self m)
  have hmid : 2 * x ≤ value m + value (m + 1) := by
    rcases h with h | ⟨h, -⟩ <;> linarith
  have hk : |x - value k| = -(x - value k) := abs_of_neg (by linarith)
  rw [hk]
  refine ⟨abs_le.2 ⟨by linarith, by linarith⟩, fun htie => ?_⟩
  rcases h with hlt | ⟨-, heven⟩
  · rcases abs_cases (x - value m) with ⟨habs, -⟩ | ⟨habs, -⟩ <;> linarith
  · exact heven

/-- A number that is as near to a magnitude as to the next one, or nearer, and as near only if the
magnitude is even, lies below the upper midpoint. -/
theorem belowMid_of_dist_le {x : ℚ} {m : ℕ} (hle : |x - value m| ≤ |x - value (m + 1)|)
    (htie : |x - value m| = |x - value (m + 1)| → m % 2 = 0) : BelowMid x m := by
  have hm : value m < value (m + 1) := value_strictMono (Nat.lt_succ_self m)
  have hmid : 2 * x ≤ value m + value (m + 1) := by
    rcases abs_cases (x - value m) with ⟨h1, h1'⟩ | ⟨h1, h1'⟩ <;>
      rcases abs_cases (x - value (m + 1)) with ⟨h2, h2'⟩ | ⟨h2, h2'⟩ <;> linarith
  rcases hmid.lt_or_eq with h | h
  · exact Or.inl h
  · refine Or.inr ⟨h, htie ?_⟩
    rw [abs_of_nonneg (by linarith), abs_of_neg (by linarith)]
    linarith

/-- A number that is as near to a magnitude as to the one before it, or nearer, and as near only if
the magnitude is even, lies above the lower midpoint. -/
theorem aboveMid_of_dist_le {x : ℚ} {m : ℕ}
    (h : ∀ k, m = k + 1 → |x - value m| ≤ |x - value k| ∧
      (|x - value m| = |x - value k| → m % 2 = 0)) : AboveMid x m := by
  rintro k rfl
  obtain ⟨hle, htie⟩ := h k rfl
  have hk : value k < value (k + 1) := value_strictMono (Nat.lt_succ_self k)
  have hmid : value k + value (k + 1) ≤ 2 * x := by
    rcases abs_cases (x - value k) with ⟨h1, h1'⟩ | ⟨h1, h1'⟩ <;>
      rcases abs_cases (x - value (k + 1)) with ⟨h2, h2'⟩ | ⟨h2, h2'⟩ <;> linarith
  rcases hmid.lt_or_eq with h | h
  · exact Or.inl h
  · refine Or.inr ⟨h, htie ?_⟩
    rw [abs_of_neg (by linarith), abs_of_nonneg (by linarith)]
    linarith

/-- **The two readings of rounding agree** below the overflow threshold, and only there is the
rounded magnitude finite. -/
theorem roundsTo_iff_isNearest {x : ℚ} {m : ℕ} :
    RoundsTo x m ∧ m < infinity ↔ x < overflowThreshold ∧ IsNearest x m := by
  have hthr := two_mul_overflowThreshold
  have hodd : (infinity - 1) % 2 = 1 := by decide
  have hlast : infinity - 1 + 1 = infinity := by decide
  constructor
  · rintro ⟨h, hm⟩
    have hbelow := h.below hm
    have hle : value m ≤ value (infinity - 1) := value_strictMono.monotone (by omega)
    have hle' : value (m + 1) ≤ value infinity := value_strictMono.monotone (by omega)
    refine ⟨?_, hm, fun k hk => ?_, fun k hk htie => ?_⟩
    · rcases hbelow with hlt | ⟨heq, heven⟩
      · linarith
      · have hne : m ≠ infinity - 1 := by
          rintro rfl
          omega
        have hlt : value m < value (infinity - 1) := value_strictMono (by omega)
        linarith
    · rcases Nat.lt_trichotomy k m with hkm | rfl | hkm
      · exact (h.above.dist_le hkm).1
      · exact le_rfl
      · exact (hbelow.dist_le hkm).1
    · rcases Nat.lt_trichotomy k m with hkm | rfl | hkm
      · exact Or.inr ((h.above.dist_le hkm).2 htie)
      · exact Or.inl rfl
      · exact Or.inr ((hbelow.dist_le hkm).2 htie)
  · rintro ⟨hx, h⟩
    have hm := h.lt_infinity
    refine ⟨⟨hm.le, ?_, fun _ => ?_⟩, hm⟩
    · refine aboveMid_of_dist_le fun k hk => ⟨h.dist_le k (by omega), fun htie => ?_⟩
      rcases h.even_of_tie k (by omega) htie with hkm | heven
      · omega
      · exact heven
    · rcases Nat.lt_or_ge (m + 1) infinity with hnext | hnext
      · refine belowMid_of_dist_le (h.dist_le (m + 1) hnext) fun htie => ?_
        rcases h.even_of_tie (m + 1) hnext htie with hkm | heven
        · omega
        · exact heven
      · obtain rfl : m = infinity - 1 := by omega
        exact Or.inl (by rw [hlast]; linarith)

/-- A number below the overflow threshold rounds to a finite magnitude. -/
theorem RoundsTo.lt_infinity {x : ℚ} {m : ℕ} (h : RoundsTo x m) (hx : x < overflowThreshold) :
    m < infinity := by
  refine lt_of_le_of_ne h.le_infinity ?_
  rintro rfl
  have hthr := two_mul_overflowThreshold
  rcases h.above (infinity - 1) (by decide) with hlt | ⟨heq, -⟩ <;> linarith

/-- The integers of 64 bits are far below the overflow threshold. -/
theorem lt_overflowThreshold {n : ℕ} (h : n < 2 ^ 64) : (n : ℚ) < overflowThreshold := by
  have hn : (n : ℚ) < 2 ^ 64 := by exact_mod_cast h
  have hle : (2 : ℚ) ^ 64 ≤ 2 ^ 970 := pow_le_pow_right₀ one_le_two (by decide)
  have e : (2 : ℚ) ^ 1024 = 2 ^ 970 * 2 ^ 54 := pow_add 2 970 54
  have htwice : (2 : ℚ) ^ 970 * 2 ≤ 2 ^ 970 * 2 ^ 54 :=
    mul_le_mul_of_nonneg_left (by norm_num) (pow_nonneg zero_le_two 970)
  rw [overflowThreshold, e]
  generalize (2 : ℚ) ^ 970 = a at hle htwice ⊢
  linarith only [hn, hle, htwice]

/-- **The real of a word is the one nearest to it.** -/
theorem isNearest_ofInt {n : ℕ} (h : n < 2 ^ 64) :
    IsNearest n (ofInt n).magnitude ∧ (ofInt n).isNegative = false := by
  have hround := roundsTo_nearest n Nat.one_pos
  rw [Nat.cast_one, div_one] at hround
  have hfinite := hround.lt_infinity (lt_overflowThreshold h)
  have hparts : ofInt n = ofParts false (nearest n 1) := by
    rw [ofInt, decide_eq_false (by omega), Int.natAbs_natCast]
  rw [hparts, magnitude_ofParts false hfinite.le, isNegative_ofParts false hfinite.le]
  exact ⟨(roundsTo_iff_isNearest.1 ⟨hround, hfinite⟩).2, rfl⟩

end StrictJson.Binary64
