import StrictJson.Binary64.Text
import StrictJson.Proofs.Binary64.Signed

/-!
# What the Shortest Decimal Number Is

The decimal number by which a magnitude is written, measured against every other decimal number. It
is **shortest**: no decimal number with fewer digits rounds to the magnitude, and of those with as
many that do, none is closer to its value.

The search only looks at the two points next to the value on each grid. That suffices since rounding
is monotone: what lies between two numbers that round to a magnitude rounds to it too, so if neither
neighbour on a grid rounds to the magnitude then nothing does that is not strictly inside their
cell. A decimal number with few digits never is, be its digits at the places of the grid or not: it
is a point of the grid, or so small that it is no greater than the lower neighbour.

From shortness it is seen on which side of a power of ten the digits lie. They lie on the side of
the value, provided that the power is no greater than the number it rounds to, for then the power
itself is a candidate with a single digit.

## Main definitions

* `Decimal.gridBelow`, `Decimal.gridAbove`, `Decimal.OutsideCell`: the neighbours of a value on a
  grid, and the numbers that are not strictly between them.
* `Decimal.IsShortest`: no decimal number with fewer digits rounds to the magnitude, and none with
  as many is closer.

## Main results

* `Binary64.RoundsTo.between`: what rounds to a magnitude has no gaps.
* `Decimal.isShortest_shortest`: the shortest decimal number is shortest.
* `Decimal.IsShortest.pow_le_toRat_iff`: it lies on the same side of a power of ten as the value.
-/

namespace StrictJson.Binary64

variable {x y z : ℚ} {m k : ℕ}

/-! ### Rounding is monotone -/

theorem AboveMid.mono (h : AboveMid x m) (hxz : x ≤ z) : AboveMid z m := by
  intro k hk
  rcases hxz.lt_or_eq with hlt | rfl
  · rcases h k hk with h | ⟨h, -⟩
    · exact .inl (by linarith)
    · exact .inl (by linarith)
  · exact h k hk

theorem BelowMid.mono (h : BelowMid x m) (hzx : z ≤ x) : BelowMid z m := by
  rcases hzx.lt_or_eq with hlt | rfl
  · rcases h with h | ⟨h, -⟩
    · exact .inl (by linarith)
    · exact .inl (by linarith)
  · exact h

/-- **What rounds to a magnitude has no gaps.** -/
theorem RoundsTo.between (hx : RoundsTo x m) (hy : RoundsTo y m) (hxz : x ≤ z) (hzy : z ≤ y) :
    RoundsTo z m :=
  ⟨hx.le_infinity, hx.above.mono hxz, fun h => (hy.below h).mono hzy⟩

/-- **Rounding is monotone.** -/
theorem RoundsTo.mono (hx : RoundsTo x m) (hy : RoundsTo y k) (hxy : x ≤ y) : m ≤ k := by
  by_contra hlt
  have hm := hx.le_infinity
  exact (hy.below (by omega)).not_aboveMid (hx.above.mono hxy) (by omega)

end StrictJson.Binary64

namespace StrictJson.Decimal

open Binary64

/-! ### Digits -/

/-- The number of digits is the length of the text. -/
theorem length_toDigits (n : ℕ) : (Nat.toDigits 10 n).length = length n := by
  fun_induction length n with
  | case1 n h => rw [Nat.toDigits_of_lt_base h, List.length_singleton]
  | case2 n h ih =>
      rw [Nat.toDigits_of_base_le (by decide) (by omega), List.length_append, ih,
        List.length_singleton]

theorem length_pos (n : ℕ) : 0 < length n :=
  length_toDigits n ▸ Nat.length_toDigits_pos

theorem length_le_iff {n k : ℕ} (hk : 0 < k) : length n ≤ k ↔ n < 10 ^ k := by
  rw [← length_toDigits]
  exact Nat.length_toDigits_le_iff (by decide) hk

theorem lt_pow_length (n : ℕ) : n < 10 ^ length n :=
  (length_le_iff (length_pos n)).1 le_rfl

theorem pow_le_of_lt_length {n k : ℕ} (hn : n ≠ 0) (h : k < length n) : 10 ^ k ≤ n := by
  rcases Nat.eq_zero_or_pos k with rfl | hk
  · rw [pow_zero]
    omega
  · by_contra hlt
    exact absurd ((length_le_iff hk).2 (not_le.1 hlt)) (not_le.2 h)

/-- The value of digits with further zeros. -/
theorem toRat_mul_pow (digits cut : ℕ) (exponent : ℤ) :
    toRat ⟨digits * 10 ^ cut, exponent⟩ = toRat ⟨digits, cut + exponent⟩ := by
  rw [toRat, toRat, zpow_add₀ (by norm_num), zpow_natCast]
  push_cast
  ring

theorem toRat_add (a b : ℕ) (exponent : ℤ) :
    toRat ⟨a + b, exponent⟩ = toRat ⟨a, exponent⟩ + toRat ⟨b, exponent⟩ := by
  rw [toRat, toRat, toRat, Nat.cast_add, add_mul]

/-- Decimal numbers with the same power of ten compare as their digits do. -/
theorem toRat_le_toRat_iff {a b : ℕ} {exponent : ℤ} :
    toRat ⟨a, exponent⟩ ≤ toRat ⟨b, exponent⟩ ↔ a ≤ b := by
  rw [toRat, toRat, mul_le_mul_iff_of_pos_right (zpow_pos (by norm_num) _), Nat.cast_le]

theorem roundsTo_iff {d : Decimal} {m : ℕ} : RoundsTo d.toRat m ↔ d.nearest = m :=
  ⟨fun h => d.roundsTo_nearest.unique h, fun h => h ▸ d.roundsTo_nearest⟩

/-! ### The cell of a value on a grid -/

/-- The last point of a grid that is not past the value `exact`, which is given in units of ten to
the power -1074. The grid keeps all but the last `cut` digits. -/
def gridBelow (exact cut : ℕ) : Decimal :=
  ⟨exact / 10 ^ cut, cut + -1074⟩

/-- The first point of a grid past the value. -/
def gridAbove (exact cut : ℕ) : Decimal :=
  ⟨exact / 10 ^ cut + 1, cut + -1074⟩

/-- A number is **outside the cell** of the value: not strictly between its two neighbours. -/
def OutsideCell (exact cut : ℕ) (x : ℚ) : Prop :=
  x ≤ (gridBelow exact cut).toRat ∨ (gridAbove exact cut).toRat ≤ x

variable {tie : Tie} {m exact cut : ℕ} {c d : Decimal} {x : ℚ}

theorem toRat_gridBelow_le (exact cut : ℕ) :
    (gridBelow exact cut).toRat ≤ toRat ⟨exact, -1074⟩ := by
  rw [gridBelow, ← toRat_mul_pow, toRat_le_toRat_iff]
  exact Nat.div_mul_le_self _ _

theorem le_toRat_gridAbove (exact cut : ℕ) :
    toRat ⟨exact, -1074⟩ ≤ (gridAbove exact cut).toRat := by
  rw [gridAbove, ← toRat_mul_pow, toRat_le_toRat_iff, mul_comm]
  exact (Nat.lt_mul_div_succ _ (Nat.pow_pos (by decide))).le

/-- The lower neighbour is as far away as the digits that are cut off say. -/
theorem toRat_sub_gridBelow (exact cut : ℕ) :
    toRat ⟨exact, -1074⟩ - (gridBelow exact cut).toRat = toRat ⟨exact % 10 ^ cut, -1074⟩ := by
  rw [sub_eq_iff_eq_add, gridBelow, ← toRat_mul_pow, ← toRat_add, Nat.mod_add_div']

/-- The upper neighbour is as far away as what they lack to a full step. -/
theorem gridAbove_sub_toRat (exact cut : ℕ) :
    (gridAbove exact cut).toRat - toRat ⟨exact, -1074⟩ =
      toRat ⟨10 ^ cut - exact % 10 ^ cut, -1074⟩ := by
  have hstep : (exact / 10 ^ cut + 1) * 10 ^ cut = 10 ^ cut - exact % 10 ^ cut + exact := by
    have hsum := Nat.div_add_mod' exact (10 ^ cut)
    have hlt := Nat.mod_lt exact (Nat.pow_pos (n := cut) (a := 10) (by decide))
    rw [add_one_mul]
    omega
  rw [sub_eq_iff_eq_add, gridAbove, ← toRat_mul_pow, ← toRat_add, hstep]

/-- **A decimal number with few digits is never inside the cell.** It is a point of the grid, or its
digits are at lower places and do not reach the lower neighbour. -/
theorem outsideCell_of_lt {j : ℕ} (hexact : 10 ^ (j + cut) ≤ exact) (hc : c.digits < 10 ^ (j + 1)) :
    OutsideCell exact cut c.toRat := by
  rcases le_or_gt ((cut : ℤ) + -1074) c.exponent with hle | hlt
  · obtain ⟨n, hn⟩ : ∃ n : ℕ, c.exponent = n + (cut + -1074) :=
      ⟨(c.exponent - (cut + -1074)).toNat, by omega⟩
    have hpoint : c.toRat = toRat ⟨c.digits * 10 ^ n, cut + -1074⟩ := by
      rw [toRat_mul_pow, ← hn]
    rw [OutsideCell, hpoint, gridBelow, gridAbove, toRat_le_toRat_iff, toRat_le_toRat_iff]
    omega
  · left
    obtain ⟨n, hn⟩ : ∃ n : ℕ, (cut : ℤ) + -1074 = (n + 1 : ℕ) + c.exponent :=
      ⟨(cut + -1074 - c.exponent - 1).toNat, by omega⟩
    have hbelow : 10 ^ j ≤ exact / 10 ^ cut := by
      rw [Nat.le_div_iff_mul_le (Nat.pow_pos (by decide)), ← pow_add]
      exact hexact
    rw [gridBelow, hn, ← toRat_mul_pow]
    refine toRat_le_toRat_iff.2 ?_
    calc c.digits ≤ 10 ^ j * 10 ^ 1 := by rw [← pow_add]; exact hc.le
      _ ≤ exact / 10 ^ cut * 10 ^ (n + 1) :=
        Nat.mul_le_mul hbelow (Nat.pow_le_pow_right (by decide) (by omega))

/-! ### The candidates -/

/-- The candidate of a grid is one of the two neighbours that round to the magnitude, and the closer
one if both do. -/
theorem candidate?_eq_some (h : candidate? tie m exact cut = some d) :
    (d = gridBelow exact cut ∧
        ((gridAbove exact cut).nearest = m → 2 * (exact % 10 ^ cut) ≤ 10 ^ cut)) ∨
      (d = gridAbove exact cut ∧
        ((gridBelow exact cut).nearest = m → 10 ^ cut ≤ 2 * (exact % 10 ^ cut))) := by
  simp only [candidate?, Nat.pow_eq, Int.sub_eq_add_neg] at h
  split at h
  · next _ hhigh =>
    refine .inl ⟨(Option.some.inj h).symm, fun habove => ?_⟩
    exact absurd habove (beq_eq_false_iff_ne.1 hhigh)
  · next hlow _ =>
    refine .inr ⟨(Option.some.inj h).symm, fun hbelow => ?_⟩
    exact absurd hbelow (beq_eq_false_iff_ne.1 hlow)
  · exact absurd h (Option.some_ne_none d).symm
  · split_ifs at h with hrest
    · exact .inl ⟨(Option.some.inj h).symm, fun _ => by omega⟩
    · exact .inr ⟨(Option.some.inj h).symm, fun _ => by omega⟩

/-- A grid without a candidate has no neighbour that rounds to the magnitude. -/
theorem candidate?_eq_none (h : candidate? tie m exact cut = none) :
    (gridBelow exact cut).nearest ≠ m ∧ (gridAbove exact cut).nearest ≠ m := by
  simp only [candidate?, Nat.pow_eq, Int.sub_eq_add_neg] at h
  split at h
  · exact absurd h (Option.some_ne_none _)
  · exact absurd h (Option.some_ne_none _)
  · next hlow hhigh => exact ⟨beq_eq_false_iff_ne.1 hlow, beq_eq_false_iff_ne.1 hhigh⟩
  · split_ifs at h

/-- The lower neighbour rounds to the magnitude if a number does that is not past it. -/
theorem nearest_gridBelow (hexact : RoundsTo (toRat ⟨exact, -1074⟩) m) (hx : RoundsTo x m)
    (h : x ≤ (gridBelow exact cut).toRat) : (gridBelow exact cut).nearest = m :=
  roundsTo_iff.1 (hx.between hexact h (toRat_gridBelow_le exact cut))

/-- The upper neighbour rounds to the magnitude if a number does that is not before it. -/
theorem nearest_gridAbove (hexact : RoundsTo (toRat ⟨exact, -1074⟩) m) (hx : RoundsTo x m)
    (h : (gridAbove exact cut).toRat ≤ x) : (gridAbove exact cut).nearest = m :=
  roundsTo_iff.1 (hexact.between hx (le_toRat_gridAbove exact cut) h)

/-- **The candidate of a grid is closest** to the value among the numbers outside the cell that
round to the magnitude. -/
theorem dist_le_of_candidate? (hexact : RoundsTo (toRat ⟨exact, -1074⟩) m)
    (h : candidate? tie m exact cut = some d) (hx : RoundsTo x m)
    (hcell : OutsideCell exact cut x) :
    |d.toRat - toRat ⟨exact, -1074⟩| ≤ |x - toRat ⟨exact, -1074⟩| := by
  have hbelow := toRat_gridBelow_le exact cut
  have habove := le_toRat_gridAbove exact cut
  have hx' : x ≤ (gridBelow exact cut).toRat ∧ |x - toRat ⟨exact, -1074⟩| =
        toRat ⟨exact, -1074⟩ - x ∨
      (gridAbove exact cut).toRat ≤ x ∧ |x - toRat ⟨exact, -1074⟩| =
        x - toRat ⟨exact, -1074⟩ := by
    refine hcell.imp (fun hlow => ⟨hlow, ?_⟩) fun hhigh => ⟨hhigh, ?_⟩
    · rw [abs_of_nonpos (sub_nonpos.2 (hlow.trans hbelow)), neg_sub]
    · rw [abs_of_nonneg (sub_nonneg.2 (habove.trans hhigh))]
  rcases candidate?_eq_some h with ⟨rfl, hcloser⟩ | ⟨rfl, hcloser⟩
  · rw [abs_of_nonpos (sub_nonpos.2 hbelow), neg_sub]
    rcases hx' with ⟨hlow, hdist⟩ | ⟨hhigh, hdist⟩
    · linarith
    · have hrest := hcloser (nearest_gridAbove hexact hx hhigh)
      have hlower : toRat ⟨exact, -1074⟩ - (gridBelow exact cut).toRat ≤
          (gridAbove exact cut).toRat - toRat ⟨exact, -1074⟩ := by
        rw [toRat_sub_gridBelow, gridAbove_sub_toRat, toRat_le_toRat_iff]
        omega
      linarith
  · rw [abs_of_nonneg (sub_nonneg.2 habove)]
    rcases hx' with ⟨hlow, hdist⟩ | ⟨hhigh, hdist⟩
    · have hrest := hcloser (nearest_gridBelow hexact hx hlow)
      have hupper : (gridAbove exact cut).toRat - toRat ⟨exact, -1074⟩ ≤
          toRat ⟨exact, -1074⟩ - (gridBelow exact cut).toRat := by
        rw [toRat_sub_gridBelow, gridAbove_sub_toRat, toRat_le_toRat_iff]
        omega
      linarith
    · linarith

/-- **A grid without a candidate has nothing outside the cell** that rounds to the magnitude. -/
theorem not_outsideCell_of_candidate? (hexact : RoundsTo (toRat ⟨exact, -1074⟩) m)
    (h : candidate? tie m exact cut = none) (hx : RoundsTo x m) : ¬ OutsideCell exact cut x := by
  obtain ⟨hlow, hhigh⟩ := candidate?_eq_none h
  rintro (hcell | hcell)
  · exact hlow (nearest_gridBelow hexact hx hcell)
  · exact hhigh (nearest_gridAbove hexact hx hcell)

/-! ### The search -/

/-- A decimal number is **found** on the grid that leaves out `cut` digits: it is closest among the
numbers outside the cell that round to the magnitude, and on the coarser grids, up to the one that
leaves out `most` digits, there are none such. -/
structure FoundOn (exact m most cut : ℕ) (d : Decimal) : Prop where
  le_most : cut ≤ most
  digits_le : d.digits ≤ exact / 10 ^ cut + 1
  closest : ∀ x, RoundsTo x m → OutsideCell exact cut x →
    |d.toRat - toRat ⟨exact, -1074⟩| ≤ |x - toRat ⟨exact, -1074⟩|
  coarser : ∀ k, cut < k → k ≤ most → ∀ x, RoundsTo x m → ¬ OutsideCell exact k x

theorem digits_le_of_candidate? (h : candidate? tie m exact cut = some d) :
    d.digits ≤ exact / 10 ^ cut + 1 := by
  rcases candidate?_eq_some h with ⟨rfl, -⟩ | ⟨rfl, -⟩
  · exact Nat.le_succ _
  · exact le_rfl

/-- **The search finds a number** on some grid. -/
theorem exists_foundOn_search (tie : Tie) (hexact : RoundsTo (toRat ⟨exact, -1074⟩) m)
    (most : ℕ) : ∃ cut, FoundOn exact m most cut (search tie m exact most) := by
  induction most with
  | zero =>
      refine ⟨0, le_rfl, ?_, fun x _ _ => ?_, fun k hk hle => by omega⟩
      · rw [search, pow_zero, Nat.div_one]
        exact Nat.le_succ exact
      · rw [search, sub_self, abs_zero]
        exact abs_nonneg _
  | succ most ih =>
      rw [search]
      split
      · next d hd =>
        exact ⟨most + 1, le_rfl, digits_le_of_candidate? hd,
          fun x hx hcell => dist_le_of_candidate? hexact hd hx hcell,
          fun k hk hle => by omega⟩
      · next hnone =>
        obtain ⟨cut, hcut⟩ := ih
        refine ⟨cut, hcut.le_most.trans (Nat.le_succ most), hcut.digits_le, hcut.closest,
          fun k hk hle x hx => ?_⟩
        rcases Nat.lt_or_ge most k with hlast | hk'
        · obtain rfl : k = most + 1 := by omega
          exact not_outsideCell_of_candidate? hexact hnone hx
        · exact hcut.coarser k hk hk' x hx

/-! ### Zeros at the end -/

theorem digits_trim_le (d : Decimal) : d.trim.digits ≤ d.digits := by
  fun_induction trim d with
  | case1 d h ih => exact ih.trans (Nat.div_le_self _ _)
  | case2 d h => exact le_rfl

/-- No zero is left at the end. -/
theorem digits_trim_mod (h : d.digits ≠ 0) : d.trim.digits % 10 ≠ 0 := by
  fun_induction trim d with
  | case1 d hzero ih =>
      refine ih ?_
      show d.digits / 10 ≠ 0
      omega
  | case2 d hzero => exact fun hmod => hzero ⟨h, hmod⟩

/-- A power of ten loses a digit, so what is no greater has fewer digits in the end. -/
theorem digits_trim_lt {j : ℕ} (hne : d.digits ≠ 0) (h : d.digits ≤ 10 ^ (j + 1)) :
    d.trim.digits < 10 ^ (j + 1) := by
  refine lt_of_le_of_ne (d.digits_trim_le.trans h) fun heq => digits_trim_mod hne ?_
  rw [heq, pow_succ, Nat.mul_mod_left]

/-! ### Shortest numbers -/

/-- A decimal number is **shortest** for a magnitude: it rounds to it, none with fewer digits does,
and of those that do with no more digits none is closer. -/
structure IsShortest (d : Decimal) (m : ℕ) : Prop where
  roundsTo : RoundsTo d.toRat m
  fewest : ∀ c : Decimal, RoundsTo c.toRat m → length d.digits ≤ length c.digits
  closest : ∀ c : Decimal, RoundsTo c.toRat m → length c.digits ≤ length d.digits →
    |d.toRat - value m| ≤ |c.toRat - value m|

/-- What rounds to another magnitude than zero has digits. -/
theorem digits_ne_zero (h0 : m ≠ 0) (h : RoundsTo d.toRat m) : d.digits ≠ 0 := by
  intro hdigits
  rw [roundsTo_iff, nearest, if_pos hdigits] at h
  exact h0 h.symm

/-- The number that is found first is shortest once its zeros are cut off. -/
theorem isShortest_trim_search (tie : Tie) (h0 : m ≠ 0) (hm : m < infinity)
    (hexact : toRat ⟨exact, -1074⟩ = value m) :
    IsShortest (trim (search tie m exact (length exact - 1))) m := by
  have hrounds : RoundsTo (toRat ⟨exact, -1074⟩) m := hexact ▸ roundsTo_value hm
  have hne : exact ≠ 0 := digits_ne_zero h0 hrounds
  obtain ⟨cut, hfound⟩ := exists_foundOn_search tie hrounds (length exact - 1)
  have hsearch : RoundsTo (search tie m exact (length exact - 1)).toRat m :=
    roundsTo_iff.2 (nearest_search (roundsTo_iff.1 hrounds) _)
  generalize search tie m exact (length exact - 1) = d at *
  have hmost := hfound.le_most
  have hlen := length_pos exact
  -- The grid keeps `j + 1` digits.
  obtain ⟨j, hj⟩ : ∃ j, length exact = j + cut + 1 := ⟨length exact - 1 - cut, by omega⟩
  have hge : 10 ^ (j + cut) ≤ exact := pow_le_of_lt_length hne (by omega)
  have hlt : exact / 10 ^ cut < 10 ^ (j + 1) := by
    rw [Nat.div_lt_iff_lt_mul (Nat.pow_pos (by decide)), ← pow_add,
      show j + 1 + cut = length exact by omega]
    exact lt_pow_length exact
  have htrim : length d.trim.digits ≤ j + 1 := by
    refine (length_le_iff (Nat.succ_pos j)).2 (digits_trim_lt (digits_ne_zero h0 hsearch) ?_)
    exact hfound.digits_le.trans hlt
  have hfewest : ∀ c : Decimal, RoundsTo c.toRat m → j + 1 ≤ length c.digits := by
    intro c hc
    by_contra hshort
    have hpos := length_pos c.digits
    obtain ⟨i, rfl⟩ : ∃ i, j = i + 1 := ⟨j - 1, by omega⟩
    refine hfound.coarser (cut + 1) (Nat.lt_succ_self cut) (by omega) c.toRat hc ?_
    refine outsideCell_of_lt (j := i) (by rwa [show i + (cut + 1) = i + 1 + cut by omega]) ?_
    exact (length_le_iff (Nat.succ_pos i)).1 (by omega)
  refine ⟨d.toRat_trim.symm ▸ hsearch, fun c hc => htrim.trans (hfewest c hc), fun c hc hle => ?_⟩
  rw [d.toRat_trim, ← hexact]
  exact hfound.closest c.toRat hc
    (outsideCell_of_lt hge ((length_le_iff (Nat.succ_pos j)).1 (hle.trans htrim)))

/-- **The shortest decimal number is shortest.** -/
theorem isShortest_shortest (tie : Tie) (h0 : m ≠ 0) (hm : m < infinity) :
    IsShortest (shortest tie m) m :=
  isShortest_trim_search tie h0 hm (toRat_units m)

/-- The shortest decimal number does not end in a zero. -/
theorem digits_shortest_mod (tie : Tie) (h0 : m ≠ 0) (hm : m < infinity) :
    (shortest tie m).digits % 10 ≠ 0 := by
  have hdigits := digits_ne_zero h0 (isShortest_shortest tie h0 hm).roundsTo
  exact digits_trim_mod fun hzero => hdigits (Nat.le_zero.1 (hzero ▸ digits_trim_le _))

/-! ### Powers of ten -/

theorem toRat_one (e : ℤ) : toRat ⟨1, e⟩ = 10 ^ e := by
  rw [toRat, Nat.cast_one, one_mul]

/-- **The leading digit** of a number stands at its leading exponent. -/
theorem leadingExponent_spec (hd : d.digits ≠ 0) :
    10 ^ d.leadingExponent ≤ d.toRat ∧ d.toRat < 10 ^ (d.leadingExponent + 1) := by
  have hlen : d.digitText.length = length d.digits := length_toDigits d.digits
  have hpos := length_pos d.digits
  have hlow : d.leadingExponent = (length d.digits - 1 : ℕ) + d.exponent := by
    rw [leadingExponent, hlen]
    omega
  have hhigh : d.leadingExponent + 1 = (length d.digits : ℕ) + d.exponent := by
    rw [leadingExponent, hlen]
    omega
  have hself : d.toRat = d.digits * 10 ^ d.exponent := rfl
  have hunit : (0 : ℚ) < 10 ^ d.exponent := zpow_pos (by norm_num) _
  rw [hhigh, hlow, zpow_add₀ (by norm_num), zpow_add₀ (by norm_num), zpow_natCast, zpow_natCast,
    hself, mul_le_mul_iff_of_pos_right hunit, mul_lt_mul_iff_of_pos_right hunit]
  exact ⟨by exact_mod_cast pow_le_of_lt_length hd (by omega),
    by exact_mod_cast lt_pow_length d.digits⟩

/-- The leading exponent says which powers of ten are no greater than the number. -/
theorem le_leadingExponent_iff (hd : d.digits ≠ 0) {e : ℤ} :
    e ≤ d.leadingExponent ↔ 10 ^ e ≤ d.toRat := by
  obtain ⟨hlow, hhigh⟩ := leadingExponent_spec hd
  constructor
  · intro he
    exact (zpow_le_zpow_right₀ (by norm_num) he).trans hlow
  · intro he
    have hlt := (zpow_lt_zpow_iff_right₀ (by norm_num)).1 (he.trans_lt hhigh)
    omega

/-- **A shortest number lies on the same side of a power of ten as the value**, if the power is not
past the number that it rounds to. The power has one digit only, so where it rounds to the magnitude
itself, a shortest number before it would not be closest. -/
theorem IsShortest.pow_le_toRat_iff (h : IsShortest d m) (hm : m < infinity) {e : ℤ}
    (he : (10 : ℚ) ^ e ≤ value (nearest ⟨1, e⟩)) : (10 : ℚ) ^ e ≤ d.toRat ↔ 10 ^ e ≤ value m := by
  have hpower : RoundsTo (10 ^ e) (nearest ⟨1, e⟩) := toRat_one e ▸ roundsTo_nearest ⟨1, e⟩
  constructor
  · intro hle
    exact he.trans (value_strictMono.monotone (hpower.mono h.roundsTo hle))
  · intro hle
    by_contra hlt
    have hlt := not_le.1 hlt
    have hsame : nearest ⟨1, e⟩ = m :=
      le_antisymm (hpower.mono (roundsTo_value hm) hle) (h.roundsTo.mono hpower hlt.le)
    have hone : length 1 ≤ length d.digits :=
      ((length_le_iff Nat.one_pos).2 (by decide)).trans (length_pos d.digits)
    have hcloser := h.closest ⟨1, e⟩ (roundsTo_iff.2 hsame) hone
    rw [toRat_one, abs_of_neg (by linarith), abs_of_nonpos (by linarith)] at hcloser
    linarith

/-- The bounds of what compact text writes in full are rounded upwards, if at all. -/
theorem pow_le_value_nearest {e : ℤ} (he : e = -4 ∨ e = 16) :
    (10 : ℚ) ^ e ≤ value (nearest ⟨1, e⟩) := by
  have hpos : (0 : ℚ) < unitsPerOne := Nat.cast_pos.2 unitsPerOne_pos
  rcases he with rfl | rfl
  · have hunits : unitsPerOne ≤ units (nearest ⟨1, -4⟩) * 10 ^ 4 := by decide +kernel
    rw [value, show (-4 : ℤ) = -(4 : ℕ) from rfl, zpow_neg, zpow_natCast, inv_eq_one_div,
      div_le_div_iff₀ (by norm_num) hpos, one_mul]
    generalize unitsPerOne = one at hunits ⊢
    generalize units (nearest ⟨1, -4⟩) = n at hunits ⊢
    exact_mod_cast hunits
  · have hunits : 10 ^ 16 * unitsPerOne ≤ units (nearest ⟨1, 16⟩) := by decide +kernel
    rw [value, show (16 : ℤ) = (16 : ℕ) from rfl, zpow_natCast, le_div_iff₀ hpos]
    generalize unitsPerOne = one at hunits ⊢
    generalize units (nearest ⟨1, 16⟩) = n at hunits ⊢
    exact_mod_cast hunits

/-- **Compact text writes a number in full** exactly if its value is between the bounds. -/
theorem plain_shortest_iff (tie : Tie) (h0 : m ≠ 0) (hm : m < infinity) :
    -4 ≤ (shortest tie m).leadingExponent ∧ (shortest tie m).leadingExponent < 16 ↔
      (10 : ℚ) ^ (-4 : ℤ) ≤ value m ∧ value m < 10 ^ (16 : ℤ) := by
  have hshort := isShortest_shortest tie h0 hm
  have hdigits := digits_ne_zero h0 hshort.roundsTo
  rw [← not_le (a := (16 : ℤ)), ← not_le (a := (10 : ℚ) ^ (16 : ℤ)),
    le_leadingExponent_iff hdigits, le_leadingExponent_iff hdigits,
    hshort.pow_le_toRat_iff hm (pow_le_value_nearest (.inl rfl)),
    hshort.pow_le_toRat_iff hm (pow_le_value_nearest (.inr rfl))]

end StrictJson.Decimal

namespace StrictJson.Binary64

/-! ### Shortest numbers with a sign -/

/-- A number **can be written with `n` digits**: it is an integer of at most that many, times a
power of ten. -/
def HasDigits (n : ℕ) (x : ℚ) : Prop :=
  ∃ a e : ℤ, |a| < 10 ^ n ∧ x = a * 10 ^ e

/-- The size of such a number is a decimal number with no more digits. -/
theorem HasDigits.exists_decimal {n : ℕ} {x : ℚ} (h : HasDigits n x) :
    ∃ c : Decimal, c.digits < 10 ^ n ∧ c.toRat = |x| := by
  obtain ⟨a, e, ha, rfl⟩ := h
  refine ⟨⟨a.natAbs, e⟩, ?_, ?_⟩
  · have hcast : ((a.natAbs : ℤ)) < ((10 ^ n : ℕ) : ℤ) := by
      rw [Int.natCast_natAbs]
      exact_mod_cast ha
    exact Int.ofNat_lt.1 hcast
  · rw [Decimal.toRat, abs_mul, abs_of_pos (zpow_pos (by norm_num : (0 : ℚ) < 10) e),
      Nat.cast_natAbs, Int.cast_abs]

variable {d : Decimal} {y : Binary64} {n : ℕ} {x : ℚ}

/-- **No number with fewer digits than a shortest one rounds to the real.** -/
theorem length_le_of_hasDigits (h : d.IsShortest y.magnitude) (hy : y.isFinite = true)
    (hzero : y.isZero = false) (hx : HasDigits n x) (hround : RoundsToReal x y) :
    Decimal.length d.digits ≤ n := by
  obtain ⟨c, hdigits, hc⟩ := hx.exists_decimal
  have hc' : RoundsTo c.toRat y.magnitude := hc ▸ ((roundsToReal_iff hy hzero).1 hround).2
  have hne : c.digits ≠ 0 := Decimal.digits_ne_zero (by simpa [isZero] using hzero) hc'
  have hn : 0 < n := by
    by_contra hn
    obtain rfl : n = 0 := by omega
    omega
  exact (h.fewest c hc').trans ((Decimal.length_le_iff hn).2 hdigits)

/-- **No number with as many digits as a shortest one is closer to the real**, among those that
round to it. -/
theorem dist_le_of_hasDigits (h : d.IsShortest y.magnitude) (hy : y.isFinite = true)
    (hzero : y.isZero = false) (hx : HasDigits (Decimal.length d.digits) x)
    (hround : RoundsToReal x y) :
    |withSign y.isNegative d.toRat - y.toRat| ≤ |x - y.toRat| := by
  obtain ⟨c, hdigits, hc⟩ := hx.exists_decimal
  obtain ⟨hsign, hsize⟩ := (roundsToReal_iff hy hzero).1 hround
  have hlen := (Decimal.length_le_iff (Decimal.length_pos d.digits)).2 hdigits
  calc |withSign y.isNegative d.toRat - y.toRat| = |d.toRat - value y.magnitude| :=
        abs_withSign_sub_withSign _ _ _
    _ ≤ |c.toRat - value y.magnitude| := h.closest c (hc ▸ hsize) hlen
    _ = |withSign y.isNegative |x| - y.toRat| := by
        rw [hc, toRat, abs_withSign_sub_withSign]
    _ = |x - y.toRat| := by rw [hsign]

end StrictJson.Binary64
