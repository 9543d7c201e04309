import Mathlib.Data.List.Forall2
import StrictJson.Proofs.Packed.Unit

/-!
# Rows of Units

Some things have units of bytes, and the units of several things stand in a row, one after the
other. If no unit is empty and no unit is the start of another, then a row is known from its bytes
and every buffer starts with a longest row: the one behind which no further unit stands.

## Main definitions

* `IsRow`: the bytes of some things, one after the other.
* `IsPrefixCode`: units are not empty, and at one place there is at most one.
* `Scalar.IsUnit`: the unit of a scalar, as it is read.

## Main results

* `exists_leading_row`: a row at the start of a buffer behind which no unit stands.
* `IsRow.longest`: such a row is the longest one.
* `isPrefixCode_isUnit`: the units of scalars are such units.
-/

namespace StrictJson.Packed

variable {α : Type} {U : α → List UInt8 → Prop} {bytes : List UInt8}

/-- The bytes are the **row** of some things: their units, one after the other. -/
def IsRow (U : α → List UInt8 → Prop) (as : List α) (bytes : List UInt8) : Prop :=
  ∃ units, List.Forall₂ U as units ∧ units.flatten = bytes

@[simp] theorem isRow_nil_iff : IsRow U [] bytes ↔ bytes = [] := by
  simp [IsRow, eq_comm]

theorem isRow_cons_iff {a : α} {as : List α} :
    IsRow U (a :: as) bytes ↔ ∃ unit rest, U a unit ∧ IsRow U as rest ∧ unit ++ rest = bytes := by
  simp only [IsRow, List.forall₂_cons_left_iff]
  constructor
  · rintro ⟨_, ⟨unit, units, ha, has, rfl⟩, rfl⟩
    exact ⟨unit, units.flatten, ha, ⟨units, has, rfl⟩, rfl⟩
  · rintro ⟨unit, _, ha, ⟨units, has, rfl⟩, rfl⟩
    exact ⟨unit :: units, ⟨unit, units, ha, has, rfl⟩, rfl⟩

/-- The units are a **prefix code**: none is empty, and at one place there is at most one. -/
structure IsPrefixCode (U : α → List UInt8 → Prop) : Prop where
  ne_nil : ∀ {a unit}, U a unit → unit ≠ []
  unique : ∀ {a a' unit unit' bytes}, U a unit → U a' unit' → unit <+: bytes → unit' <+: bytes →
    a = a' ∧ unit = unit'

/-- A buffer starts with a row, maybe an empty one, behind which no unit stands. -/
theorem exists_leading_row (hU : ∀ {a unit}, U a unit → unit ≠ []) (buffer : List UInt8) :
    ∃ as front, IsRow U as front ∧ front <+: buffer ∧
      ∀ a unit, U a unit → ¬ unit <+: buffer.drop front.length := by
  -- Each unit that is taken off makes the buffer shorter.
  induction hlength : buffer.length using Nat.strongRecOn generalizing buffer with
  | ind n ih =>
      by_cases hstop : ∃ a unit, U a unit ∧ unit <+: buffer
      · obtain ⟨a, unit, ha, rest, rfl⟩ := hstop
        have hpos : 0 < unit.length := List.length_pos_iff.2 (hU ha)
        rw [List.length_append] at hlength
        obtain ⟨as, front, has, hfront, hstop⟩ := ih rest.length (by omega) rest rfl
        refine ⟨a :: as, unit ++ front, isRow_cons_iff.2 ⟨unit, front, ha, has, rfl⟩,
          (List.prefix_append_right_inj unit).2 hfront, ?_⟩
        rwa [List.length_append, ← List.drop_drop, List.drop_left]
      · refine ⟨[], [], isRow_nil_iff.2 rfl, List.nil_prefix, fun a unit ha hunit => ?_⟩
        exact hstop ⟨a, unit, ha, hunit⟩

/-- A row behind which no unit stands is the **longest** of those at the start of the bytes: any
other is the row of some of its things. -/
theorem IsRow.longest (hU : IsPrefixCode U) {as as' : List α} {front front' : List UInt8}
    (h : IsRow U as front) (hfront : front <+: bytes)
    (hstop : ∀ a unit, U a unit → ¬ unit <+: bytes.drop front.length)
    (h' : IsRow U as' front') (hfront' : front' <+: bytes) : as' <+: as ∧ front' <+: front := by
  induction as generalizing as' front front' bytes with
  | nil =>
      obtain rfl := isRow_nil_iff.1 h
      cases as' with
      | nil => exact ⟨List.nil_prefix, isRow_nil_iff.1 h' ▸ List.nil_prefix⟩
      | cons a' as' =>
          obtain ⟨unit', rest', ha', -, rfl⟩ := isRow_cons_iff.1 h'
          exact absurd ((List.prefix_append unit' rest').trans hfront') (hstop a' unit' ha')
  | cons a as ih =>
      obtain ⟨unit, rest, ha, has, rfl⟩ := isRow_cons_iff.1 h
      cases as' with
      | nil => exact ⟨List.nil_prefix, isRow_nil_iff.1 h' ▸ List.nil_prefix⟩
      | cons a' as' =>
          obtain ⟨unit', rest', ha', has', rfl⟩ := isRow_cons_iff.1 h'
          obtain ⟨rfl, rfl⟩ := hU.unique ha ha'
            ((List.prefix_append unit rest).trans hfront)
            ((List.prefix_append unit' rest').trans hfront')
          obtain ⟨more, rfl⟩ := (List.prefix_append unit rest).trans hfront
          rw [List.prefix_append_right_inj] at hfront hfront'
          rw [List.length_append, ← List.drop_drop, List.drop_left] at hstop
          obtain ⟨hfewer, hrest⟩ := ih has hfront hstop has' hfront'
          exact ⟨List.cons_prefix_cons.2 ⟨rfl, hfewer⟩, (List.prefix_append_right_inj unit).2 hrest⟩

/-- **A row is known from its bytes.** -/
theorem IsRow.unique (hU : IsPrefixCode U) {as as' : List α} (h : IsRow U as bytes)
    (h' : IsRow U as' bytes) : as = as' := by
  have hstop : ∀ a unit, U a unit → ¬ unit <+: bytes.drop bytes.length := by
    intro a unit ha hunit
    rw [List.drop_length, List.prefix_nil] at hunit
    exact hU.ne_nil ha hunit
  obtain ⟨hle, -⟩ := h.longest hU (List.prefix_refl bytes) hstop h' (List.prefix_refl bytes)
  obtain ⟨hge, -⟩ := h'.longest hU (List.prefix_refl bytes) hstop h (List.prefix_refl bytes)
  exact hge.eq_of_length_le hle.length_le

/-! ### Scalars -/

/-- The bytes are the **unit** of a scalar that a reader finds there. Raw bytes are not among them:
where they were packed, a text is found. -/
def Scalar.IsUnit (s : Scalar) (unit : List UInt8) : Prop :=
  (∀ raw, s ≠ .bytes raw) ∧ s.unitBytes = .ok unit

/-- A scalar is read where its unit stands, and nothing else is. -/
theorem readUnit_eq_ok_iff_isUnit {buffer : List UInt8} {p q : ℕ} {s : Scalar} :
    readUnit buffer p = .ok (s, q) ↔
      ∃ unit, s.IsUnit unit ∧ unit <+: buffer.drop p ∧ q = p + unit.length := by
  rw [readUnit_eq_ok_iff]
  constructor
  · rintro ⟨hs, unit, hunit, hstands, hq⟩
    exact ⟨unit, ⟨hs, hunit⟩, hstands, hq⟩
  · rintro ⟨unit, ⟨hs, hunit⟩, hstands, hq⟩
    exact ⟨hs, unit, hunit, hstands, hq⟩

/-- **The units of scalars are a prefix code.** -/
theorem isPrefixCode_isUnit : IsPrefixCode Scalar.IsUnit where
  ne_nil h := ne_nil_of_unitBytes h.2
  unique := by
    intro s s' unit unit' bytes h h' hstands hstands'
    have hread : readUnit bytes 0 = .ok (s, 0 + unit.length) :=
      readUnit_eq_ok_iff_isUnit.2 ⟨unit, h, hstands, rfl⟩
    have hread' : readUnit bytes 0 = .ok (s', 0 + unit'.length) :=
      readUnit_eq_ok_iff_isUnit.2 ⟨unit', h', hstands', rfl⟩
    obtain ⟨rfl, -⟩ := Prod.mk.inj (Except.ok.inj (hread.symm.trans hread'))
    exact ⟨rfl, Except.ok.inj (h.2.symm.trans h'.2)⟩

end StrictJson.Packed
