import StrictJson.Proofs.Packed.Canonical

/-!
# Units at Any Place

Where a unit stands makes no difference. What has been taken from a buffer is still there when bytes
are put before and behind it, so a read has the same outcome, and only positions move on by as many
bytes as stand before. The one outcome that does not last is that bytes are missing: they may be
among those that are put behind.

Every piece of a unit is asked for before it is looked at. So a unit that is cut short is always
missing a piece: any other outcome would last when the rest of the unit is put back, and then the
unit would not be read.

## Main definitions

* `UnpackFault.IsMissing`: that bytes are missing.
* `UnpackFault.shift`: a fault with its position moved on.

## Main results

* `readUnit_surrounded`, `isMissing_or_readUnit_surrounded`: what lasts in a longer buffer.
* `isMissing_of_truncated`: a unit that is cut short is missing a piece.
* `unpackNext_placed`: units are read alike at any place.
-/

namespace StrictJson.Packed

/-- The fault is that **bytes are missing**. -/
def UnpackFault.IsMissing : UnpackFault → Prop
  | missing .. => True
  | _ => False

/-- A fault with its position **moved on** by `n` bytes. What is wrong with a unit that was read has
no position. -/
def UnpackFault.shift (n : ℕ) : UnpackFault → UnpackFault
  | missing piece needed left position => missing piece needed left (n + position)
  | unknownTag found position => unknownTag found (n + position)
  | badBoolean found position => badBoolean found (n + position)
  | malformedText position => malformedText (n + position)
  | badErrorCode number position => badErrorCode number (n + position)
  | wrongUnit wanted found => wrongUnit wanted found
  | malformedBytes => malformedBytes
  | carried code => carried code

variable {buffer : List UInt8} {p q n : ℕ} {e : UnpackFault} {s : Scalar}

/-- A fault that is moved on is reported alike, at the position that is moved on. -/
theorem toError_shift (e : UnpackFault) (n : ℕ) :
    (e.shift n).toError.code = e.toError.code ∧
      (e.shift n).toError.offset = e.toError.offset.map (n + ·) := by
  cases e <;> exact ⟨rfl, rfl⟩

/-- Missing bytes are the end of the input come too early. -/
theorem UnpackFault.IsMissing.code (h : e.IsMissing) :
    e.toError.code = .prematureEndOfInput := by
  cases e <;> first | rfl | exact absurd h id

/-! ### Pieces -/

/-- What stands in a buffer stands in a longer one. -/
theorem prefix_drop_surrounded (before after : List UInt8) {bytes : List UInt8}
    (h : bytes <+: buffer.drop p) :
    bytes <+: (before ++ buffer ++ after).drop (before.length + p) := by
  rw [List.append_assoc, List.drop_length_add_append, List.drop_append]
  exact h.trans (List.prefix_append _ _)

/-- A byte that is not there is missing. -/
theorem isMissing_of_takeByte {piece : Piece} (h : takeByte buffer p piece = .error e) :
    e.IsMissing := by
  rw [takeByte] at h
  split at h
  · simp at h
  · rw [← Except.error.inj h]
    trivial

/-- Bytes that are not there are missing. -/
theorem isMissing_of_take {piece : Piece} (h : take buffer p piece n = .error e) :
    e.IsMissing := by
  simp only [take] at h
  split_ifs at h
  rw [← Except.error.inj h]
  trivial

/-- A word that is not there is missing. -/
theorem isMissing_of_takeWord {piece : Piece} (h : takeWord buffer p piece n = .error e) :
    e.IsMissing := by
  rw [takeWord] at h
  cases htake : take buffer p piece n with
  | ok bytes => simp [htake, Except.map] at h
  | error f =>
      rw [htake] at h
      obtain rfl := Except.error.inj h
      exact isMissing_of_take htake

theorem takeByte_surrounded (before after : List UInt8) {piece : Piece} {b : UInt8}
    (h : takeByte buffer p piece = .ok b) :
    takeByte (before ++ buffer ++ after) (before.length + p) piece = .ok b :=
  takeByte_eq_ok_iff.2 (prefix_drop_surrounded before after (takeByte_eq_ok_iff.1 h))

theorem take_surrounded (before after : List UInt8) {piece : Piece} {bytes : List UInt8}
    (h : take buffer p piece n = .ok bytes) :
    take (before ++ buffer ++ after) (before.length + p) piece n = .ok bytes := by
  obtain ⟨hlen, hstands⟩ := take_eq_ok_iff.1 h
  exact take_eq_ok_iff.2 ⟨hlen, prefix_drop_surrounded before after hstands⟩

theorem takeWord_surrounded (before after : List UInt8) {piece : Piece} {k : ℕ}
    (h : takeWord buffer p piece n = .ok k) :
    takeWord (before ++ buffer ++ after) (before.length + p) piece n = .ok k := by
  obtain ⟨hlt, hstands⟩ := takeWord_eq_ok_iff.1 h
  exact takeWord_eq_ok_iff.2 ⟨hlt, prefix_drop_surrounded before after hstands⟩

/-! ### Payloads -/

/-- A text fails for missing bytes, or in every longer buffer. -/
theorem isMissing_or_readText_surrounded (before after : List UInt8)
    (h : readText buffer p = .error e) :
    e.IsMissing ∨ readText (before ++ buffer ++ after) (before.length + p) =
      .error (e.shift before.length) := by
  rw [readText] at h
  split at h
  · next f hf => exact .inl (Except.error.inj h ▸ isMissing_of_takeWord hf)
  · next length hlength =>
    split at h
    · next f hf => exact .inl (Except.error.inj h ▸ isMissing_of_take hf)
    · next raw hraw =>
      split at h
      · simp at h
      · next hchars =>
        obtain rfl := Except.error.inj h
        have htext : take (before ++ buffer ++ after) (before.length + (p + 4)) .stringPayload
            length = .ok raw := take_surrounded before after hraw
        rw [← Nat.add_assoc] at htext
        right
        rw [readText]
        simp only [takeWord_surrounded before after hlength, htext, hchars]
        rfl

/-- A payload fails for missing bytes, or in every longer buffer. -/
theorem isMissing_or_readPayload_surrounded (before after : List UInt8) {tag : Tag}
    (h : readPayload buffer p tag = .error e) :
    e.IsMissing ∨ readPayload (before ++ buffer ++ after) (before.length + p) tag =
      .error (e.shift before.length) := by
  cases tag with
  | null => exact absurd h nofun
  | string => exact isMissing_or_readText_surrounded before after h
  | integer | real =>
      simp only [readPayload] at h
      split at h
      · simp at h
      · next f hf => exact .inl (Except.error.inj h ▸ isMissing_of_takeWord hf)
  | boolean =>
      simp only [readPayload] at h
      split at h
      · next b hb =>
        split_ifs at h with hzero hone
        obtain rfl := Except.error.inj h
        right
        simp only [readPayload, takeByte_surrounded before after hb, if_neg hzero, if_neg hone]
        rfl
      · next f hf => exact .inl (Except.error.inj h ▸ isMissing_of_takeByte hf)
  | error =>
      simp only [readPayload] at h
      split at h
      · next k hk =>
        split at h
        · simp at h
        · next hcode =>
          obtain rfl := Except.error.inj h
          right
          simp only [readPayload, takeWord_surrounded before after hk, hcode]
          rfl
      · next f hf => exact .inl (Except.error.inj h ▸ isMissing_of_takeWord hf)

/-! ### Units -/

/-- **A unit that is read is read in every longer buffer.** -/
theorem readUnit_surrounded (before after : List UInt8)
    (h : readUnit buffer p = .ok (s, q)) :
    readUnit (before ++ buffer ++ after) (before.length + p) = .ok (s, before.length + q) := by
  obtain ⟨hs, unit, hunit, hstands, rfl⟩ := readUnit_eq_ok_iff.1 h
  exact readUnit_eq_ok_iff.2
    ⟨hs, unit, hunit, prefix_drop_surrounded before after hstands, (Nat.add_assoc ..).symm⟩

/-- **A unit that is not read fails for missing bytes, or in every longer buffer.** -/
theorem isMissing_or_readUnit_surrounded (before after : List UInt8)
    (h : readUnit buffer p = .error e) :
    e.IsMissing ∨ readUnit (before ++ buffer ++ after) (before.length + p) =
      .error (e.shift before.length) := by
  rw [readUnit] at h
  split at h
  · next f hf => exact .inl (Except.error.inj h ▸ isMissing_of_takeByte hf)
  · next b hb =>
    split at h
    · next tag htag =>
      refine (isMissing_or_readPayload_surrounded before after h).imp_right fun hpayload => ?_
      rw [readUnit, takeByte_surrounded before after hb]
      simp only [htag]
      exact hpayload
    · next htag =>
      obtain rfl := Except.error.inj h
      right
      rw [readUnit, takeByte_surrounded before after hb]
      simp only [htag]
      rfl

/-- **A unit that is cut short is missing a piece.** -/
theorem isMissing_of_truncated {unit w : List UInt8} (hunit : s.unitBytes = .ok unit)
    (hw : w <+: unit) (hne : w ≠ unit) (before : List UInt8) :
    ∃ e, readUnit (before ++ w) before.length = .error e ∧ e.IsMissing := by
  obtain ⟨rest, rfl⟩ := hw
  have hwhole : readUnit (before ++ w ++ rest) before.length =
      .ok (s.asRead, before.length + (w ++ rest).length) := by
    refine readUnit_of_stands hunit ?_
    rw [List.append_assoc, List.drop_left]
  cases hcut : readUnit (before ++ w) before.length with
  | ok r =>
      -- the same unit would be read from the whole, past the end of what is left of it
      obtain ⟨t, q⟩ := r
      have hlonger := readUnit_surrounded [] rest hcut
      simp only [List.nil_append, List.length_nil, Nat.zero_add] at hlonger
      obtain ⟨-, rfl⟩ := Prod.mk.inj (Except.ok.inj (hlonger.symm.trans hwhole))
      have hprogress := (readUnit_progress hcut).2
      rw [List.length_append, List.length_append] at hprogress
      have hnil : rest = [] := List.length_eq_zero_iff.1 (by omega)
      rw [hnil, List.append_nil] at hne
      exact absurd rfl hne
  | error e =>
      refine ⟨e, rfl, ?_⟩
      rcases isMissing_or_readUnit_surrounded [] rest hcut with h | hlonger
      · exact h
      · simp only [List.nil_append, List.length_nil, Nat.zero_add] at hlonger
        exact absurd (hlonger.symm.trans hwhole) nofun

/-! ### Targets -/

/-- What is wrong with a scalar for a target has no position, and is not that bytes are missing. -/
theorem of_ofScalar_eq_error {target : Target} (h : target.ofScalar s = .error e) :
    ¬ e.IsMissing ∧ ∀ n, e.shift n = e := by
  induction target with
  | optional inner ih =>
      rw [ofScalar_optional] at h
      split_ifs at h with hnull
      cases hinner : inner.ofScalar s with
      | ok x => simp [hinner, Except.map] at h
      | error f =>
          rw [hinner] at h
          obtain rfl := Except.error.inj h
          exact ih hinner
  | value =>
      have hvalue : Target.valueOfScalar s = .error e := h
      cases s with
      | bytes raw =>
          rw [Target.valueOfScalar] at hvalue
          split at hvalue
          · simp at hvalue
          · obtain rfl := Except.error.inj hvalue
            exact ⟨id, fun _ => rfl⟩
      | error code =>
          obtain rfl := Except.error.inj hvalue
          exact ⟨id, fun _ => rfl⟩
      | _ => simp [Target.valueOfScalar] at hvalue
  | _ =>
      cases s <;> cases h <;> exact ⟨id, fun _ => rfl⟩

variable {target : Target}

/-- **What is unpacked is unpacked from every longer buffer.** -/
theorem unpack_surrounded (before after : List UInt8) {x : target.Carrier}
    (h : unpack target buffer p = .ok (x, q)) :
    unpack target (before ++ buffer ++ after) (before.length + p) =
      .ok (x, before.length + q) := by
  obtain ⟨s, hread, hx⟩ := unpack_eq_ok_iff.1 h
  exact unpack_eq_ok_iff.2 ⟨s, readUnit_surrounded before after hread, hx⟩

/-- **What is not unpacked fails for missing bytes, or in every longer buffer.** -/
theorem isMissing_or_unpack_surrounded (before after : List UInt8)
    (h : unpack target buffer p = .error e) :
    e.IsMissing ∨ unpack target (before ++ buffer ++ after) (before.length + p) =
      .error (e.shift before.length) := by
  rw [unpack] at h
  split at h
  · next f hread =>
    obtain rfl := Except.error.inj h
    refine (isMissing_or_readUnit_surrounded before after hread).imp_right fun hlonger => ?_
    simp only [unpack, hlonger]
  · next s next hread =>
    split at h
    · simp at h
    · next f hf =>
      obtain rfl := Except.error.inj h
      right
      simp only [unpack, readUnit_surrounded before after hread, hf, (of_ofScalar_eq_error hf).2]

/-- A fault that is no end of the input come too early, or that an error unit carries, is not that
bytes are missing. -/
theorem not_isMissing_of_code
    (h : e.toError.code ≠ .prematureEndOfInput ∨ ∃ code, e = .carried code) : ¬ e.IsMissing := by
  rcases h with hcode | ⟨code, rfl⟩
  · exact fun hmissing => hcode hmissing.code
  · exact id

/-! ### Carried positions -/

/-- **Units are read alike at any place**, and no unit is the start of another.

A unit that is cut short is the end of the input come too early, for every target and whatever
stands before it, and the position stays. What is read from a buffer is read as well when other
bytes stand before and behind it, at the position moved on. The same holds of what fails otherwise
than by the end of the input, and of what an error unit carries, whatever that is: the code is the
same, and the position that is reported is moved on, if there is one. -/
theorem unpackNext_placed (target : Target) :
    (∀ (s : Scalar) (unit w before : List UInt8), s.unitBytes = .ok unit → w <+: unit → w ≠ unit →
      ∃ e, unpackNext target (before ++ w) before.length = (.error e, before.length) ∧
        e.IsMissing ∧ e.toError.code = .prematureEndOfInput) ∧
    (∀ (buffer before after : List UInt8) (p q : ℕ) (x : target.Carrier),
      unpackNext target buffer p = (.ok x, q) →
      unpackNext target (before ++ buffer ++ after) (before.length + p) =
        (.ok x, before.length + q)) ∧
    (∀ (buffer before after : List UInt8) (p q : ℕ) (e : UnpackFault),
      unpackNext target buffer p = (.error e, q) →
      e.toError.code ≠ .prematureEndOfInput ∨ (∃ code, e = .carried code) →
      ∃ e', unpackNext target (before ++ buffer ++ after) (before.length + p) =
          (.error e', before.length + p) ∧
        e'.toError.code = e.toError.code ∧
        e'.toError.offset = e.toError.offset.map (before.length + ·)) := by
  refine ⟨fun s unit w before hunit hw hne => ?_, fun buffer before after p q x h => ?_,
    fun buffer before after p q e h hcode => ?_⟩
  · obtain ⟨e, hread, hmissing⟩ := isMissing_of_truncated hunit hw hne before
    refine ⟨e, unpackNext_eq_error_iff.2 ⟨?_, rfl⟩, hmissing, hmissing.code⟩
    simp only [unpack, hread]
  · rw [unpackNext_eq_ok_iff] at h ⊢
    exact unpack_surrounded before after h
  · have hfails := (unpackNext_eq_error_iff.1 h).1
    have hlonger := (isMissing_or_unpack_surrounded before after hfails).resolve_left
      (not_isMissing_of_code hcode)
    exact ⟨_, unpackNext_eq_error_iff.2 ⟨hlonger, rfl⟩, toError_shift e before.length⟩

/-- A tag without its payload is the end of the input come too early, also behind null and for a
target that does not want it. True is read between null and a letter. There an error unit that says
that the input ended is read as well, and fails with its code. -/
theorem unpackNext_placed_behindNull :
    (∃ e, unpackNext .integer [0x4e, 0x62] 1 = (.error e, 1) ∧ e.IsMissing) ∧
    unpackNext .boolean [0x4e, 0x62, 0x01, 0x61] 1 = (.ok true, 3) ∧
    ∃ e, unpackNext .value [0x4e, 0x45, 0x00, 0x00, 0x00, 0x11, 0x61] 1 = (.error e, 1) ∧
      e.toError.code = .prematureEndOfInput ∧ e.toError.offset = none := by
  obtain ⟨hcut, -, -⟩ := unpackNext_placed .integer
  obtain ⟨-, hread, -⟩ := unpackNext_placed .boolean
  obtain ⟨-, -, hfails⟩ := unpackNext_placed .value
  obtain ⟨e, hmissing, he, -⟩ :=
    hcut (.boolean true) [0x62, 0x01] [0x62] [0x4e] rfl ⟨[0x01], rfl⟩ (by decide)
  have herror : unpackNext .value [0x45, 0x00, 0x00, 0x00, 0x11] 0 =
      (.error (.carried .prematureEndOfInput), 0) := rfl
  exact ⟨⟨e, hmissing, he⟩, hread [0x62, 0x01] [0x4e] [0x61] 0 2 true rfl,
    hfails _ [0x4e] [0x61] 0 0 _ herror (.inr ⟨_, rfl⟩)⟩

end StrictJson.Packed
