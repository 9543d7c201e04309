import StrictJson.Packed.Target
import StrictJson.Packed.Writer
import StrictJson.Packed.WordLemmas
import StrictJson.Proofs.Utf8.WellFormed

/-!
# Units

Reading and writing of a single unit are inverse to each other. A reader looks at a buffer from a
position on, so every statement is about the bytes that stand there: `bytes <+: buffer.drop p` says
that `bytes` stand at `p`, whatever stands before and behind them. The pieces of a unit come first,
then payloads, then the unit; for each of them what is read is what is written, in both directions.

Raw bytes are the one scalar that is written and never read: the same bytes are read as a text.

## Main definitions

* `Scalar.asRead`: what a reader finds where a scalar was written.
* `Scalar.Fits`: the scalars that have a unit.

## Main results

* `readUnit_eq_ok_iff`: a unit is read where it stands, and nothing else is.
* `unitBytes_prefix_inj`: no unit is the start of another.
* `exists_unitBytes_iff`: which scalars have a unit.
-/

namespace StrictJson.Packed

variable {buffer : List UInt8} {p : ℕ} {piece : Piece}

/-! ### Pieces -/

/-- The bytes of a piece are taken where they stand. -/
theorem take_eq_ok_iff {bytes : List UInt8} {n : ℕ} :
    take buffer p piece n = .ok bytes ↔ bytes.length = n ∧ bytes <+: buffer.drop p := by
  simp only [take, ← List.length_drop]
  constructor
  · intro h
    split_ifs at h with hlen
    obtain rfl := Except.ok.inj h
    exact ⟨List.length_take_of_le (Nat.le_of_not_lt hlen), List.take_prefix n _⟩
  · rintro ⟨rfl, hbytes⟩
    rw [if_neg (Nat.not_lt.2 hbytes.length_le), ← List.prefix_iff_eq_take.1 hbytes]

/-- A single byte is taken where it stands. -/
theorem takeByte_eq_ok_iff {b : UInt8} :
    takeByte buffer p piece = .ok b ↔ [b] <+: buffer.drop p := by
  rw [takeByte, ← List.head?_drop]
  cases buffer.drop p with
  | nil => simp
  | cons x xs => simp [eq_comm]

/-- A word is taken where its bytes stand. -/
theorem takeWord_eq_ok_iff {width n : ℕ} :
    takeWord buffer p piece width = .ok n ↔
      n < 256 ^ width ∧ wordBytes width n <+: buffer.drop p := by
  rw [takeWord]
  constructor
  · intro h
    cases ht : take buffer p piece width with
    | error e => simp [ht, Except.map] at h
    | ok bytes =>
        obtain ⟨rfl, hbytes⟩ := take_eq_ok_iff.1 ht
        rw [ht] at h
        obtain rfl := Except.ok.inj h
        exact ⟨wordValue_lt bytes, (wordBytes_wordValue bytes).symm ▸ hbytes⟩
  · rintro ⟨hlt, hbytes⟩
    rw [take_eq_ok_iff.2 ⟨length_wordBytes width n, hbytes⟩, Except.map,
      wordValue_wordBytes_of_lt hlt]

/-- Two pieces stand one behind the other. -/
theorem append_prefix_drop_iff {a b : List UInt8} :
    a ++ b <+: buffer.drop p ↔ a <+: buffer.drop p ∧ b <+: buffer.drop (p + a.length) := by
  rw [← List.drop_drop]
  constructor
  · rintro ⟨rest, hrest⟩
    rw [← hrest, List.append_assoc, List.drop_left]
    exact ⟨List.prefix_append .., List.prefix_append ..⟩
  · rintro ⟨⟨rest, hrest⟩, hb⟩
    rw [← hrest, List.drop_left] at hb
    rw [← hrest]
    exact (List.prefix_append_right_inj a).2 hb

/-! ### Payloads -/

/-- The payload of a text is its length and the text. -/
theorem textPayload_eq_ok_iff {raw payload : List UInt8} :
    textPayload raw = .ok payload ↔
      raw.length < 0x100000000 ∧ wordBytes 4 raw.length ++ raw = payload := by
  rw [textPayload]
  split_ifs with h
  · simp [h]
  · simp [h]

/-- A text is read where its payload stands. -/
theorem readText_eq_ok_iff {s : Scalar} {q : ℕ} :
    readText buffer p = .ok (s, q) ↔ ∃ t payload, s = .text t ∧
      textPayload (Utf8.ofString t) = .ok payload ∧ payload <+: buffer.drop p ∧
      q = p + payload.length := by
  constructor
  · intro h
    rw [readText] at h
    split at h
    · simp at h
    · next n hn =>
      obtain ⟨hlt, hlength⟩ := takeWord_eq_ok_iff.1 hn
      split at h
      · simp at h
      · next raw hraw =>
        obtain ⟨rfl, htext⟩ := take_eq_ok_iff.1 hraw
        split at h
        · next chars hchars =>
          obtain ⟨rfl, rfl⟩ := Prod.mk.inj (Except.ok.inj h)
          have hraw : Utf8.ofString (String.ofList chars) = raw := by
            rw [Utf8.ofString, String.toList_ofList, Utf8.decode?_eq_some_iff.1 hchars]
          refine ⟨String.ofList chars, wordBytes 4 raw.length ++ raw, rfl, ?_, ?_, ?_⟩
          · rw [hraw, textPayload_eq_ok_iff]
            exact ⟨hlt, rfl⟩
          · rw [append_prefix_drop_iff, length_wordBytes]
            exact ⟨hlength, htext⟩
          · rw [List.length_append, length_wordBytes, Nat.add_assoc]
        · simp at h
  · rintro ⟨t, payload, rfl, hpayload, hstands, rfl⟩
    obtain ⟨hlt, rfl⟩ := textPayload_eq_ok_iff.1 hpayload
    rw [append_prefix_drop_iff, length_wordBytes] at hstands
    have hlength : takeWord buffer p .stringLength 4 = .ok (Utf8.ofString t).length :=
      takeWord_eq_ok_iff.2 ⟨hlt, hstands.1⟩
    have htext : take buffer (p + 4) .stringPayload (Utf8.ofString t).length =
        .ok (Utf8.ofString t) := take_eq_ok_iff.2 ⟨rfl, hstands.2⟩
    have hchars : Utf8.decode? (Utf8.ofString t) = some t.toList := Utf8.decode?_eq_some_iff.2 rfl
    rw [readText]
    simp only [hlength, htext, hchars, String.ofList_toList, List.length_append, length_wordBytes,
      Nat.add_assoc]

/-- Integers as their words, which lose nothing. -/
theorem toInt64_ofNat_toNat (n : Int64) : (UInt64.ofNat n.toUInt64.toNat).toInt64 = n := by
  rw [UInt64.ofNat_toNat]
  rfl

/-- **What is written as a payload is read** where it stands, unless it was offered as raw bytes. -/
theorem readPayload_of_stands {s : Scalar} {payload : List UInt8} (hs : ∀ raw, s ≠ .bytes raw)
    (hpayload : s.payload = .ok payload) (hstands : payload <+: buffer.drop p) :
    readPayload buffer p s.tag = .ok (s, p + payload.length) := by
  cases s with
  | null =>
      obtain rfl := Except.ok.inj hpayload
      rfl
  | boolean b =>
      obtain rfl := Except.ok.inj hpayload
      have hbyte : takeByte buffer p .boolean = .ok (if b then 1 else 0) :=
        takeByte_eq_ok_iff.2 hstands
      simp only [Scalar.tag, readPayload, hbyte]
      cases b <;> rfl
  | integer n =>
      obtain rfl := Except.ok.inj hpayload
      have hword : takeWord buffer p .integer 8 = .ok n.toUInt64.toNat :=
        takeWord_eq_ok_iff.2 ⟨n.toUInt64.toNat_lt, hstands⟩
      simp only [Scalar.tag, readPayload, hword, toInt64_ofNat_toNat, length_wordBytes]
  | real x =>
      obtain rfl := Except.ok.inj hpayload
      have hword : takeWord buffer p .real 8 = .ok x.bits.toNat :=
        takeWord_eq_ok_iff.2 ⟨x.bits.toNat_lt, hstands⟩
      simp only [Scalar.tag, readPayload, hword, UInt64.ofNat_toNat, length_wordBytes]
  | text t => exact readText_eq_ok_iff.2 ⟨t, payload, rfl, hpayload, hstands, rfl⟩
  | bytes raw => exact absurd rfl (hs raw)
  | error code =>
      obtain rfl := Except.ok.inj hpayload
      have hword : takeWord buffer p .errorCode 4 = .ok code.number :=
        takeWord_eq_ok_iff.2 ⟨code.number_lt, hstands⟩
      simp only [Scalar.tag, readPayload, hword, ErrorCode.ofNumber?_number, length_wordBytes]

/-- **What is read as a payload is written** where it stands. Each check of the reader is needed
here: without it two payloads would be read alike. -/
theorem payload_of_readPayload {tag : Tag} {s : Scalar} {q : ℕ}
    (h : readPayload buffer p tag = .ok (s, q)) :
    s.tag = tag ∧ (∀ raw, s ≠ .bytes raw) ∧ ∃ payload, s.payload = .ok payload ∧
      payload <+: buffer.drop p ∧ q = p + payload.length := by
  cases tag with
  | null =>
      obtain ⟨rfl, rfl⟩ := Prod.mk.inj (Except.ok.inj h)
      exact ⟨rfl, by simp, [], rfl, List.nil_prefix, rfl⟩
  | boolean =>
      simp only [readPayload] at h
      split at h
      · next b hb =>
        have hstands := takeByte_eq_ok_iff.1 hb
        split_ifs at h with hzero hone
        · obtain ⟨rfl, rfl⟩ := Prod.mk.inj (Except.ok.inj h)
          exact ⟨rfl, by simp, [0], rfl, hzero ▸ hstands, rfl⟩
        · obtain ⟨rfl, rfl⟩ := Prod.mk.inj (Except.ok.inj h)
          exact ⟨rfl, by simp, [1], rfl, hone ▸ hstands, rfl⟩
      · simp at h
  | integer =>
      simp only [readPayload] at h
      split at h
      · next n hn =>
        obtain ⟨hlt, hstands⟩ := takeWord_eq_ok_iff.1 hn
        obtain ⟨rfl, rfl⟩ := Prod.mk.inj (Except.ok.inj h)
        have hword : (UInt64.ofNat n).toInt64.toUInt64.toNat = n := by
          rw [UInt64.toUInt64_toInt64, UInt64.toNat_ofNat_of_lt' hlt]
        refine ⟨rfl, by simp, wordBytes 8 n, ?_, hstands, by rw [length_wordBytes]⟩
        rw [Scalar.payload, hword]
      · simp at h
  | real =>
      simp only [readPayload] at h
      split at h
      · next n hn =>
        obtain ⟨hlt, hstands⟩ := takeWord_eq_ok_iff.1 hn
        obtain ⟨rfl, rfl⟩ := Prod.mk.inj (Except.ok.inj h)
        refine ⟨rfl, by simp, wordBytes 8 n, ?_, hstands, by rw [length_wordBytes]⟩
        rw [Scalar.payload, UInt64.toNat_ofNat_of_lt' hlt]
      · simp at h
  | string =>
      obtain ⟨t, payload, rfl, hpayload, hstands, rfl⟩ := readText_eq_ok_iff.1 h
      exact ⟨rfl, by simp, payload, hpayload, hstands, rfl⟩
  | error =>
      simp only [readPayload] at h
      split at h
      · next n hn =>
        obtain ⟨-, hstands⟩ := takeWord_eq_ok_iff.1 hn
        split at h
        · next code hcode =>
          obtain ⟨rfl, rfl⟩ := Prod.mk.inj (Except.ok.inj h)
          have hnumber := ErrorCode.number_of_ofNumber? hcode
          refine ⟨rfl, by simp, wordBytes 4 n, ?_, hstands, by rw [length_wordBytes]⟩
          rw [Scalar.payload, hnumber]
        · simp at h
      · simp at h

/-! ### Units -/

/-- The unit of a scalar is its tag and its payload. -/
theorem unitBytes_eq_ok_iff {s : Scalar} {unit : List UInt8} :
    s.unitBytes = .ok unit ↔ ∃ payload, s.payload = .ok payload ∧ s.tag.byte :: payload = unit := by
  rw [Scalar.unitBytes]
  cases s.payload <;> simp

/-- **A unit is read where it stands, and nothing else is.** -/
theorem readUnit_eq_ok_iff {s : Scalar} {q : ℕ} :
    readUnit buffer p = .ok (s, q) ↔ (∀ raw, s ≠ .bytes raw) ∧ ∃ unit, s.unitBytes = .ok unit ∧
      unit <+: buffer.drop p ∧ q = p + unit.length := by
  constructor
  · intro h
    rw [readUnit] at h
    split at h
    · simp at h
    · next b hb =>
      have htag := takeByte_eq_ok_iff.1 hb
      split at h
      · next tag hof =>
        obtain ⟨rfl, hs, payload, hpayload, hstands, rfl⟩ := payload_of_readPayload h
        rw [← Tag.byte_of_ofByte? hof] at htag
        refine ⟨hs, _, unitBytes_eq_ok_iff.2 ⟨payload, hpayload, rfl⟩, ?_, ?_⟩
        · exact append_prefix_drop_iff.2 ⟨htag, hstands⟩
        · rw [List.length_cons]
          omega
      · simp at h
  · rintro ⟨hs, unit, hunit, hstands, rfl⟩
    obtain ⟨payload, hpayload, rfl⟩ := unitBytes_eq_ok_iff.1 hunit
    rw [← List.singleton_append, append_prefix_drop_iff, List.length_singleton] at hstands
    rw [readUnit, takeByte_eq_ok_iff.2 hstands.1]
    simp only [Tag.ofByte?_byte]
    rw [readPayload_of_stands hs hpayload hstands.2, List.length_cons, Nat.add_right_comm,
      Nat.add_assoc]

/-- The unit of a scalar is not empty. -/
theorem ne_nil_of_unitBytes {s : Scalar} {unit : List UInt8} (h : s.unitBytes = .ok unit) :
    unit ≠ [] := by
  obtain ⟨payload, -, rfl⟩ := unitBytes_eq_ok_iff.1 h
  exact List.cons_ne_nil _ _

/-! ### Raw bytes -/

/-- What a reader finds where a scalar was written: **the same scalar**, or the text that raw bytes
spell. -/
def Scalar.asRead : Scalar → Scalar
  | .bytes raw =>
    match Utf8.decode? raw with
    | some chars => .text (String.ofList chars)
    | none => .bytes raw
  | s => s

/-- The bytes of a text are read as the text. -/
theorem asRead_ofString (t : String) : (Scalar.bytes (Utf8.ofString t)).asRead = .text t := by
  have hchars : Utf8.decode? (Utf8.ofString t) = some t.toList := Utf8.decode?_eq_some_iff.2 rfl
  rw [Scalar.asRead, hchars]
  exact congrArg Scalar.text String.ofList_toList

theorem asRead_of_ne_bytes {s : Scalar} (hs : ∀ raw, s ≠ .bytes raw) : s.asRead = s := by
  cases s with
  | bytes raw => exact absurd rfl (hs raw)
  | _ => rfl

/-- Raw bytes that are packed are those of a text. -/
theorem ne_bytes_or_ofString {s : Scalar} {unit : List UInt8} (h : s.unitBytes = .ok unit) :
    (∀ raw, s ≠ .bytes raw) ∨ ∃ t, s = .bytes (Utf8.ofString t) := by
  cases s with
  | bytes raw =>
      obtain ⟨payload, hpayload, -⟩ := unitBytes_eq_ok_iff.1 h
      rw [Scalar.payload] at hpayload
      split_ifs at hpayload with hvalid
      obtain ⟨chars, rfl⟩ := Utf8.isValid_iff.1 hvalid
      exact .inr ⟨String.ofList chars, by rw [Utf8.ofString, String.toList_ofList]⟩
  | _ => exact .inl nofun

/-- **What is read has the same tag and the same unit**, and is no longer raw. -/
theorem asRead_of_unitBytes {s : Scalar} {unit : List UInt8} (h : s.unitBytes = .ok unit) :
    (∀ raw, s.asRead ≠ .bytes raw) ∧ s.asRead.tag = s.tag ∧ s.asRead.unitBytes = .ok unit := by
  obtain hs | ⟨t, rfl⟩ := ne_bytes_or_ofString h
  · rw [asRead_of_ne_bytes hs]
    exact ⟨hs, rfl, h⟩
  · rw [asRead_ofString]
    refine ⟨nofun, rfl, ?_⟩
    obtain ⟨payload, hpayload, rfl⟩ := unitBytes_eq_ok_iff.1 h
    have hvalid : Utf8.isValid (Utf8.ofString t) = true := Utf8.isValid_iff.2 ⟨t.toList, rfl⟩
    rw [Scalar.payload, if_pos hvalid] at hpayload
    exact unitBytes_eq_ok_iff.2 ⟨payload, hpayload, rfl⟩

/-- **What was written is read** where its unit stands. -/
theorem readUnit_of_stands {s : Scalar} {unit : List UInt8} (h : s.unitBytes = .ok unit)
    (hstands : unit <+: buffer.drop p) : readUnit buffer p = .ok (s.asRead, p + unit.length) := by
  obtain ⟨hs, -, hunit⟩ := asRead_of_unitBytes h
  exact readUnit_eq_ok_iff.2 ⟨hs, unit, hunit, hstands, rfl⟩

/-- **No unit is the start of another.** -/
theorem unitBytes_prefix_inj {s t : Scalar} {unit unit' bytes : List UInt8}
    (hs : s.unitBytes = .ok unit) (ht : t.unitBytes = .ok unit') (h : unit <+: bytes)
    (h' : unit' <+: bytes) : unit = unit' := by
  have hread : readUnit bytes 0 = .ok (s.asRead, 0 + unit.length) := readUnit_of_stands hs h
  have hread' : readUnit bytes 0 = .ok (t.asRead, 0 + unit'.length) := readUnit_of_stands ht h'
  obtain ⟨-, hlen⟩ := Prod.mk.inj (Except.ok.inj (hread.symm.trans hread'))
  rw [List.prefix_iff_eq_take.1 h, List.prefix_iff_eq_take.1 h', Nat.add_left_cancel hlen]

/-! ### What has a unit -/

/-- A scalar **fits** a unit if its bytes are those of a text that is not too long. -/
def Scalar.Fits : Scalar → Prop
  | text t => (Utf8.ofString t).length < 0x100000000
  | bytes raw => Utf8.isValid raw = true ∧ raw.length < 0x100000000
  | _ => True

instance : DecidablePred Scalar.Fits
  | .text t => inferInstanceAs (Decidable ((Utf8.ofString t).length < 0x100000000))
  | .bytes raw =>
    inferInstanceAs (Decidable (Utf8.isValid raw = true ∧ raw.length < 0x100000000))
  | .null | .boolean _ | .integer _ | .real _ | .error _ => inferInstanceAs (Decidable True)

/-- **The scalars that fit have a unit.** -/
theorem exists_unitBytes_iff {s : Scalar} : (∃ unit, s.unitBytes = .ok unit) ↔ s.Fits := by
  have hunit : (∃ unit, s.unitBytes = .ok unit) ↔ ∃ payload, s.payload = .ok payload := by
    simp only [unitBytes_eq_ok_iff]
    exact ⟨fun ⟨_, payload, h, _⟩ => ⟨payload, h⟩, fun ⟨payload, h⟩ => ⟨_, payload, h, rfl⟩⟩
  rw [hunit]
  cases s with
  | text t => simp [Scalar.payload, Scalar.Fits, textPayload_eq_ok_iff]
  | bytes raw =>
      rw [Scalar.payload, Scalar.Fits]
      split_ifs with hvalid
      · simp [textPayload_eq_ok_iff, hvalid]
      · simp [hvalid]
  | null | boolean | integer | real | error => exact iff_of_true ⟨_, rfl⟩ trivial

/-- A scalar without a unit is raw bytes that are malformed, or too long. -/
theorem unitBytes_eq_error {s : Scalar} {e : PackFault} (h : s.unitBytes = .error e) :
    (e = .malformedText ∧ ∃ raw, s = .bytes raw ∧ Utf8.isValid raw = false) ∨
      ((∃ n, e = .tooLong n) ∧ ∀ raw, s = .bytes raw → Utf8.isValid raw = true) := by
  have htext : ∀ raw, textPayload raw = .error e → ∃ n, e = .tooLong n := by
    intro raw h
    rw [textPayload] at h
    split_ifs at h
    exact ⟨_, (Except.error.inj h).symm⟩
  have hpayload : s.payload = .error e := by
    rw [Scalar.unitBytes] at h
    cases hs : s.payload with
    | ok payload => simp [hs] at h
    | error e' => simpa [hs] using h
  cases s with
  | text t => exact .inr ⟨htext _ hpayload, nofun⟩
  | bytes raw =>
      rw [Scalar.payload] at hpayload
      split_ifs at hpayload with hvalid
      · refine .inr ⟨htext raw hpayload, ?_⟩
        rintro _ ⟨⟩
        exact hvalid
      · exact .inl ⟨(Except.error.inj hpayload).symm, raw, rfl, Bool.eq_false_iff.2 hvalid⟩
  | null | boolean | integer | real | error => simp [Scalar.payload] at hpayload

end StrictJson.Packed
