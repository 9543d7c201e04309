import StrictJson.Proofs.Machine.Command

/-!
# No Trap

Positions are handed in by a caller and lengths are declared by the bytes themselves, so either can
be any word. Still no reader of units or characters ends in a trap, at whatever position it starts,
and no loop takes more turns than the buffer has bytes.

A guard that compares what is needed with what is left is all that stands between a declared length
and a sum that wraps around. What is left is at most the number of bytes, and there is a whole bit
to spare between that number and the largest word.

## Main definitions

* `Carried`: how a position is left.
* `Declares`: that a string with a length is begun at a position.

## Main results

* `exists_unpack`: unpacking at any position.
* `unpack_of_overlong`, `toNat_of_declares`: unpacking a string, however long it says it is.
* `cursor_safe`: all of this together with the loops.
-/

namespace StrictJson.Machine

open Packed (Piece Scalar Tag Target UnpackFault)

variable {b : Buffer} {start next : UInt64} {n : ℕ}

/-! ### Positions -/

/-- A position is **carried** from a start: on success it moves on, but not past the end, and
otherwise it stays. -/
structure Carried (b : Buffer) (start next : UInt64) (success : Prop) : Prop where
  advances : success → start < next ∧ next ≤ b.size
  stays : ¬ success → next = start

/-- A read that fails past the end says where it was to start. -/
theorem takeByte_of_le {buffer : List UInt8} {p : ℕ} (h : buffer.length ≤ p) (piece : Piece) :
    Packed.takeByte buffer p piece = .error (.missing piece 1 0 p) := by
  rw [Packed.takeByte, List.getElem?_eq_none h]

/-- **Unpacking at any position** does not trap. On success the position moves on past a unit that
lies in the buffer, and otherwise it stays. At the end or past it the end of the input has come too
early, and that very position is reported. -/
theorem exists_unpack (target : Target) (b : Buffer) (start : UInt64) :
    ∃ answer next, unpack target b start = .ok (answer, next) ∧
      Packed.unpackNext target b.bytes start.toNat = (answer, next.toNat) ∧
      Carried b start next (∃ x, answer = .ok x) ∧
      (b.size ≤ start → ∃ e, answer = .error e ∧ e.toError.code = .prematureEndOfInput ∧
        e.toError.offset = some start.toNat) := by
  obtain ⟨answer, next, hrun, hread⟩ := unpack_eq target b start
  refine ⟨answer, next, hrun, hread, ⟨?_, fun hfails => ?_⟩, fun hpast => ?_⟩
  · rintro ⟨x, rfl⟩
    rw [UInt64.lt_iff_toNat_lt, Buffer.le_size_iff]
    exact Packed.unpack_progress (Packed.unpackNext_eq_ok_iff.1 hread)
  · cases answer with
    | ok x => exact absurd ⟨x, rfl⟩ hfails
    | error e => exact UInt64.toNat_inj.1 (Packed.unpackNext_eq_error_iff.1 hread).2
  · rw [Buffer.size_le_iff] at hpast
    rw [Packed.unpackNext, Packed.unpack, Packed.readUnit, takeByte_of_le hpast] at hread
    exact ⟨_, (Prod.mk.inj hread).1.symm, rfl, rfl⟩

/-- **Decoding at any index** does not trap. On success the index moves on past a sequence that lies
in the buffer, and otherwise it stays, as it does at the end or past it. -/
theorem exists_decode (b : Buffer) (index : UInt64) :
    ∃ found next, decode b index = .ok (found, next) ∧
      Utf8.decodeFrom b.bytes index.toNat = (found, next.toNat) ∧
      Carried b index next (∃ c, found = some c) ∧ (b.size ≤ index → found = none) := by
  rcases decode_cases b index with ⟨hnone, hrun⟩ | ⟨c, next, hsome, hrun, hmoves, hinside⟩
  · refine ⟨none, index, hrun, Utf8.decodeFrom_of_none hnone, ⟨?_, fun _ => rfl⟩, fun _ => rfl⟩
    rintro ⟨c, hc⟩
    simp at hc
  · refine ⟨some c, next, hrun, Utf8.decodeFrom_of_some hsome, ⟨fun _ => ?_, ?_⟩, fun hpast => ?_⟩
    · exact ⟨UInt64.lt_iff_toNat_lt.2 hmoves, Buffer.le_size_iff.2 hinside⟩
    · exact fun hno => absurd ⟨c, rfl⟩ hno
    · rw [Buffer.size_le_iff] at hpast
      omega

/-! ### Declared lengths -/

/-- A string is begun at a position, with a length that it **declares**. -/
def Declares (b : Buffer) (start : UInt64) (n : ℕ) : Prop :=
  n < 2 ^ 32 ∧ [Tag.string.byte] ++ Packed.wordBytes 4 n <+: b.bytes.drop start.toNat

/-- The tag and the length of a string are read where it is begun. -/
theorem Declares.reads (h : Declares b start n) :
    Packed.readUnit b.bytes start.toNat = Packed.readText b.bytes (start.toNat + 1) ∧
      Packed.takeWord b.bytes (start.toNat + 1) .stringLength 4 = .ok n := by
  obtain ⟨htag, hlength⟩ := Packed.append_prefix_drop_iff.1 h.2
  have hbyte : Packed.takeByte b.bytes start.toNat .typeTag = .ok Tag.string.byte :=
    Packed.takeByte_eq_ok_iff.2 htag
  refine ⟨?_, Packed.takeWord_eq_ok_iff.2 ⟨h.1, hlength⟩⟩
  rw [Packed.readUnit, hbyte]
  simp only [Tag.ofByte?_byte, Packed.readPayload]

/-- **A string whose text would end past the end** is not read, whatever length it declares. -/
theorem unpack_of_overlong (h : Declares b start n)
    (hlong : b.bytes.length < start.toNat + 5 + n) (target : Target) :
    unpack target b start =
      .ok (.error (.missing .stringPayload n (b.bytes.length - (start.toNat + 5))
        (start.toNat + 5)), start) := by
  obtain ⟨hunit, hlength⟩ := h.reads
  have hbegun := (Packed.takeWord_length hlength).resolve_left (by decide)
  have htext : b.bytes.length - (start.toNat + 1 + 4) < n := by omega
  have hread : Packed.unpackNext target b.bytes start.toNat =
      (.error (.missing .stringPayload n (b.bytes.length - (start.toNat + 5)) (start.toNat + 5)),
        start.toNat) := by
    simp only [Packed.unpackNext, Packed.unpack, hunit, Packed.readText, hlength, Packed.take,
      if_pos htext]
  obtain ⟨answer, next, hrun, hread'⟩ := unpack_eq target b start
  obtain ⟨rfl, hstays⟩ := Prod.mk.inj (hread'.symm.trans hread)
  rw [hrun, UInt64.toNat_inj.1 hstays]

/-- A string that is read is as long as it declares. -/
theorem toNat_of_declares (h : Declares b start n) {target : Target} {x : target.Carrier}
    (hrun : unpack target b start = .ok (.ok x, next)) : next.toNat = start.toNat + 5 + n := by
  obtain ⟨hunit, hlength⟩ := h.reads
  obtain ⟨answer, last, hrun', hread⟩ := unpack_eq target b start
  obtain ⟨rfl, rfl⟩ := Prod.mk.inj (Except.ok.inj (hrun.symm.trans hrun'))
  obtain ⟨s, hs, -⟩ := Packed.unpack_eq_ok_iff.1 (Packed.unpackNext_eq_ok_iff.1 hread)
  rw [hunit, Packed.readText, hlength] at hs
  simp only at hs
  split at hs
  · simp at hs
  · split at hs
    · exact (Prod.mk.inj (Except.ok.inj hs)).2.symm
    · simp at hs

/-! ### Everything together -/

/-- **Readers are safe in any buffer, at any position.** No run ends in a trap: no sum of words
wraps around, all slices are in the buffer, and no loop takes more turns than there are bytes.

A piece can be asked for at any position, however much is needed; only if nothing is needed past the
end there is no slice, and nobody asks for that. A unit that is read moves the position on, by the
length that it declares if it is a string, and not past the end, and a position at the end or past
it is reported as it is. An index for decoding moves likewise. So the loops that check, unpack, show
and count end, and come to what the bytes are read as when positions are numbers. -/
theorem cursor_safe (b : Buffer) :
    (∀ (p needed : UInt64) (piece : Piece),
      (∃ answer, (take b p piece needed).run = .ok answer ∧
        ∀ bytes next, answer = .ok (bytes, next) →
          bytes.bytes = (b.bytes.drop p.toNat).take needed.toNat ∧
          next.toNat = p.toNat + needed.toNat ∧ next ≤ b.size) ∨
      needed = 0 ∧ b.size < p ∧ (take b p piece needed).run = .error .outOfBounds) ∧
    (∀ (target : Target) (start : UInt64),
      ∃ answer next, unpack target b start = .ok (answer, next) ∧
        Packed.unpackNext target b.bytes start.toNat = (answer, next.toNat) ∧
        Carried b start next (∃ x, answer = .ok x) ∧
        (b.size ≤ start → ∃ e, answer = .error e ∧ e.toError.code = .prematureEndOfInput ∧
          e.toError.offset = some start.toNat)) ∧
    (∀ (target : Target) (start : UInt64) (n : ℕ), Declares b start n →
      (b.bytes.length < start.toNat + 5 + n → unpack target b start =
        .ok (.error (.missing .stringPayload n (b.bytes.length - (start.toNat + 5))
          (start.toNat + 5)), start)) ∧
      ∀ x next, unpack target b start = .ok (.ok x, next) →
        next.toNat = start.toNat + 5 + n) ∧
    (∀ index : UInt64, ∃ found next, decode b index = .ok (found, next) ∧
      Utf8.decodeFrom b.bytes index.toNat = (found, next.toNat) ∧
      Carried b index next (∃ c, found = some c) ∧ (b.size ≤ index → found = none)) ∧
    isValid b = .ok (Utf8.isValid b.bytes) ∧
    (∀ target, unpackAll target b = .ok (Packed.unpackAll target b.bytes)) ∧
    unitLines b = .ok (Command.unitLines b.bytes 0) ∧
    utf8Text b = .ok (Command.utf8Text b.bytes) := by
  refine ⟨fun p needed piece => ?pieces, fun target start => ?units, fun target start n h => ?texts,
    fun index => ?characters, isValid_eq b, fun target => unpackAll_eq target b, unitLines_eq b,
    utf8Text_eq b⟩
  case pieces => exact take_cases b p piece needed
  case units => exact exists_unpack target b start
  case texts =>
    refine ⟨fun hlong => unpack_of_overlong h hlong target, fun x next hrun => ?_⟩
    exact toNat_of_declares h hrun
  case characters => exact exists_decode b index

/-- A string says that it has as many bytes as a length of 32 bits can say, and none of them is
there. It is not read, and from the last position of all nothing is read either. -/
theorem cursor_safe_longest :
    unpack .value ⟨[0x73, 0xff, 0xff, 0xff, 0xff], by decide⟩ 0 =
      .ok (.error (.missing .stringPayload 4294967295 0 5), 0) ∧
    (∃ e, unpack .value ⟨[0x73, 0xff, 0xff, 0xff, 0xff], by decide⟩ 0xffffffffffffffff =
        .ok (.error e, 0xffffffffffffffff) ∧
      e.toError.code = .prematureEndOfInput ∧ e.toError.offset = some 18446744073709551615) ∧
    decode ⟨[0x73, 0xff, 0xff, 0xff, 0xff], by decide⟩ 0xffffffffffffffff =
      .ok (none, 0xffffffffffffffff) := by
  obtain ⟨-, hunpack, hdeclares, hdecode, -⟩ :=
    cursor_safe ⟨[0x73, 0xff, 0xff, 0xff, 0xff], by decide⟩
  refine ⟨(hdeclares .value 0 4294967295 ⟨by decide, by decide⟩).1 (by decide), ?_, ?_⟩
  · obtain ⟨answer, next, hrun, -, hcarried, hpast⟩ := hunpack .value 0xffffffffffffffff
    obtain ⟨e, rfl, hcode, hoffset⟩ := hpast (by decide)
    obtain rfl := hcarried.stays (by simp)
    exact ⟨e, hrun, hcode, hoffset⟩
  · obtain ⟨found, next, hrun, -, hcarried, hpast⟩ := hdecode 0xffffffffffffffff
    obtain rfl := hpast (by decide)
    obtain rfl := hcarried.stays (by simp)
    exact hrun

end StrictJson.Machine
