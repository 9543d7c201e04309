import StrictJson.Machine.Units
import StrictJson.Proofs.Machine.Utf8
import StrictJson.Proofs.Packed.Canonical

/-!
# Reading from a Buffer

Over a buffer, units are read as they are from any bytes, whatever word the position is and whatever
length a string declares. What is needed of a piece is compared with what is left before the two are
added, so the sum is at most the number of bytes, or nothing is needed and the sum is the position
itself. Only then can a slice not be there: when no byte is needed at a position past the end. No
unit asks for that, because its tag is read first.

## Main results

* `take_of_le`, `take_of_error`: a piece is taken as it is from any bytes.
* `take_cases`: taking a piece traps in one case only.
* `readUnit_eq`: reading a unit at any position does not trap.
* `unpackAll_eq`: reading all units does not trap.
-/

namespace StrictJson.Machine

open Packed (Piece Scalar Tag Target UnpackFault)

variable {b : Buffer} {p needed : UInt64} {piece : Piece} {α β : Type}

/-! ### Running a reader -/

/-- Puts a position into a word. -/
def inWord : α × ℕ → α × UInt64 :=
  Prod.map id .ofNat

/-- A reader that returns something goes on with it. -/
theorem run_bind_of_ok {x : Reading α} {a : α} (h : x.run = .ok (.ok a)) (f : α → Reading β) :
    (x >>= f).run = (f a).run := by
  rw [ExceptT.run_bind, h]
  rfl

/-- A reader that is refused goes on with nothing. -/
theorem run_bind_of_error {x : Reading α} {e : UnpackFault} (h : x.run = .ok (.error e))
    (f : α → Reading β) : (x >>= f).run = .ok (.error e) := by
  rw [ExceptT.run_bind, h]
  rfl

/-- A reader that takes a piece reads as any bytes are read if it reads on like that. -/
theorem run_bind_eq {x : Reading (α × UInt64)} {y : Except UnpackFault α} {q : UInt64}
    {f : α × UInt64 → Reading (β × UInt64)} {r : Except UnpackFault (β × ℕ)}
    (hx : x.run = .ok (y.map fun a => (a, q))) (herror : ∀ e, y = .error e → r = .error e)
    (hok : ∀ a, y = .ok a → (f (a, q)).run = .ok (r.map inWord)) :
    (x >>= f).run = .ok (r.map inWord) := by
  cases y with
  | error e =>
      rw [herror e rfl]
      exact run_bind_of_error hx f
  | ok a => exact (run_bind_of_ok hx f).trans (hok a rfl)

/-- A run that has a result is one of a reader. -/
@[simp] theorem run_lift_bind (a : α) (f : α → Reading β) :
    ((liftM (Except.ok a : Run α) : Reading α) >>= f).run = (f a).run := rfl

/-! ### Pieces -/

theorem toNat_left (b : Buffer) (p : UInt64) :
    (saturatingSub b.size p).toNat = b.bytes.length - p.toNat := by
  rw [toNat_saturatingSub, Buffer.toNat_size]

/-- Where a piece is missing, it is found missing before any sum is formed. -/
theorem take_of_error {e : UnpackFault}
    (h : Packed.take b.bytes p.toNat piece needed.toNat = .error e) :
    (take b p piece needed).run = .ok (.error e) := by
  simp only [Packed.take] at h
  split_ifs at h with hleft
  obtain rfl := Except.error.inj h
  rw [take, if_pos (by rwa [UInt64.lt_iff_toNat_lt, toNat_left]), toNat_left]
  rfl

/-- A piece that ends within the buffer is taken: its end is at most the number of bytes, so it fits
a word. -/
theorem take_of_le (h : p.toNat + needed.toNat ≤ b.bytes.length) (piece : Piece) :
    ∃ bytes : Buffer, Packed.take b.bytes p.toNat piece needed.toNat = .ok bytes.bytes ∧
      (take b p piece needed).run = .ok (.ok (bytes, p + needed)) := by
  have hlt := b.length_lt
  have hfits : p.toNat + needed.toNat < 2 ^ 64 := by omega
  have hnext := b.toNat_add_of_le h
  have hleft : ¬ b.bytes.length - p.toNat < needed.toNat := by omega
  obtain ⟨bytes, hslice, hbytes⟩ := Buffer.exists_slice b p (p + needed) (by omega) (by omega)
  rw [hnext, Nat.add_sub_cancel_left] at hbytes
  refine ⟨bytes, by rw [Packed.take, if_neg hleft, hbytes], ?_⟩
  rw [take, if_neg (by rwa [UInt64.lt_iff_toNat_lt, toNat_left])]
  simp only [add_eq_ok hfits, hslice, run_lift_bind]
  rfl

/-- **Past the end, a piece without bytes is out of bounds.** No other piece is at any position. -/
theorem take_past_end (h : b.bytes.length < p.toNat) :
    (take b p piece 0).run = .error .outOfBounds := by
  have hfits : p.toNat + UInt64.toNat 0 < 2 ^ 64 := p.toNat_lt
  have hslice : b.slice p (p + 0) = .error .outOfBounds := by
    rw [Buffer.slice, Buffer.range?_eq_none (by rwa [UInt64.add_zero])]
    rfl
  rw [take, if_neg (by rw [UInt64.lt_iff_toNat_lt]; exact Nat.not_lt_zero _)]
  simp only [add_eq_ok hfits, hslice, run_lift_bind]
  rfl

/-- **Taking a piece forms no sum that wraps around.** What is taken lies in the buffer, at any
position and however much is needed, unless nothing is needed past the end. -/
theorem take_cases (b : Buffer) (p : UInt64) (piece : Piece) (needed : UInt64) :
    (∃ answer, (take b p piece needed).run = .ok answer ∧
      ∀ bytes next, answer = .ok (bytes, next) →
        bytes.bytes = (b.bytes.drop p.toNat).take needed.toNat ∧
        next.toNat = p.toNat + needed.toNat ∧ next ≤ b.size) ∨
    needed = 0 ∧ b.size < p ∧ (take b p piece needed).run = .error .outOfBounds := by
  by_cases hleft : b.bytes.length - p.toNat < needed.toNat
  · exact .inl ⟨_, take_of_error (if_pos hleft), fun bytes next h => by simp at h⟩
  by_cases hinside : p.toNat + needed.toNat ≤ b.bytes.length
  · obtain ⟨bytes, htake, hrun⟩ := take_of_le hinside piece
    have hnext := b.toNat_add_of_le hinside
    refine .inl ⟨_, hrun, ?_⟩
    rintro _ _ ⟨⟩
    rw [Packed.take, if_neg hleft] at htake
    refine ⟨(Except.ok.inj htake).symm, hnext, ?_⟩
    rwa [Buffer.le_size_iff, hnext]
  · -- Past the end zero is left, which is enough if nothing is needed.
    obtain rfl : needed = 0 := UInt64.toNat_inj.1 (by rw [UInt64.toNat_zero]; omega)
    have hpast : b.bytes.length < p.toNat := by
      rw [UInt64.toNat_zero] at hinside
      omega
    refine .inr ⟨rfl, ?_, take_past_end hpast⟩
    rwa [UInt64.lt_iff_toNat_lt, Buffer.toNat_size]

/-- A byte is taken as it is from any bytes. -/
theorem takeByte_eq (b : Buffer) (p : UInt64) (piece : Piece) :
    (takeByte b p piece).run =
      .ok ((Packed.takeByte b.bytes p.toNat piece).map fun byte => (byte, p + 1)) := by
  rw [takeByte]
  cases hbyte : Packed.takeByte b.bytes p.toNat piece with
  | error e =>
      have hmissing : Packed.take b.bytes p.toNat piece (UInt64.toNat 1) = .error e := by
        rw [Packed.takeByte] at hbyte
        split at hbyte
        · simp at hbyte
        · next hnone =>
          obtain rfl := Except.error.inj hbyte
          simp only [Packed.take, Nat.sub_eq_zero_of_le (List.getElem?_eq_none_iff.1 hnone)]
          rfl
      exact run_bind_of_error (take_of_error hmissing) _
  | ok byte =>
      have hthere : Packed.take b.bytes p.toNat piece (UInt64.toNat 1) = .ok [byte] :=
        Packed.take_eq_ok_iff.2 ⟨rfl, Packed.takeByte_eq_ok_iff.1 hbyte⟩
      have hinside : p.toNat + UInt64.toNat 1 ≤ b.bytes.length := Packed.takeByte_length hbyte
      obtain ⟨bytes, hbytes, htake⟩ := take_of_le hinside piece
      have hget : bytes.get 0 = .ok byte := by
        rw [Buffer.get, Buffer.get?, Except.ok.inj (hbytes.symm.trans hthere)]
        rfl
      rw [run_bind_of_ok htake]
      simp only [hget, run_lift_bind]
      rfl

/-- A word is taken as it is from any bytes, if it has any. -/
theorem takeWord_eq {width : UInt64} {w : ℕ} (hword : width.toNat = w) (hw : w ≠ 0) :
    (takeWord b p piece width).run =
      .ok ((Packed.takeWord b.bytes p.toNat piece w).map fun n => (n, p + width)) := by
  subst hword
  rw [takeWord, Packed.takeWord]
  cases htake : Packed.take b.bytes p.toNat piece width.toNat with
  | error e => exact run_bind_of_error (take_of_error htake) _
  | ok raw =>
      obtain ⟨bytes, hbytes, hrun⟩ := take_of_le ((Packed.take_length htake).resolve_left hw) piece
      obtain rfl := Except.ok.inj (hbytes.symm.trans htake)
      have hsize : bytes.size = width :=
        UInt64.toNat_inj.1 ((Buffer.toNat_size bytes).trans (Packed.take_eq_ok_iff.1 htake).1)
      rw [run_bind_of_ok hrun]
      simp only [if_pos hsize]
      rfl

/-! ### Payloads -/

/-- **The length that a string declares** is a word of 32 bits, so it is a position, too. -/
theorem toNat_declared {n : ℕ} (h : Packed.takeWord b.bytes p.toNat piece 4 = .ok n) :
    (UInt32.ofNat n).toUInt64.toNat = n := by
  obtain ⟨hlt, -⟩ := Packed.takeWord_eq_ok_iff.1 h
  rw [UInt32.toNat_toUInt64]
  exact UInt32.toNat_ofNat_of_lt' hlt

theorem inWord_toNat (a : α) (p : UInt64) : inWord (a, p.toNat) = (a, p) := by
  rw [inWord, Prod.map_apply, UInt64.ofNat_toNat, id]

theorem inWord_toNat_add (a : α) (p c : UInt64) : inWord (a, p.toNat + c.toNat) = (a, p + c) := by
  rw [inWord, Prod.map_apply, UInt64.ofNat_add, UInt64.ofNat_toNat, UInt64.ofNat_toNat, id]

/-- A text is read as it is from any bytes. -/
theorem readText_eq (b : Buffer) (p : UInt64) :
    (readText b p).run = .ok ((Packed.readText b.bytes p.toNat).map inWord) := by
  rw [readText, Packed.readText]
  refine run_bind_eq (takeWord_eq (w := 4) rfl (by decide)) (fun e he => by rw [he])
    fun length hlength => ?_
  -- The length was read, so the text starts in the buffer or at its end, also where it is empty.
  have hinside : p.toNat + 4 ≤ b.bytes.length :=
    (Packed.takeWord_length hlength).resolve_left (by decide)
  have hpayload : (p + 4).toNat = p.toNat + 4 := b.toNat_add_of_le hinside
  have hdeclared := toNat_declared hlength
  simp only [hlength, ← hpayload]
  generalize (UInt32.ofNat length).toUInt64 = declared at hdeclared
  subst hdeclared
  cases htext : Packed.take b.bytes (p + 4).toNat .stringPayload declared.toNat with
  | error e => exact run_bind_of_error (take_of_error htext) _
  | ok raw =>
      have hend : (p + 4).toNat + declared.toNat ≤ b.bytes.length := by
        rcases Packed.take_length htext with hnothing | hle <;> omega
      obtain ⟨bytes, hbytes, htake⟩ := take_of_le hend .stringPayload
      obtain rfl := Except.ok.inj (hbytes.symm.trans htext)
      rw [run_bind_of_ok htake]
      simp only [isValid_eq, run_lift_bind]
      cases hchars : Utf8.decode? bytes.bytes with
      | none =>
          have hinvalid : ¬ Utf8.isValid bytes.bytes = true := by
            simp [Utf8.isValid_iff, ← Utf8.decode?_eq_some_iff, hchars]
          rw [if_neg hinvalid]
          rfl
      | some chars =>
          have hvalid : Utf8.isValid bytes.bytes = true :=
            Utf8.isValid_iff.2 ⟨chars, Utf8.decode?_eq_some_iff.1 hchars⟩
          rw [if_pos hvalid]
          simp only [Except.map, inWord_toNat_add]
          rfl

/-- What is read up to a word further on is read as it is from any bytes. -/
theorem run_pure_add (s : Scalar) (p c : UInt64) :
    (pure (s, p + c) : Reading (Scalar × UInt64)).run =
      .ok (.ok (inWord (s, p.toNat + c.toNat))) := by
  rw [inWord_toNat_add]
  rfl

/-- **A payload is read as it is from any bytes.** -/
theorem readPayload_eq (b : Buffer) (p : UInt64) (tag : Tag) :
    (readPayload b p tag).run = .ok ((Packed.readPayload b.bytes p.toNat tag).map inWord) := by
  cases tag with
  | null =>
      rw [readPayload, Packed.readPayload, Except.map, inWord_toNat]
      rfl
  | string => exact readText_eq b p
  | integer | real =>
      rw [readPayload, Packed.readPayload]
      refine run_bind_eq (takeWord_eq (w := 8) rfl (by decide)) (fun e he => by rw [he])
        fun n hn => ?_
      rw [hn]
      exact run_pure_add _ p 8
  | boolean =>
      rw [readPayload, Packed.readPayload]
      refine run_bind_eq (takeByte_eq b p .boolean) (fun e he => by rw [he]) fun byte hbyte => ?_
      simp only [hbyte]
      split_ifs with hzero hone
      · exact run_pure_add _ p 1
      · exact run_pure_add _ p 1
      · rfl
  | error =>
      rw [readPayload, Packed.readPayload]
      refine run_bind_eq (takeWord_eq (w := 4) rfl (by decide)) (fun e he => by rw [he])
        fun n hn => ?_
      simp only [hn]
      cases ErrorCode.ofNumber? n with
      | none => rfl
      | some code => exact run_pure_add _ p 4

/-! ### Units -/

/-- **Reading a unit at any position does not trap**, and a unit is read as it is from any bytes. -/
theorem readUnit_eq (b : Buffer) (start : UInt64) :
    (readUnit b start).run = .ok ((Packed.readUnit b.bytes start.toNat).map inWord) := by
  rw [readUnit, Packed.readUnit]
  refine run_bind_eq (takeByte_eq b start .typeTag) (fun e he => by rw [he]) fun byte hbyte => ?_
  have hnext : (start + 1).toNat = start.toNat + 1 :=
    b.toNat_add_of_le (Packed.takeByte_length hbyte)
  simp only [hbyte, ← hnext]
  cases Tag.ofByte? byte with
  | none => rfl
  | some tag => exact readPayload_eq b _ tag

/-! ### Targets -/

variable {target : Target}

/-- **Unpacking at any position does not trap**, and moves the position where it has to be. -/
theorem unpack_eq (target : Target) (b : Buffer) (p : UInt64) :
    ∃ answer next, unpack target b p = .ok (answer, next) ∧
      Packed.unpackNext target b.bytes p.toNat = (answer, next.toNat) := by
  rw [unpack, readUnit_eq, ok_bind, Packed.unpackNext, Packed.unpack]
  cases hread : Packed.readUnit b.bytes p.toNat with
  | error e => exact ⟨.error e, p, rfl, rfl⟩
  | ok found =>
      obtain ⟨s, q⟩ := found
      have hword := b.toNat_ofNat_of_le (Packed.readUnit_progress hread).2
      simp only [Except.map, inWord, Prod.map_apply, id]
      cases target.ofScalar s with
      | error e => exact ⟨.error e, p, rfl, rfl⟩
      | ok x => exact ⟨.ok x, .ofNat q, rfl, by rw [hword]⟩

/-! ### Buffers -/

/-- Reading on takes one unit and reads on behind it. -/
theorem unpackFrom_of_ok {buffer : List UInt8} {position next : ℕ} {x : target.Carrier}
    (h : Packed.unpack target buffer position = .ok (x, next)) :
    Packed.unpackFrom target buffer position =
      (Packed.unpackFrom target buffer next).map (x :: ·) := by
  obtain ⟨hlt, hle⟩ := Packed.unpack_progress h
  rw [Packed.unpackFrom, if_pos (Nat.lt_of_lt_of_le hlt hle)]
  split
  · next e he => simp [h] at he
  · next y q hy =>
    obtain ⟨rfl, rfl⟩ := Prod.mk.inj (Except.ok.inj (h.symm.trans hy))
    cases Packed.unpackFrom target buffer next <;> rfl

/-- Reading on ends where the next unit fails. -/
theorem unpackFrom_of_error {buffer : List UInt8} {position : ℕ} {e : UnpackFault}
    (hp : position < buffer.length) (h : Packed.unpack target buffer position = .error e) :
    Packed.unpackFrom target buffer position = .error e := by
  rw [Packed.unpackFrom, if_pos hp]
  split
  · next f hf => rw [Except.error.inj (hf.symm.trans h)]
  · next y q hy => simp [h] at hy

/-- Unpacking at a position reads a part of what the buffer holds from there on. -/
theorem readsPart_unpack (hp : p.toNat < b.bytes.length) :
    ReadsPart b (fun x => [x]) (Packed.unpackFrom target b.bytes) p (unpack target b p) := by
  obtain ⟨answer, next, hrun, hread⟩ := unpack_eq target b p
  rw [hrun]
  cases answer with
  | error e => exact .error (unpackFrom_of_error hp (Packed.unpackNext_eq_error_iff.1 hread).1)
  | ok x =>
      have hunit := Packed.unpackNext_eq_ok_iff.1 hread
      obtain ⟨hmoves, hinside⟩ := Packed.unpack_progress hunit
      exact .ok hmoves hinside (unpackFrom_of_ok hunit)

/-- **Unpacking a whole buffer does not trap**, and unpacks what any bytes hold. -/
theorem unpackAll_eq (target : Target) (b : Buffer) :
    unpackAll target b = .ok (Packed.unpackAll target b.bytes) :=
  Buffer.readAll_eq (fun _ hend => (Packed.unpackFrom_eq_ok_nil_iff target).2 hend)
    fun _ hp => readsPart_unpack hp

end StrictJson.Machine
