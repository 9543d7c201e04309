import StrictJson.Machine.Utf8
import StrictJson.Proofs.Machine.Buffer
import StrictJson.Proofs.Utf8.Synchronization

/-!
# Decoding in a Buffer

Over a buffer, characters are decoded as they are over any bytes, whatever word the index is. The
sum of an index and a length is only formed where a lead byte stands, so it is too small to wrap
around, and the bits of a code point that are shifted out of its word are zero.

## Main results

* `decodeAt_eq`, `decode_cases`: decoding does not trap, and finds what is there.
* `isValid_eq`: checking does not trap, and tells well-formed bytes.
-/

namespace StrictJson.Machine

variable {b : Buffer} {lead : UInt8} {trail : List UInt8} {n : UInt32} {length : ℕ}

/-! ### Code points -/

/-- A mask keeps the lowest bits of a byte. -/
theorem toNat_mask {mask : UInt8} {k : ℕ} (h : mask.toNat = 2 ^ k - 1) (byte : UInt8) :
    (byte &&& mask).toUInt32.toNat = byte.toNat % 2 ^ k := by
  rw [UInt8.toNat_toUInt32, UInt8.toNat_and, h, Nat.and_two_pow_sub_one_eq_mod]

theorem toNat_leadWord (h : Utf8.sequenceLength? lead = some length) :
    (leadWord (.ofNat length) lead).toNat = Utf8.leadBits length lead := by
  rcases Utf8.sequenceLength?_eq_some h with ⟨rfl, -⟩ | ⟨rfl, -⟩ | ⟨rfl, -⟩ | ⟨rfl, -⟩
  · exact UInt8.toNat_toUInt32 lead
  · exact toNat_mask (k := 5) rfl lead
  · exact toNat_mask (k := 4) rfl lead
  · exact toNat_mask (k := 3) rfl lead

theorem toNat_leastWord (h : Utf8.sequenceLength? lead = some length) :
    (leastWord (.ofNat length)).toNat = Utf8.minimum length := by
  rcases Utf8.sequenceLength?_eq_some h with ⟨rfl, -⟩ | ⟨rfl, -⟩ | ⟨rfl, -⟩ | ⟨rfl, -⟩ <;> rfl

/-- Nothing is shifted out of a word whose highest six bits are zero. -/
theorem toNat_shiftIn (h : n.toNat * 64 < 2 ^ 32) (byte : UInt8) :
    (shiftIn n byte).toNat = n.toNat * 64 + byte.toNat % 64 := by
  have hshift : (n <<< 6).toNat = n.toNat <<< 6 := by
    rw [UInt32.toNat_shiftLeft, Nat.shiftLeft_eq, Nat.shiftLeft_eq]
    exact Nat.mod_eq_of_lt h
  have hlow : byte.toNat % 2 ^ 6 < 2 ^ 6 := Nat.mod_lt _ (by decide)
  rw [shiftIn, UInt32.toNat_or, hshift, toNat_mask (k := 6) rfl,
    ← Nat.shiftLeft_add_eq_or_of_lt hlow]
  exact congrArg (· + byte.toNat % 64) (Nat.shiftLeft_eq n.toNat 6)

/-- Nothing is lost while there is room for all trail bytes to come. -/
theorem toNat_foldl_shiftIn (h : (n.toNat + 1) * 64 ^ trail.length ≤ 2 ^ 32) :
    (trail.foldl shiftIn n).toNat =
      trail.foldl (fun n byte => n * 64 + byte.toNat % 64) n.toNat := by
  induction trail generalizing n with
  | nil => rfl
  | cons byte trail ih =>
      rw [List.length_cons, Nat.pow_succ, Nat.mul_comm (64 ^ _), ← Nat.mul_assoc] at h
      have hroom : (n.toNat + 1) * 64 ≤ 2 ^ 32 :=
        (Nat.le_mul_of_pos_right _ (Nat.pow_pos (by decide))).trans h
      have hstep := toNat_shiftIn (n := n) (by omega) byte
      rw [List.foldl_cons, List.foldl_cons, ih, hstep]
      refine le_trans (Nat.mul_le_mul_right _ ?_) h
      rw [hstep]
      omega

/-- **The code point in a word is the number** that a lead byte and its trail bytes spell. -/
theorem toNat_foldl_leadWord (h : Utf8.sequenceLength? lead = some length)
    (htrail : trail.length = length - 1) :
    (trail.foldl shiftIn (leadWord (.ofNat length) lead)).toNat = Utf8.codePoint lead trail := by
  have hpos := Utf8.sequenceLength?_pos h
  have hlength : trail.length + 1 = length := by omega
  have hlead := toNat_leadWord h
  rw [toNat_foldl_shiftIn, hlead, Utf8.codePoint, hlength]
  rw [hlead, htrail]
  rcases Utf8.sequenceLength?_eq_some h with ⟨rfl, hlt⟩ | ⟨rfl, -⟩ | ⟨rfl, -⟩ | ⟨rfl, -⟩ <;>
    simp only [Utf8.leadBits] <;> omega

/-- The code point of a character is a word. -/
theorem eq_val_ofNat {m : ℕ} (hn : n.toNat = m) (hm : m.isValidChar) : n = (Char.ofNat m).val := by
  refine UInt32.toNat_inj.1 (hn.trans ?_)
  exact (Utf8.toNat_ofNat_of_isValidChar hm).symm

@[simp] theorem charOfWord?_val (c : Char) : charOfWord? c.val = some c := by
  rw [charOfWord?, if_pos c.valid]
  exact congrArg some (Char.ofNat_toNat c)

/-- **The checks of a sequence over words** are those over numbers. -/
theorem spelled?_eq (h : Utf8.sequenceLength? lead = some length)
    (htrail : trail.length = length - 1) :
    spelled? (.ofNat length) lead trail =
      if trail.all Utf8.isTrail ∧ Utf8.minimum length ≤ Utf8.codePoint lead trail ∧
          (Utf8.codePoint lead trail).isValidChar then
        some (Char.ofNat (Utf8.codePoint lead trail)).val
      else none := by
  have hn := toNat_foldl_leadWord h htrail
  rw [spelled?]
  generalize trail.foldl shiftIn (leadWord (.ofNat length) lead) = n at hn
  generalize Utf8.codePoint lead trail = m at hn
  have hrefused : n < leastWord (.ofNat length) ∨ 0x10ffff < n ∨ 0xd800 ≤ n ∧ n ≤ 0xdfff ↔
      ¬ (Utf8.minimum length ≤ m ∧ m.isValidChar) := by
    simp only [UInt32.lt_iff_toNat_lt, UInt32.le_iff_toNat_le, UInt32.reduceToNat,
      toNat_leastWord h, hn, Nat.isValidChar]
    omega
  simp only [hrefused]
  by_cases hall : trail.all Utf8.isTrail = true
  · by_cases hgood : Utf8.minimum length ≤ m ∧ m.isValidChar
    · rw [if_pos hall, if_neg (not_not_intro hgood), if_pos ⟨hall, hgood⟩,
        eq_val_ofNat hn hgood.2]
    · rw [if_pos hall, if_pos hgood, if_neg fun h => hgood h.2]
  · rw [if_neg hall, if_neg fun h => hall h.1]

/-! ### Characters -/

/-- No sequence has more than four bytes. -/
theorem sequenceLength?_le (h : Utf8.sequenceLength? lead = some length) : length ≤ 4 := by
  rcases Utf8.sequenceLength?_eq_some h with ⟨rfl, -⟩ | ⟨rfl, -⟩ | ⟨rfl, -⟩ | ⟨rfl, -⟩ <;> decide

/-- Where a lead byte stands, the bytes that it announces are looked at if they are there. -/
theorem decodeAt_of_lead {start : UInt64} {rest : List UInt8}
    (hrest : b.bytes.drop start.toNat = lead :: rest)
    (hlead : Utf8.sequenceLength? lead = some length) :
    decodeAt b start = .ok
      (if (rest.take (length - 1)).length = length - 1 then
        (spelled? (.ofNat length) lead (rest.take (length - 1))).map (·, .ofNat length)
      else none) := by
  have hlt := b.length_lt
  have hpos := Utf8.sequenceLength?_pos hlead
  have hle := sequenceLength?_le hlead
  have hget : b.get? start = some lead := by rw [Buffer.get?, ← List.head?_drop, hrest]; rfl
  have hahead := congrArg List.length hrest
  rw [List.length_drop, List.length_cons] at hahead
  have hword : (UInt64.ofNat length).toNat = length :=
    UInt64.toNat_ofNat_of_lt' (by rw [UInt64.size]; omega)
  have hfits : start.toNat + (UInt64.ofNat length).toNat < 2 ^ 64 := by omega
  have hstop := toNat_add_of_lt hfits
  rw [hword] at hstop
  rw [decodeAt, hget]
  simp only [hlead, add_eq_ok hfits, ok_bind, List.length_take]
  by_cases hthere : start.toNat + length ≤ b.bytes.length
  · obtain ⟨sequence, hrange, hbytes⟩ :=
      Buffer.exists_range? b start (start + .ofNat length) (by omega) (by omega)
    rw [hstop, hrest, Nat.add_sub_cancel_left] at hbytes
    have hsize := congrArg List.length hbytes
    rw [List.length_take, List.length_cons, Nat.min_eq_left (by omega)] at hsize
    obtain ⟨trail, hslice, htrail⟩ := Buffer.exists_slice sequence 1 sequence.size
      (by rw [Buffer.toNat_size, UInt64.toNat_one]; omega) (Buffer.toNat_size sequence).le
    have htrail : trail.bytes = rest.take (length - 1) := by
      obtain ⟨m, rfl⟩ := Nat.exists_eq_succ_of_ne_zero hpos.ne'
      rw [htrail, Buffer.toNat_size, UInt64.toNat_one, hsize, hbytes, Nat.succ_eq_add_one,
        Nat.add_sub_cancel, List.take_succ_cons, List.drop_succ_cons, List.drop_zero,
        List.take_take, Nat.min_self]
    rw [if_pos (Nat.min_eq_left (by omega)), ← htrail, hrange]
    simp only [hslice, ok_bind]
    rfl
  · have hnone : b.range? start (start + .ofNat length) = none := Buffer.range?_eq_none (by omega)
    rw [if_neg fun hmin => by omega, hnone]
    rfl

/-- **Decoding at any index does not trap**, and finds the character that is there. -/
theorem decodeAt_eq (b : Buffer) (start : UInt64) :
    decodeAt b start = .ok ((Utf8.next? (b.bytes.drop start.toNat)).map fun found =>
      (found.1.val, .ofNat found.2)) := by
  cases hrest : b.bytes.drop start.toNat with
  | nil =>
      have hget : b.get? start = none := by rw [Buffer.get?, ← List.head?_drop, hrest]; rfl
      rw [decodeAt, hget]
      rfl
  | cons lead rest =>
      rw [Utf8.next?]
      cases hlead : Utf8.sequenceLength? lead with
      | none =>
          have hget : b.get? start = some lead := by
            rw [Buffer.get?, ← List.head?_drop, hrest]; rfl
          rw [decodeAt, hget]
          simp only [hlead]
          rfl
      | some length =>
          rw [decodeAt_of_lead hrest hlead]
          simp only
          by_cases hthere : (rest.take (length - 1)).length = length - 1
          · rw [if_pos hthere, spelled?_eq hlead hthere]
            simp only [hthere, true_and]
            split_ifs <;> rfl
          · rw [if_neg hthere, if_neg fun h => hthere h.1]
            rfl

/-- **An index moves on** past the sequence that is decoded there: the sum fits, and is not past the
end. -/
theorem add_of_next? {index : UInt64} {c : Char} {n : ℕ}
    (h : Utf8.next? (b.bytes.drop index.toNat) = some (c, n)) :
    ∃ next, add index (.ofNat n) = .ok next ∧ next.toNat = index.toNat + n ∧ 0 < n ∧
      index.toNat + n ≤ b.bytes.length := by
  have hlt := b.length_lt
  obtain ⟨hpos, hle⟩ := Utf8.next?_length h
  rw [List.length_drop] at hle
  have hword := b.toNat_ofNat_of_le (n := n) (by omega)
  have hfits : index.toNat + (UInt64.ofNat n).toNat < 2 ^ 64 := by omega
  exact ⟨_, add_eq_ok hfits, by rw [toNat_add_of_lt hfits, hword], hpos, by omega⟩

/-- **Decoding with an index does not trap.** The index moves on, but not past the end, or nothing
is there and it stays. -/
theorem decode_cases (b : Buffer) (index : UInt64) :
    Utf8.decodeAt? b.bytes index.toNat = none ∧ decode b index = .ok (none, index) ∨
      ∃ c next, Utf8.decodeAt? b.bytes index.toNat = some (c, next.toNat) ∧
        decode b index = .ok (some c, next) ∧
        index.toNat < next.toNat ∧ next.toNat ≤ b.bytes.length := by
  rw [decode, decodeAt_eq, ok_bind, Utf8.decodeAt?]
  cases hnext : Utf8.next? (b.bytes.drop index.toNat) with
  | none => exact .inl ⟨rfl, rfl⟩
  | some found =>
      obtain ⟨c, n⟩ := found
      obtain ⟨next, hadd, hword, hpos, hle⟩ := add_of_next? hnext
      refine .inr ⟨c, next, by rw [hword], ?_, by omega, by omega⟩
      simp only [Option.map_some, charOfWord?_val, hadd]
      rfl

/-! ### Checking -/

/-- A check walks on past a sequence, and stops where there is none or nothing. -/
theorem turns_checkNext (index : UInt64) :
    Turns b id (fun _ => True) (fun index valid => valid = Utf8.isValid (b.bytes.drop index.toNat))
      index (checkNext b index) := by
  rw [checkNext]
  split_ifs with hlt
  · rw [Buffer.lt_size_iff] at hlt
    rw [decodeAt_eq, ok_bind]
    cases hnext : Utf8.next? (b.bytes.drop index.toNat) with
    | none =>
        refine .leave hlt ?_
        rw [Utf8.isValid]
        split
        · exact (List.isEmpty_eq_false_iff.2 (List.drop_eq_nil_iff.not.2 (Nat.not_le.2 hlt))).symm
        · next hsome => simp [hnext] at hsome
    | some found =>
        obtain ⟨c, n⟩ := found
        obtain ⟨next, hadd, hword, hpos, hle⟩ := add_of_next? hnext
        simp only [Option.map_some, hadd, ok_bind]
        refine .go trivial ?_ ?_ ?_
        · rw [id, id, hword]
          omega
        · rwa [id, hword]
        · rintro _ rfl
          obtain ⟨rfl, hbytes⟩ := Utf8.eq_encodeChar_append_of_next? hnext
          rw [hbytes, Utf8.isValid_encodeChar_append, List.drop_drop, hword]
  · rw [Buffer.lt_size_iff, Nat.not_lt] at hlt
    refine .stop ?_
    rw [List.drop_of_length_le hlt, Utf8.isValid_nil]

/-- **Checking does not trap**, and tells well-formed bytes. -/
theorem isValid_eq (b : Buffer) : isValid b = .ok (Utf8.isValid b.bytes) := by
  obtain ⟨valid, hrun, hvalid⟩ := Buffer.exists_loop (fun index _ => turns_checkNext index)
    (s := 0) trivial
  rw [isValid, hrun, hvalid, UInt64.toNat_zero, List.drop_zero]

end StrictJson.Machine
