import Mathlib.Data.List.Basic
import Mathlib.Tactic.SplitIfs
import StrictJson.Utf8.Basic

/-!
# Sequences and Characters

The arithmetic decoder and the encoder of `StrictJson.Utf8.Basic` are inverse to each other, on a
single sequence. A **sequence** here is a lead byte with the trail bytes that it announces, and the
two facts about it are that the shortest sequence of a number spells that number, and that what
spells a number in the shortest way is its sequence. Both hold for any bytes that follow, so a
decoder at work inside a text sees the characters that were written and no others.

## Main results

* `codePoint_sequence`: the shortest sequence of a number announces its own length and spells it.
* `sequence_codePoint`: a sequence that is not longer than it has to be is the shortest one.
* `next?_encodeChar_append`: decoding finds an encoded character in front of anything.
* `eq_encodeChar_append_of_next?`: what decoding finds is an encoded character.
-/

namespace StrictJson.Utf8

/-- The number of a character is a Unicode scalar value. -/
theorem isValidChar_toNat (c : Char) : c.toNat.isValidChar :=
  c.valid

/-- No character has a number past the last code point. -/
theorem toNat_lt (c : Char) : c.toNat < 0x110000 := by
  have h := isValidChar_toNat c
  simp only [Nat.isValidChar] at h
  omega

/-- A scalar value is the number of its character. -/
theorem toNat_ofNat_of_isValidChar {n : Nat} (h : n.isValidChar) : (Char.ofNat n).toNat = n := by
  rw [Char.ofNat, dif_pos h]
  rfl

/-- A trail byte, by its number. -/
theorem isTrail_iff {b : UInt8} : isTrail b = true ↔ 0x80 ≤ b.toNat ∧ b.toNat ≤ 0xbf := by
  simp [isTrail, UInt8.le_iff_toNat_le]

/-! ### From numbers to sequences -/

/-- **The shortest sequence of a number spells it.** Its lead byte announces the trail bytes that
follow, and no shorter sequence would do. -/
theorem codePoint_sequence {n : Nat} (h : n < 0x110000) :
    ∃ lead trail, sequence n = lead :: trail ∧
      sequenceLength? lead = some (trail.length + 1) ∧ trail.all isTrail = true ∧
      minimum (trail.length + 1) ≤ n ∧ codePoint lead trail = n := by
  rw [sequence]
  split_ifs with h1 h2 h3
  · refine ⟨_, [], rfl, ?_, rfl, Nat.zero_le n, ?_⟩
    · have hlead : UInt8.ofNat n < 0x80 := by
        simp only [UInt8.lt_iff_toNat_lt, UInt8.toNat_ofNat', UInt8.reduceToNat]
        omega
      rw [sequenceLength?, if_pos hlead, List.length_nil]
    · simp only [codePoint, List.foldl_nil, List.length_nil, leadBits, UInt8.toNat_ofNat']
      omega
  · refine ⟨_, [_], rfl, ?_, ?_, ?_, ?_⟩
    · simp only [sequenceLength?, UInt8.lt_iff_toNat_lt, UInt8.toNat_ofNat', UInt8.reduceToNat]
      grind
    · simp only [List.all_cons, List.all_nil, Bool.and_true, isTrail_iff, UInt8.toNat_ofNat']
      omega
    · simp only [List.length_cons, List.length_nil, minimum]
      omega
    · simp only [codePoint, List.foldl_cons, List.foldl_nil, List.length_cons, List.length_nil,
        leadBits, UInt8.toNat_ofNat']
      omega
  · refine ⟨_, [_, _], rfl, ?_, ?_, ?_, ?_⟩
    · simp only [sequenceLength?, UInt8.lt_iff_toNat_lt, UInt8.toNat_ofNat', UInt8.reduceToNat]
      grind
    · simp only [List.all_cons, List.all_nil, Bool.and_true, Bool.and_eq_true, isTrail_iff,
        UInt8.toNat_ofNat']
      omega
    · simp only [List.length_cons, List.length_nil, minimum]
      omega
    · simp only [codePoint, List.foldl_cons, List.foldl_nil, List.length_cons, List.length_nil,
        leadBits, UInt8.toNat_ofNat']
      omega
  · refine ⟨_, [_, _, _], rfl, ?_, ?_, ?_, ?_⟩
    · simp only [sequenceLength?, UInt8.lt_iff_toNat_lt, UInt8.toNat_ofNat', UInt8.reduceToNat]
      grind
    · simp only [List.all_cons, List.all_nil, Bool.and_true, Bool.and_eq_true, isTrail_iff,
        UInt8.toNat_ofNat']
      omega
    · simp only [List.length_cons, List.length_nil, minimum]
      omega
    · simp only [codePoint, List.foldl_cons, List.foldl_nil, List.length_cons, List.length_nil,
        leadBits, UInt8.toNat_ofNat']
      omega

/-! ### From sequences to numbers -/

/-- The lead bytes by the length that they announce. -/
theorem sequenceLength?_eq_some {lead : UInt8} {n : Nat} (h : sequenceLength? lead = some n) :
    (n = 1 ∧ lead.toNat < 0x80) ∨ (n = 2 ∧ 0xc0 ≤ lead.toNat ∧ lead.toNat < 0xe0) ∨
      (n = 3 ∧ 0xe0 ≤ lead.toNat ∧ lead.toNat < 0xf0) ∨
      (n = 4 ∧ 0xf0 ≤ lead.toNat ∧ lead.toNat < 0xf5) := by
  simp only [sequenceLength?, UInt8.lt_iff_toNat_lt, UInt8.reduceToNat] at h
  grind

/-- A byte is known by its number. -/
theorem ofNat_eq_of_toNat_eq {n : Nat} {b : UInt8} (h : b.toNat = n) : UInt8.ofNat n = b := by
  rw [← h, UInt8.ofNat_toNat]

/-- **A sequence that is not longer than it has to be is the shortest one** of the number that it
spells. -/
theorem sequence_codePoint {lead : UInt8} {trail : List UInt8}
    (hlen : sequenceLength? lead = some (trail.length + 1)) (htrail : trail.all isTrail = true)
    (hmin : minimum (trail.length + 1) ≤ codePoint lead trail) :
    sequence (codePoint lead trail) = lead :: trail := by
  obtain ⟨hl, hlead⟩ | ⟨hl, hlead⟩ | ⟨hl, hlead⟩ | ⟨hl, hlead⟩ := sequenceLength?_eq_some hlen
  · obtain rfl : trail = [] := List.length_eq_zero_iff.1 (by omega)
    simp only [codePoint, List.foldl_nil, List.length_nil, leadBits]
    rw [sequence, if_pos hlead, UInt8.ofNat_toNat]
  · obtain ⟨a, rfl⟩ := List.length_eq_one_iff.1 (show trail.length = 1 by omega)
    simp only [List.all_cons, List.all_nil, Bool.and_true, isTrail_iff] at htrail
    simp only [codePoint, List.foldl_cons, List.foldl_nil, List.length_cons, List.length_nil,
      leadBits, minimum] at hmin ⊢
    rw [sequence, if_neg (by omega), if_pos (by omega), ofNat_eq_of_toNat_eq (b := lead) (by omega),
      ofNat_eq_of_toNat_eq (b := a) (by omega)]
  · obtain ⟨a, b, rfl⟩ := List.length_eq_two.1 (show trail.length = 2 by omega)
    simp only [List.all_cons, List.all_nil, Bool.and_true, Bool.and_eq_true, isTrail_iff] at htrail
    simp only [codePoint, List.foldl_cons, List.foldl_nil, List.length_cons, List.length_nil,
      leadBits, minimum] at hmin ⊢
    rw [sequence, if_neg (by omega), if_neg (by omega), if_pos (by omega),
      ofNat_eq_of_toNat_eq (b := lead) (by omega), ofNat_eq_of_toNat_eq (b := a) (by omega),
      ofNat_eq_of_toNat_eq (b := b) (by omega)]
  · obtain ⟨a, b, c, rfl⟩ := List.length_eq_three.1 (show trail.length = 3 by omega)
    simp only [List.all_cons, List.all_nil, Bool.and_true, Bool.and_eq_true, isTrail_iff] at htrail
    simp only [codePoint, List.foldl_cons, List.foldl_nil, List.length_cons, List.length_nil,
      leadBits, minimum] at hmin ⊢
    rw [sequence, if_neg (by omega), if_neg (by omega), if_neg (by omega),
      ofNat_eq_of_toNat_eq (b := lead) (by omega), ofNat_eq_of_toNat_eq (b := a) (by omega),
      ofNat_eq_of_toNat_eq (b := b) (by omega), ofNat_eq_of_toNat_eq (b := c) (by omega)]

/-! ### Characters in front of other bytes -/

/-- **Decoding finds an encoded character** in front of anything. -/
theorem next?_encodeChar_append (c : Char) (rest : List UInt8) :
    next? (encodeChar c ++ rest) = some (c, (encodeChar c).length) := by
  obtain ⟨lead, trail, hseq, hlen, htrail, hmin, hcode⟩ := codePoint_sequence (toNat_lt c)
  have htake : (trail ++ rest).take trail.length = trail := List.take_left
  simp only [encodeChar, hseq, List.cons_append, next?, hlen, Nat.add_sub_cancel, htake, hcode,
    htrail, hmin, isValidChar_toNat, and_self, if_true, Char.ofNat_toNat, List.length_cons]

/-- **What decoding finds is an encoded character.** -/
theorem eq_encodeChar_append_of_next? {bytes : List UInt8} {c : Char} {n : Nat}
    (h : next? bytes = some (c, n)) :
    n = (encodeChar c).length ∧ bytes = encodeChar c ++ bytes.drop n := by
  cases bytes with
  | nil => simp [next?] at h
  | cons lead rest =>
      simp only [next?] at h
      split at h
      · simp at h
      · next len hlen =>
        split at h
        · next hcond =>
          obtain ⟨htake, htrail, hmin, hvalid⟩ := hcond
          simp only [Option.some.injEq, Prod.mk.injEq] at h
          obtain ⟨rfl, rfl⟩ := h
          have hpos := sequenceLength?_pos hlen
          have hl : (rest.take (len - 1)).length + 1 = len := by omega
          have hseq := sequence_codePoint (by rw [hl, hlen]) htrail (by rw [hl]; exact hmin)
          have hchar : encodeChar (Char.ofNat (codePoint lead (rest.take (len - 1)))) =
              lead :: rest.take (len - 1) := by
            rw [encodeChar, toNat_ofNat_of_isValidChar hvalid, hseq]
          rw [hchar, List.length_cons, hl]
          obtain ⟨m, rfl⟩ : ∃ m, len = m + 1 := ⟨len - 1, by omega⟩
          simp
        · simp at h

/-! ### Bytes of a character -/

/-- A character of the ASCII range is one byte, its number. -/
theorem encodeChar_of_lt {c : Char} (h : c.toNat < 0x80) :
    encodeChar c = [UInt8.ofNat c.toNat] := by
  rw [encodeChar, sequence, if_pos h]

/-- All bytes of a character past the ASCII range are past it too. -/
theorem le_of_mem_encodeChar {c : Char} (h : 0x80 ≤ c.toNat) {b : UInt8} (hb : b ∈ encodeChar c) :
    0x80 ≤ b.toNat := by
  have hlt := toNat_lt c
  rw [encodeChar, sequence, if_neg (by omega)] at hb
  split_ifs at hb with h2 h3
  all_goals
    simp only [List.mem_cons, List.not_mem_nil, or_false] at hb
    rcases hb with rfl | rfl | rfl | rfl <;> rw [UInt8.toNat_ofNat'] <;> omega

/-- A character takes one to four bytes. -/
theorem length_encodeChar (c : Char) :
    1 ≤ (encodeChar c).length ∧ (encodeChar c).length ≤ 4 := by
  rw [encodeChar, sequence]
  split_ifs <;> simp

/-- A character takes one byte or more. -/
theorem encodeChar_ne_nil (c : Char) : encodeChar c ≠ [] :=
  List.length_pos_iff.1 (length_encodeChar c).1

/-- The encoding is that of Lean's own strings. -/
theorem encodeChar_eq_utf8EncodeChar (c : Char) : encodeChar c = String.utf8EncodeChar c := by
  have hlt := toNat_lt c
  have hval : c.val.toNat = c.toNat := rfl
  rw [encodeChar, sequence, String.utf8EncodeChar]
  simp only [hval]
  split_ifs <;> try omega
  · rfl
  · rw [show c.toNat / 64 % 32 + 192 = 192 + c.toNat / 64 by omega, Nat.add_comm 128]
  · rw [show c.toNat / 4096 % 16 + 224 = 224 + c.toNat / 4096 by omega, Nat.add_comm 128,
      Nat.add_comm 128]
  · rw [show c.toNat / 262144 % 8 + 240 = 240 + c.toNat / 262144 by omega, Nat.add_comm 128,
      Nat.add_comm 128, Nat.add_comm 128]

end StrictJson.Utf8
