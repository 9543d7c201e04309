import StrictJson.Proofs.Utf8.WellFormed

/-!
# Boundaries of Characters

Where some bytes can be cut without cutting a character. A well-formed start has no say in whether
the bytes behind it are well-formed, so texts can be put together and taken apart at such places,
and of all the well-formed starts of some bytes one is the longest.

## Main definitions

* `IsBoundary`: a place with nothing but whole characters before it.
* `IsLongestText`: the longest well-formed start of some bytes.

## Main results

* `isValid_append`: well-formed bytes in front of others do not matter.
* `isBoundary_ofString_iff`: the boundaries in a text are the places between its characters.
* `exists_isLongestText`: any bytes have a longest well-formed start.
-/

namespace StrictJson.Utf8

variable {bytes front back : List UInt8} {k : ℕ}

/-! ### Texts behind one another -/

/-- **Well-formed bytes in front of others do not matter.** -/
theorem isValid_append (h : isValid front = true) : isValid (front ++ back) = isValid back := by
  obtain ⟨chars, rfl⟩ := isValid_iff.1 h
  clear h
  induction chars with
  | nil => rfl
  | cons c chars ih => rw [encodeChars_cons, List.append_assoc, isValid_encodeChar_append, ih]

/-- Well-formed bytes are well-formed together. -/
theorem isValid_append_of (h : isValid front = true) (h' : isValid back = true) :
    isValid (front ++ back) = true :=
  (isValid_append h).trans h'

/-- Nothing is well-formed. -/
@[simp] theorem isValid_nil : isValid [] = true :=
  isValid_iff.2 ⟨[], rfl⟩

/-- A byte of the ASCII range is a character by itself. -/
theorem isValid_cons_of_lt {b : UInt8} (hb : b.toNat < 0x80) :
    isValid (b :: bytes) = isValid bytes := by
  have hchar : (Char.ofNat b.toNat).toNat = b.toNat :=
    toNat_ofNat_of_isValidChar (.inl (by omega))
  have hbytes : [b] = encodeChar (Char.ofNat b.toNat) := by
    rw [encodeChar_of_lt (by omega), hchar, UInt8.ofNat_toNat]
  rw [← List.singleton_append, hbytes, isValid_encodeChar_append]

/-- Bytes of the ASCII range are well-formed. -/
theorem isValid_of_forall_lt (h : ∀ b ∈ bytes, b.toNat < 0x80) : isValid bytes = true := by
  induction bytes with
  | nil => exact isValid_nil
  | cons b bytes ih =>
      rw [List.forall_mem_cons] at h
      rw [isValid_cons_of_lt h.1, ih h.2]

/-- The bytes of a text are well-formed. -/
theorem isValid_ofString (text : String) : isValid (ofString text) = true :=
  isValid_iff.2 ⟨text.toList, rfl⟩

/-! ### Boundaries -/

/-- The place `k` is a **boundary** in some bytes: it is not past their end, and what lies before it
is well-formed. -/
structure IsBoundary (bytes : List UInt8) (k : ℕ) : Prop where
  le_length : k ≤ bytes.length
  isValid_take : isValid (bytes.take k) = true

/-- The start is a boundary. -/
theorem isBoundary_zero (bytes : List UInt8) : IsBoundary bytes 0 where
  le_length := Nat.zero_le _
  isValid_take := isValid_nil

/-- A boundary behind a well-formed start is one of the whole. -/
theorem IsBoundary.append (h : IsBoundary back k) (hfront : isValid front = true) :
    IsBoundary (front ++ back) (front.length + k) where
  le_length := by
    rw [List.length_append]
    exact Nat.add_le_add_left h.le_length _
  isValid_take := by
    rw [List.take_length_add_append, isValid_append hfront]
    exact h.isValid_take

/-- **The boundaries in a text are the places between its characters**, and its two ends. -/
theorem isBoundary_ofString_iff {text : String} :
    IsBoundary (ofString text) k ↔
      ∃ before after, before ++ after = text ∧ (ofString before).length = k := by
  constructor
  · rintro ⟨hle, hvalid⟩
    have hsplit := List.take_append_drop k (ofString text)
    have hrest : isValid ((ofString text).drop k) = true := by
      rw [← isValid_append hvalid, hsplit, isValid_ofString]
    obtain ⟨chars, hchars⟩ := isValid_iff.1 hvalid
    obtain ⟨more, hmore⟩ := isValid_iff.1 hrest
    have htext : chars ++ more = text.toList := by
      refine encodeChars_injective ?_
      rw [encodeChars_append, hchars, hmore, hsplit, ofString]
    refine ⟨String.ofList chars, String.ofList more, ?_, ?_⟩
    · rw [← String.ofList_append, htext, String.ofList_toList]
    · rw [ofString, String.toList_ofList, hchars, List.length_take_of_le hle]
  · rintro ⟨before, after, rfl, rfl⟩
    have happend : ofString (before ++ after) = ofString before ++ ofString after := by
      rw [ofString, String.toList_append, encodeChars_append, ofString, ofString]
    rw [happend]
    exact (isBoundary_zero (ofString after)).append (isValid_ofString before)

/-! ### The longest text -/

/-- The **longest text** that some bytes begin with: a well-formed start of which every other one is
a start. -/
structure IsLongestText (front bytes : List UInt8) : Prop where
  stands : front <+: bytes
  isValid : isValid front = true
  longest : ∀ other, other <+: bytes → Utf8.isValid other = true → other <+: front

/-- Decoding goes through a text and on behind it. -/
theorem decodePrefix_encodeChars_append (chars : List Char) (rest : List UInt8) :
    decodePrefix (encodeChars chars ++ rest) =
      (chars ++ (decodePrefix rest).1, (decodePrefix rest).2) := by
  induction chars with
  | nil => rfl
  | cons c chars ih =>
      rw [encodeChars_cons, List.append_assoc, decodePrefix_encodeChar_append, ih,
        List.cons_append]

/-- What is decoded up to the first malformed sequence is the **longest text**. -/
theorem isLongestText_decodePrefix (bytes : List UInt8) :
    IsLongestText (encodeChars (decodePrefix bytes).1) bytes where
  stands := ⟨_, encodeChars_decodePrefix bytes⟩
  isValid := isValid_iff.2 ⟨_, rfl⟩
  longest other hother hvalid := by
    obtain ⟨rest, rfl⟩ := hother
    obtain ⟨chars, rfl⟩ := isValid_iff.1 hvalid
    rw [decodePrefix_encodeChars_append, encodeChars_append]
    exact List.prefix_append _ _

/-- Any bytes have a longest well-formed start. -/
theorem exists_isLongestText (bytes : List UInt8) : ∃ front, IsLongestText front bytes :=
  ⟨_, isLongestText_decodePrefix bytes⟩

/-- No boundary lies behind the longest text. -/
theorem IsLongestText.le_length (h : IsLongestText front bytes) (hk : IsBoundary bytes k) :
    k ≤ front.length := by
  have hstart := (h.longest _ (List.take_prefix k bytes) hk.isValid_take).length_le
  rwa [List.length_take_of_le hk.le_length] at hstart

end StrictJson.Utf8
