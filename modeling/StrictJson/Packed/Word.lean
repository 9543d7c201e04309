/-!
# Words

Numbers as a fixed count of bytes, the most significant first.

## Main results

* `wordBytes_wordValue`: the bytes of a word are written back.
-/

namespace StrictJson.Packed

/-- The lowest `width` bytes of a number, the most significant first. -/
def wordBytes : Nat → Nat → List UInt8
  | 0, _ => []
  | width + 1, n => wordBytes width (n / 256) ++ [UInt8.ofNat n]

/-- The number that bytes spell, the most significant first. -/
def wordValue (bytes : List UInt8) : Nat :=
  bytes.foldl (fun n b => n * 256 + b.toNat) 0

@[simp] theorem length_wordBytes (width n : Nat) : (wordBytes width n).length = width := by
  induction width generalizing n with
  | zero => rfl
  | succ width ih => simp [wordBytes, ih]

@[simp] theorem wordValue_nil : wordValue [] = 0 := rfl

/-- The last byte of a word has the least weight. -/
@[simp] theorem wordValue_append_singleton (bytes : List UInt8) (b : UInt8) :
    wordValue (bytes ++ [b]) = wordValue bytes * 256 + b.toNat := by
  simp [wordValue]

/-- The bytes of a word are written back, stated with the least significant byte in front. -/
theorem wordBytes_wordValue_reverse (digits : List UInt8) :
    wordBytes digits.length (wordValue digits.reverse) = digits.reverse := by
  induction digits with
  | nil => rfl
  | cons b digits ih =>
    have hb := b.toNat_lt
    rw [List.reverse_cons, wordValue_append_singleton, List.length_cons, wordBytes,
      show (wordValue digits.reverse * 256 + b.toNat) / 256 = wordValue digits.reverse by omega, ih]
    congr 2
    apply UInt8.toNat_inj.1
    simp only [UInt8.toNat_ofNat']
    omega

/-- The bytes of a word are written back. -/
theorem wordBytes_wordValue (bytes : List UInt8) :
    wordBytes bytes.length (wordValue bytes) = bytes := by
  simpa using wordBytes_wordValue_reverse bytes.reverse

end StrictJson.Packed
