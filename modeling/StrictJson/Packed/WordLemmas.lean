import Mathlib
import StrictJson.Packed.Word

/-!
# Words and Powers

How much a word of a given width can hold.

## Main results

* `wordValue_wordBytes`: a word of some width keeps a number modulo the power of 256.
* `wordValue_lt`: the number that bytes spell fits their count.
-/

namespace StrictJson.Packed

/-- A word of `width` bytes keeps the number modulo the power of 256. -/
theorem wordValue_wordBytes (width n : Nat) : wordValue (wordBytes width n) = n % 256 ^ width := by
  induction width generalizing n with
  | zero => simp [wordBytes, Nat.mod_one]
  | succ width ih =>
    have hb : (UInt8.ofNat n).toNat = n % 256 := by simp
    rw [wordBytes, wordValue_append_singleton, ih, Nat.pow_succ, Nat.mul_comm (256 ^ width) 256,
      Nat.mod_mul, hb]
    omega

/-- A number that fits is read back. -/
theorem wordValue_wordBytes_of_lt {width n : Nat} (h : n < 256 ^ width) :
    wordValue (wordBytes width n) = n := by
  rw [wordValue_wordBytes, Nat.mod_eq_of_lt h]

/-- The number that bytes spell fits their count. -/
theorem wordValue_lt (bytes : List UInt8) : wordValue bytes < 256 ^ bytes.length := by
  have h := wordValue_wordBytes bytes.length (wordValue bytes)
  rw [wordBytes_wordValue] at h
  exact h ▸ Nat.mod_lt _ (Nat.pow_pos (by decide))

end StrictJson.Packed
