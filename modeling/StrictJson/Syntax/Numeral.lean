import StrictJson.Syntax.Fault
import StrictJson.Value.Basic

/-!
# Numerals

The numbers of a document. A numeral is read as far as the grammar allows and taken apart without
loss: its parts spell the text that was read. A numeral that is the decimal text of a 64-bit
integer stands for that integer, and every other one for the nearest real.

## Main definitions

* `Numeral`, `Numeral.text`: the parts of a numeral and the text that they spell.
* `Numeral.scan`: the longest numeral at the front of some bytes.
* `Numeral.integer?`, `Numeral.value?`: what a numeral stands for.

## Main results

* `Numeral.scan_text`: a scanned numeral and what follows it make up the bytes.
* `Numeral.text_pos`: a scanned numeral is not empty.
-/

namespace StrictJson.Syntax

/-- Whether a byte is a decimal digit. -/
def isDigit (b : UInt8) : Bool :=
  0x30 ≤ b && b ≤ 0x39

/-- The number that a row of decimal digits spells. -/
def digitsValue (digits : List UInt8) : Nat :=
  digits.foldl (fun n b => n * 10 + (b.toNat - 0x30)) 0

/-- The **exponent** of a numeral: the letter that introduces it, its sign, and its digits. -/
structure Exponent where
  marker : UInt8
  sign : Option UInt8
  digits : List UInt8
  deriving DecidableEq, Repr

namespace Exponent

/-- The text of an exponent. -/
def text (e : Exponent) : List UInt8 :=
  e.marker :: e.sign.toList ++ e.digits

/-- The power of ten that an exponent asks for. -/
def value (e : Exponent) : Int :=
  if e.sign = some 0x2d then -(digitsValue e.digits : Int) else digitsValue e.digits

end Exponent

/-- A **numeral**, taken apart. -/
structure Numeral where
  negative : Bool
  whole : List UInt8
  fraction : Option (List UInt8)
  exponent : Option Exponent
  deriving DecidableEq, Repr

namespace Numeral

/-- The text of a fraction, if there is one. -/
def fractionText : Option (List UInt8) → List UInt8
  | none => []
  | some digits => 0x2e :: digits

/-- The text of an exponent, if there is one. -/
def exponentText : Option Exponent → List UInt8
  | none => []
  | some e => e.text

/-- The text of a numeral. -/
def text (n : Numeral) : List UInt8 :=
  (if n.negative then [0x2d] else []) ++ n.whole ++ fractionText n.fraction ++
    exponentText n.exponent

/-! ### Reading -/

/-- Reads the digits before the point. A zero stands alone. -/
def scanWhole (bytes : List UInt8) : Except Fault (List UInt8 × List UInt8) :=
  match bytes.takeWhile isDigit with
  | [] => .error .missingDigit
  | 0x30 :: _ :: _ => .error .leadingZero
  | digits => .ok (digits, bytes.dropWhile isDigit)

/-- Reads a point and the digits after it, if there is a point. -/
def scanFraction : List UInt8 → Except Fault (Option (List UInt8) × List UInt8)
  | 0x2e :: rest =>
    match rest.takeWhile isDigit with
    | [] => .error .missingFraction
    | digits => .ok (some digits, rest.dropWhile isDigit)
  | bytes => .ok (none, bytes)

/-- Reads a sign, if there is one. -/
def scanSign : List UInt8 → Option UInt8 × List UInt8
  | 0x2b :: rest => (some 0x2b, rest)
  | 0x2d :: rest => (some 0x2d, rest)
  | bytes => (none, bytes)

/-- Reads an exponent, if the bytes start with one of its two letters. -/
def scanExponent : List UInt8 → Except Fault (Option Exponent × List UInt8)
  | [] => .ok (none, [])
  | marker :: rest =>
    if marker = 0x65 ∨ marker = 0x45 then
      let (sign, digits) := scanSign rest
      match digits.takeWhile isDigit with
      | [] => .error .missingExponent
      | ds => .ok (some ⟨marker, sign, ds⟩, digits.dropWhile isDigit)
    else .ok (none, marker :: rest)

/-- Reads a minus sign, if there is one. -/
def scanMinus : List UInt8 → Bool × List UInt8
  | 0x2d :: rest => (true, rest)
  | bytes => (false, bytes)

/-- Reads the longest numeral at the front of `bytes`. -/
def scan (bytes : List UInt8) : Except Fault (Numeral × List UInt8) :=
  let (negative, unsigned) := scanMinus bytes
  match scanWhole unsigned with
  | .error f => .error f
  | .ok (whole, afterWhole) =>
    match scanFraction afterWhole with
    | .error f => .error f
    | .ok (fraction, afterFraction) =>
      match scanExponent afterFraction with
      | .error f => .error f
      | .ok (exponent, rest) => .ok (⟨negative, whole, fraction, exponent⟩, rest)

/-! ### Meaning -/

/-- The 64-bit integer whose decimal text the numeral is. A point, an exponent or the sign of a zero
rules that out. -/
def integer? (n : Numeral) : Option Int64 :=
  let magnitude := digitsValue n.whole
  if n.fraction.isSome ∨ n.exponent.isSome then none
  else if n.negative then
    if magnitude = 0 ∨ 0x8000000000000000 < magnitude then none
    else some (Int64.ofInt (-(magnitude : Int)))
  else if 0x8000000000000000 ≤ magnitude then none
  else some (Int64.ofInt magnitude)

/-- The size of the number that a numeral spells: all its digits, and the power of ten of the last
one. -/
def decimal (n : Numeral) : Decimal :=
  let fraction := n.fraction.getD []
  let exponent := match n.exponent with
    | some e => e.value
    | none => 0
  ⟨digitsValue (n.whole ++ fraction), exponent - fraction.length⟩

/-- What a numeral stands for: an integer, or the nearest real if that is finite. -/
def value? (n : Numeral) : Option Value :=
  match n.integer? with
  | some i => some (.integer i)
  | none =>
    let magnitude := n.decimal.nearest
    if magnitude < Binary64.infinity then some (.real (.ofParts n.negative magnitude)) else none

/-! ### A scan loses nothing -/

theorem scanWhole_append {bytes whole rest : List UInt8} (h : scanWhole bytes = .ok (whole, rest)) :
    whole ++ rest = bytes ∧ whole ≠ [] := by
  unfold scanWhole at h
  split at h
  · simp at h
  · simp at h
  · next digits hne _ =>
    simp only [Except.ok.injEq, Prod.mk.injEq] at h
    obtain ⟨rfl, rfl⟩ := h
    exact ⟨List.takeWhile_append_dropWhile, hne⟩

theorem scanFraction_append {bytes rest : List UInt8} {fraction : Option (List UInt8)}
    (h : scanFraction bytes = .ok (fraction, rest)) : fractionText fraction ++ rest = bytes := by
  unfold scanFraction at h
  split at h
  · split at h
    · simp at h
    · simp only [Except.ok.injEq, Prod.mk.injEq] at h
      obtain ⟨rfl, rfl⟩ := h
      simp [fractionText, List.takeWhile_append_dropWhile]
  · simp only [Except.ok.injEq, Prod.mk.injEq] at h
    obtain ⟨rfl, rfl⟩ := h
    rfl

theorem scanSign_append (bytes : List UInt8) :
    (scanSign bytes).1.toList ++ (scanSign bytes).2 = bytes := by
  unfold scanSign
  split <;> rfl

theorem scanExponent_append {bytes rest : List UInt8} {exponent : Option Exponent}
    (h : scanExponent bytes = .ok (exponent, rest)) : exponentText exponent ++ rest = bytes := by
  unfold scanExponent at h
  split at h
  · simp only [Except.ok.injEq, Prod.mk.injEq] at h
    obtain ⟨rfl, rfl⟩ := h
    rfl
  · next marker tail =>
    split at h
    · simp only at h
      split at h
      · simp at h
      · simp only [Except.ok.injEq, Prod.mk.injEq] at h
        obtain ⟨rfl, rfl⟩ := h
        have hs := scanSign_append tail
        simp only [exponentText, Exponent.text, List.cons_append, List.append_assoc,
          List.takeWhile_append_dropWhile, hs]
    · simp only [Except.ok.injEq, Prod.mk.injEq] at h
      obtain ⟨rfl, rfl⟩ := h
      rfl

theorem scanMinus_append (bytes : List UInt8) :
    (if (scanMinus bytes).1 then [0x2d] else []) ++ (scanMinus bytes).2 = bytes := by
  unfold scanMinus
  split <;> rfl

/-- A scanned numeral has digits, and it and what follows it make up the bytes. -/
theorem scan_text {bytes rest : List UInt8} {n : Numeral} (h : scan bytes = .ok (n, rest)) :
    n.text ++ rest = bytes ∧ n.whole ≠ [] := by
  unfold scan at h
  simp only at h
  split at h
  · simp at h
  · next whole afterWhole hw =>
    split at h
    · simp at h
    · next fraction afterFraction hf =>
      split at h
      · simp at h
      · next exponent rest' he =>
        simp only [Except.ok.injEq, Prod.mk.injEq] at h
        obtain ⟨rfl, rfl⟩ := h
        have h1 := scanWhole_append hw
        have h2 := scanFraction_append hf
        have h3 := scanExponent_append he
        refine ⟨?_, h1.2⟩
        simp only [text, List.append_assoc, h3, h2, h1.1]
        exact scanMinus_append bytes

/-- A scanned numeral is not empty. -/
theorem text_pos {bytes rest : List UInt8} {n : Numeral} (h : scan bytes = .ok (n, rest)) :
    0 < n.text.length := by
  have hw := List.length_pos_iff.2 (scan_text h).2
  simp only [text, List.length_append]
  omega

end Numeral

end StrictJson.Syntax
