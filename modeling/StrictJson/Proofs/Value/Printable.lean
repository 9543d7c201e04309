import StrictJson.Proofs.Syntax.StringText
import StrictJson.Proofs.Value.Shape

/-!
# Compact Text Is One Line

The text of a value has no control character in it, whatever its strings hold: numbers are written
in figures, words and marks are plain, and inside strings the controls are escaped. So no byte of it
is below that of the space, and texts of values can be kept apart by line feeds.

## Main definitions

* `Text.IsPrintable`: no character is a control below the space.

## Main results

* `Value.isPrintable_render`: the text of a value is printable.
* `Text.IsPrintable.le_of_mem`: so are its bytes.
-/

namespace StrictJson

namespace Text

/-- No character is below the space: the text is **printable** and on one line. -/
def IsPrintable (chars : List Char) : Prop :=
  ∀ c ∈ chars, 0x20 ≤ c.toNat

@[simp] theorem isPrintable_nil : IsPrintable [] := List.forall_mem_nil _

@[simp] theorem isPrintable_cons {c : Char} {chars : List Char} :
    IsPrintable (c :: chars) ↔ 0x20 ≤ c.toNat ∧ IsPrintable chars := List.forall_mem_cons

@[simp] theorem isPrintable_append {chars more : List Char} :
    IsPrintable (chars ++ more) ↔ IsPrintable chars ∧ IsPrintable more := List.forall_mem_append

/-- The bytes of a printable text are not below the space either. -/
theorem IsPrintable.le_of_mem {chars : List Char} (h : IsPrintable chars) {b : UInt8}
    (hb : b ∈ Utf8.encodeChars chars) : 0x20 ≤ b := by
  rw [UInt8.le_iff_toNat_le]
  obtain ⟨c, hc, hbyte⟩ := List.mem_flatMap.1 hb
  have hle : 0x20 ≤ c.toNat := h c hc
  rcases Nat.lt_or_ge c.toNat 0x80 with hascii | hpast
  · rw [Utf8.encodeChar_of_lt hascii, List.mem_singleton] at hbyte
    rw [hbyte, UInt8.toNat_ofNat', Nat.mod_eq_of_lt (by omega)]
    exact hle
  · exact (Utf8.le_of_mem_encodeChar hpast hbyte).trans' (by decide)

/-- Figures are printable. -/
theorem isPrintable_of_forall_isFigure {chars : List Char}
    (h : ∀ c ∈ chars, Syntax.IsFigure c) : IsPrintable chars := by
  intro c hc
  have hbounds := (h c hc).bounds
  omega

theorem isPrintable_toDigits (n : ℕ) : IsPrintable (Nat.toDigits 10 n) :=
  isPrintable_of_forall_isFigure fun _ hc => Syntax.isFigure_of_mem_toDigits hc

end Text

open Text

/-! ### Strings and numbers -/

/-- The number of a control is written with four digits. -/
theorem isPrintable_padded {n : ℕ} (h : n < 0x20) : IsPrintable (Hex.padded 4 n) := by
  have hdigits : Hex.padded 4 n = ['0', '0', (n / 16).digitChar, (n % 16).digitChar] := by
    interval_cases n <;> rfl
  have hdigit : ∀ d < 16, 0x20 ≤ d.digitChar.toNat := by decide
  rw [hdigits]
  simp [hdigit (n / 16) (by omega), hdigit (n % 16) (by omega)]

/-- What is written for a character is printable, also for a control. -/
theorem isPrintable_escapedChar (c : Char) : IsPrintable (escapedChar c) := by
  rw [escapedChar]
  split_ifs with h1 h2 h3 h4 h5 h6 h7 h8
  pick_goal 9
  · exact isPrintable_cons.2 ⟨Nat.le_of_not_lt h8, isPrintable_nil⟩
  pick_goal 8
  · exact isPrintable_append.2 ⟨by simp, isPrintable_padded h8⟩
  all_goals simp

theorem isPrintable_stringText (s : String) : IsPrintable (stringText s) := by
  have hinside : IsPrintable (s.toList.flatMap escapedChar) := by
    intro c hc
    obtain ⟨c', -, hc⟩ := List.mem_flatMap.1 hc
    exact isPrintable_escapedChar c' c hc
  simp [stringText, hinside]

theorem isPrintable_integerText (n : Int64) : IsPrintable (integerText n) := by
  have hsign : IsPrintable (if n.toInt < 0 then ['-'] else []) := by split_ifs <;> simp
  exact isPrintable_append.2 ⟨hsign, isPrintable_toDigits _⟩

theorem isPrintable_realText (style : RealStyle) (x : Binary64) : IsPrintable (x.text style) := by
  have hsign : IsPrintable (if x.isNegative then ['-'] else []) := by split_ifs <;> simp
  have hdecimal : ∀ d : Decimal, IsPrintable (d.text style) := fun d =>
    isPrintable_of_forall_isFigure fun _ hc => Syntax.isFigure_of_mem_decimalText hc
  rw [Binary64.text]
  split
  · simp
  · refine isPrintable_append.2 ⟨hsign, ?_⟩
    split
    · simp
    · exact hdecimal _

/-! ### Containers -/

/-- Commas keep texts printable. -/
theorem isPrintable_commaSeparated {texts : List (List Char)} (h : ∀ t ∈ texts, IsPrintable t) :
    IsPrintable (commaSeparated texts) := by
  induction texts using commaSeparated.induct with
  | case1 => exact isPrintable_nil
  | case2 t => exact h t (List.mem_singleton_self t)
  | case3 t u ts ih =>
      obtain ⟨ht, hrest⟩ := List.forall_mem_cons.1 h
      rw [commaSeparated, isPrintable_append, isPrintable_cons]
      exact ⟨ht, by decide, ih hrest⟩

namespace Value

theorem renderItems_eq_map (style : RealStyle) (items : List Value) :
    renderItems style items = items.map (render style) := by
  induction items with
  | nil => rfl
  | cons v vs ih => rw [renderItems, ih, List.map_cons]

theorem renderMembers_eq_map (style : RealStyle) (members : List (String × Value)) :
    renderMembers style members =
      members.map fun m => stringText m.1 ++ ':' :: m.2.render style := by
  induction members with
  | nil => rfl
  | cons m ms ih => rw [renderMembers, ih, List.map_cons]

/-- **The text of a value is printable.** -/
theorem isPrintable_render (style : RealStyle) (v : Value) : IsPrintable (v.render style) := by
  induction v using Value.induction with
  | null => simp [render]
  | boolean b => cases b <;> simp [render]
  | integer n => exact isPrintable_integerText n
  | real x => exact isPrintable_realText style x
  | string s => exact isPrintable_stringText s
  | array items ih =>
      have hitems : IsPrintable (commaSeparated (renderItems style items)) := by
        rw [renderItems_eq_map]
        exact isPrintable_commaSeparated (List.forall_mem_map.2 ih)
      simp [render, hitems]
  | object members ih =>
      have hmembers : IsPrintable (commaSeparated (renderMembers style members)) := by
        rw [renderMembers_eq_map]
        refine isPrintable_commaSeparated (List.forall_mem_map.2 fun m hm => ?_)
        rw [isPrintable_append, isPrintable_cons]
        exact ⟨isPrintable_stringText m.1, by decide, ih m hm⟩
      simp [render, hmembers]

end Value

end StrictJson
