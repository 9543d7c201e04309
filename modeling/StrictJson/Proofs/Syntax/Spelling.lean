import StrictJson.Proofs.Syntax.Cursor
import StrictJson.Proofs.Syntax.Refusal
import StrictJson.Proofs.Utf8.Sequence

/-!
# Spellings of Strings

Inside a string a character can be **spelled** in several ways: by its own UTF-8 bytes unless it is
a control, a quotation mark or a backslash; by an escape of one letter; by an escape of four
hexadecimal digits; and past the first plane by two such escapes. A `Spelling` is a character with
one of its spellings, so a row of them is the inside of a string token, and it knows which
characters it stands for.

The character of number zero can only be spelled by an escape of four digits. Such an escape is a
construct that the options may refuse, at its backslash.

## Main definitions

* `Spells`, `Spelling`: characters as they are spelled.
* `spelledText`, `spelledString`: the inside of a string token, and the string.
* `spelledConstructs`: the escapes for the character of number zero among spellings.

## Main results

* `readElement_append`, `readString_append`: spellings are read as their characters.
* `exists_of_readElement`, `exists_of_readString`: what is read is a row of spellings.
-/

namespace StrictJson.Syntax

/-! ### Spellings -/

/-- The escapes of **one letter**. -/
inductive ShortEscape : UInt8 → Char → Prop
  | quotationMark : ShortEscape 0x22 '"'
  | backslash : ShortEscape 0x5c '\\'
  | slash : ShortEscape 0x2f '/'
  | backspace : ShortEscape 0x62 '\x08'
  | formFeed : ShortEscape 0x66 '\x0c'
  | lineFeed : ShortEscape 0x6e '\n'
  | carriageReturn : ShortEscape 0x72 '\r'
  | tab : ShortEscape 0x74 '\t'

/-- Four **hexadecimal digits**, each in either case, and the number that they spell. -/
inductive SpellsUnit : List UInt8 → ℕ → Prop
  | mk {a b c d : UInt8} {w x y z : ℕ} :
      Hex.digitValue? a = some w → Hex.digitValue? b = some x → Hex.digitValue? c = some y →
      Hex.digitValue? d = some z →
      SpellsUnit [a, b, c, d] (w * 4096 + x * 256 + y * 16 + z)

/-- The bytes **spell** a character inside a string. -/
inductive Spells : List UInt8 → Char → Prop
  /-- The character itself, in UTF-8. -/
  | plain {c : Char} : 0x20 ≤ c.toNat → c ≠ '"' → c ≠ '\\' → Spells (String.utf8EncodeChar c) c
  /-- A backslash and a letter. -/
  | short {letter : UInt8} {c : Char} : ShortEscape letter c → Spells [0x5c, letter] c
  /-- A backslash, `u` and four digits, which are no half of a surrogate pair. -/
  | unit {digits : List UInt8} {n : ℕ} : SpellsUnit digits n → n < 0xd800 ∨ 0xdfff < n →
      Spells (0x5c :: 0x75 :: digits) (Char.ofNat n)
  /-- Two such escapes, which are the halves of a surrogate pair. -/
  | pair {digits₁ digits₂ : List UInt8} {high low : ℕ} :
      SpellsUnit digits₁ high → 0xd800 ≤ high → high ≤ 0xdbff →
      SpellsUnit digits₂ low → 0xdc00 ≤ low → low ≤ 0xdfff →
      Spells (0x5c :: 0x75 :: digits₁ ++ 0x5c :: 0x75 :: digits₂)
        (Char.ofNat (0x10000 + (high - 0xd800) * 0x400 + (low - 0xdc00)))

/-- A character as it is **spelled** inside a string. -/
structure Spelling where
  text : List UInt8
  char : Char
  spells : Spells text char

/-- The bytes of a row of spellings. -/
def spelledText (ss : List Spelling) : List UInt8 :=
  ss.flatMap Spelling.text

/-- The string that a row of spellings stands for. -/
def spelledString (ss : List Spelling) : String :=
  String.ofList (ss.map Spelling.char)

/-! ### Escapes and digits -/

/-- The table of one-letter escapes is the one of the reader. -/
theorem shortEscape?_eq_some_iff {letter : UInt8} {c : Char} :
    shortEscape? letter = some c ↔ ShortEscape letter c := by
  constructor
  · intro h
    rw [shortEscape?] at h
    split_ifs at h with h1 h2 h3 h4 h5 h6 h7 h8
    all_goals
      rw [← Option.some.inj h]
      subst letter
      constructor
  · rintro ⟨⟩ <;> rfl

/-- No one-letter escape spells a character of number zero. -/
theorem ShortEscape.ne_nul {letter : UInt8} {c : Char} (h : ShortEscape letter c) : c ≠ '\x00' := by
  cases h <;> decide

theorem digitValue?_lt {b : UInt8} {n : ℕ} (h : Hex.digitValue? b = some n) : n < 16 := by
  simp only [Hex.digitValue?, UInt8.le_iff_toNat_le, UInt8.reduceToNat] at h
  split_ifs at h <;> rw [Option.some_inj] at h <;> omega

/-- Four digits spell a number of sixteen bits. -/
theorem SpellsUnit.lt {digits : List UInt8} {n : ℕ} (h : SpellsUnit digits n) : n < 0x10000 := by
  obtain ⟨ha, hb, hc, hd⟩ := h
  have := digitValue?_lt ha
  have := digitValue?_lt hb
  have := digitValue?_lt hc
  have := digitValue?_lt hd
  omega

theorem SpellsUnit.length_eq {digits : List UInt8} {n : ℕ} (h : SpellsUnit digits n) :
    digits.length = 4 := by
  obtain ⟨-, -, -, -⟩ := h
  rfl

/-- Four digits in front of the cursor are read as the number that they spell. -/
theorem readUnit_append {digits rest : List UInt8} {n p : ℕ} (h : SpellsUnit digits n) :
    readUnit ⟨p, digits ++ rest⟩ = .ok n := by
  obtain ⟨ha, hb, hc, hd⟩ := h
  rename_i a b c d w x y z
  rw [readUnit, List.take_append_of_le_length (by simp), List.take_of_length_le (by simp)]
  simp only [List.length_cons, List.length_nil, hexValue, ha, hb, hc, hd, Nat.lt_irrefl, if_false,
    Nat.zero_add]
  congr 1
  omega

/-- What is read as four digits are four digits. -/
theorem spellsUnit_of_readUnit {c : Cursor} {n : ℕ} (h : readUnit c = .ok n) :
    ∃ digits, SpellsUnit digits n ∧ c.rest = digits ++ (c.advance 4).rest := by
  rw [readUnit] at h
  split_ifs at h with hlen
  have hfour : (c.rest.take 4).length = 4 := by
    have := List.length_take_le 4 c.rest
    omega
  obtain ⟨a, b, d, e, hdigits⟩ : ∃ a b d e, c.rest.take 4 = [a, b, d, e] := by
    match c.rest.take 4, hfour with
    | [a, b, d, e], _ => exact ⟨a, b, d, e, rfl⟩
  refine ⟨c.rest.take 4, ?_, (List.take_append_drop 4 c.rest).symm⟩
  rw [hdigits] at h ⊢
  split at h
  · next m hm =>
    simp only [hexValue] at hm
    split at hm
    · next w hw =>
      split at hm
      · next x hx =>
        split at hm
        · next y hy =>
          split at hm
          · next z hz =>
            simp only [Except.ok.injEq] at h hm
            obtain rfl : n = w * 4096 + x * 256 + y * 16 + z := by omega
            exact .mk hw hx hy hz
          · simp at hm
        · simp at hm
      · simp at hm
    · simp at hm
  · simp at h

/-- Among digits only the zero counts for nothing. -/
theorem eq_zero_of_digitValue? {b : UInt8} {n : ℕ} (h : Hex.digitValue? b = some n) (hn : n = 0) :
    b = 0x30 := by
  subst hn
  simp only [Hex.digitValue?, UInt8.le_iff_toNat_le, UInt8.reduceToNat] at h
  split_ifs at h with h1 h2 h3 <;> rw [Option.some_inj] at h
  · exact UInt8.toNat_inj.1 (by simp only [UInt8.reduceToNat]; omega)
  · omega
  · omega

theorem toNat_ofNat_of_unit {n : ℕ} (h : n < 0x10000) (hs : n < 0xd800 ∨ 0xdfff < n) :
    (Char.ofNat n).toNat = n :=
  Utf8.toNat_ofNat_of_isValidChar (by simp only [Nat.isValidChar]; omega)

/-- No surrogate pair spells a character of number zero. -/
theorem pairChar_ne_nul {high low : ℕ} (hlo : 0xd800 ≤ high) (hhi : high ≤ 0xdbff)
    (hlo' : 0xdc00 ≤ low) (hhi' : low ≤ 0xdfff) : pairChar high low ≠ '\x00' := by
  rw [pairChar, Ne, ← Char.toNat_inj, Utf8.toNat_ofNat_of_isValidChar]
  · have hzero : '\x00'.toNat = 0 := rfl
    omega
  · simp only [Nat.isValidChar]
    omega

/-! ### The character of number zero -/

/-- The only spelling of the character of number zero: a backslash, `u` and four zeros. -/
def nulEscape : List UInt8 := [0x5c, 0x75, 0x30, 0x30, 0x30, 0x30]

/-- A spelling has at least one byte. -/
theorem Spelling.length_pos (s : Spelling) : 0 < s.text.length := by
  obtain ⟨text, char, h⟩ := s
  cases h with
  | plain =>
      have hne := Utf8.encodeChar_ne_nil char
      rw [Utf8.encodeChar_eq_utf8EncodeChar] at hne
      exact List.length_pos_iff.2 hne
  | short | unit | pair => exact Nat.succ_pos _

/-- **No spelling is shorter** than the bytes of its character. -/
theorem Spelling.length_char_le (s : Spelling) :
    (Utf8.encodeChar s.char).length ≤ s.text.length := by
  obtain ⟨text, char, h⟩ := s
  obtain ⟨-, hfour⟩ := Utf8.length_encodeChar char
  change (Utf8.encodeChar char).length ≤ text.length
  cases h with
  | plain => exact Nat.le_of_eq (congrArg List.length (Utf8.encodeChar_eq_utf8EncodeChar char))
  | short h => cases h <;> decide
  | unit h =>
      simp only [List.length_cons, h.length_eq]
      omega
  | pair h _ _ h' =>
      simp only [List.length_append, List.length_cons, h.length_eq, h'.length_eq]
      omega

/-- A string is no longer than the text that spells it. -/
theorem length_spelledString_le (ss : List Spelling) :
    (Utf8.ofString (spelledString ss)).length ≤ (spelledText ss).length := by
  rw [Utf8.ofString, spelledString, String.toList_ofList, Utf8.encodeChars, spelledText]
  induction ss with
  | nil => exact Nat.le_refl 0
  | cons s ss ih =>
      rw [List.map_cons, List.flatMap_cons, List.flatMap_cons, List.length_append,
        List.length_append]
      exact Nat.add_le_add s.length_char_le ih

/-- The escape for the character of number zero, as a construct at the byte `p`. -/
def Spelling.constructs (role : Role) (p : ℕ) (s : Spelling) : List Construct :=
  if s.char = '\x00' then [.nul role p] else []

/-- The escapes for the character of number zero among spellings that begin at the byte `p`. -/
def spelledConstructs (role : Role) : ℕ → List Spelling → List Construct
  | _, [] => []
  | p, s :: ss => s.constructs role p ++ spelledConstructs role (p + s.text.length) ss

/-- Only the escape of four zeros spells the character of number zero. -/
theorem spells_nul_iff {text : List UInt8} : Spells text '\x00' ↔ text = nulEscape := by
  constructor
  · generalize hchar : '\x00' = char
    intro h
    cases h with
    | plain hc => exact absurd (hchar ▸ hc) (by decide)
    | short hs => exact absurd hchar.symm hs.ne_nul
    | unit hu hs =>
        have hn := congrArg Char.toNat hchar
        rw [toNat_ofNat_of_unit hu.lt hs] at hn
        obtain ⟨ha, hb, hc, hd⟩ := hu
        have hzero : '\x00'.toNat = 0 := rfl
        rw [hzero] at hn
        rw [eq_zero_of_digitValue? ha (by omega), eq_zero_of_digitValue? hb (by omega),
          eq_zero_of_digitValue? hc (by omega), eq_zero_of_digitValue? hd (by omega), nulEscape]
    | pair hu hlo hhi hv hlo' hhi' => exact absurd hchar.symm (pairChar_ne_nul hlo hhi hlo' hhi')
  · rintro rfl
    exact .unit (.mk (w := 0) (x := 0) (y := 0) (z := 0) rfl rfl rfl rfl) (by decide)

/-- The escapes for the character of number zero are constructs in their string. -/
theorem of_mem_spelledConstructs {role : Role} {ss : List Spelling} {p : ℕ} {construct : Construct}
    (h : construct ∈ spelledConstructs role p ss) :
    ∃ q, construct = .nul role q ∧ p ≤ q ∧ q < p + (spelledText ss).length := by
  induction ss generalizing p with
  | nil => exact absurd h List.not_mem_nil
  | cons s ss ih =>
      have hlen : (spelledText (s :: ss)).length = s.text.length + (spelledText ss).length := by
        rw [spelledText, List.flatMap_cons, List.length_append, ← spelledText]
      have hpos := s.length_pos
      rcases List.mem_append.1 h with h | h
      · rw [Spelling.constructs] at h
        split_ifs at h with hnul
        · exact ⟨p, List.mem_singleton.1 h, by omega, by omega⟩
        · exact absurd h List.not_mem_nil
      · obtain ⟨q, hq, hlo, hhi⟩ := ih h
        exact ⟨q, hq, by omega, by omega⟩

/-- The constructs of a string stand one behind the other. -/
theorem pairwise_spelledConstructs (role : Role) (ss : List Spelling) (p : ℕ) :
    (spelledConstructs role p ss).Pairwise (·.offset < ·.offset) := by
  induction ss generalizing p with
  | nil => exact .nil
  | cons s ss ih =>
      rw [spelledConstructs, Spelling.constructs]
      split_ifs with hnul
      · refine List.pairwise_cons.2 ⟨fun construct hmem => ?_, ih _⟩
        obtain ⟨q, rfl, hlo, -⟩ := of_mem_spelledConstructs hmem
        have hpos := s.length_pos
        simp only [Construct.offset]
        omega
      · exact ih _

/-- A string has such a construct exactly if it has the character. -/
theorem spelledConstructs_eq_nil_iff {role : Role} {ss : List Spelling} {p : ℕ} :
    spelledConstructs role p ss = [] ↔ ∀ s ∈ ss, s.char ≠ '\x00' := by
  induction ss generalizing p with
  | nil => simp [spelledConstructs]
  | cons s ss ih =>
      rw [spelledConstructs, List.append_eq_nil_iff, ih, List.forall_mem_cons]
      refine and_congr_left fun _ => ?_
      rw [Spelling.constructs]
      split_ifs with h <;> simp [h]

/-! ### Reading one spelling -/

/-- The first byte of a character that may stand as it is tells it apart from all else. -/
theorem head_encodeChar {c : Char} (hc : 0x20 ≤ c.toNat) (hmark : c ≠ '"') (hback : c ≠ '\\') :
    ∃ b bytes, Utf8.encodeChar c = b :: bytes ∧ b ≠ 0x22 ∧ b ≠ 0x5c ∧ ¬ b < 0x20 := by
  have hne : ∀ d : Char, c ≠ d → c.toNat ≠ d.toNat := fun d h hd => h (Char.toNat_inj.1 hd)
  have h22 : c.toNat ≠ 0x22 := hne '"' hmark
  have h5c : c.toNat ≠ 0x5c := hne '\\' hback
  obtain ⟨b, bytes, hb⟩ := List.exists_cons_of_ne_nil (Utf8.encodeChar_ne_nil c)
  have hnum : 0x80 ≤ b.toNat ∨ b.toNat = c.toNat := by
    by_cases hascii : c.toNat < 0x80
    · rw [Utf8.encodeChar_of_lt hascii, List.cons.injEq] at hb
      refine .inr ?_
      have hsize : c.toNat < UInt8.size := Nat.lt_trans hascii (by decide)
      rw [← hb.1, UInt8.toNat_ofNat_of_lt' hsize]
    · exact .inl (Utf8.le_of_mem_encodeChar (by omega) (hb ▸ List.mem_cons_self ..))
  refine ⟨b, bytes, hb, ?_, ?_, ?_⟩
  · rintro rfl
    simp only [UInt8.reduceToNat] at hnum
    omega
  · rintro rfl
    simp only [UInt8.reduceToNat] at hnum
    omega
  · simp only [UInt8.lt_iff_toNat_lt, UInt8.reduceToNat]
    omega

/-- A character whose first byte is neither a control nor special in strings may stand as it is. -/
theorem plain_of_head {c : Char} {b : UInt8} {bytes : List UInt8}
    (h : Utf8.encodeChar c = b :: bytes) (hmark : b ≠ 0x22) (hback : b ≠ 0x5c)
    (hcontrol : ¬ b < 0x20) : 0x20 ≤ c.toNat ∧ c ≠ '"' ∧ c ≠ '\\' := by
  refine ⟨?_, ?_, ?_⟩
  · by_contra hlt
    rw [Utf8.encodeChar_of_lt (by omega), List.cons.injEq] at h
    rw [← h.1, UInt8.lt_iff_toNat_lt, UInt8.toNat_ofNat_of_lt'] at hcontrol
    · exact hcontrol (Nat.lt_of_not_le hlt)
    · exact Nat.lt_trans (Nat.lt_of_not_le hlt) (by decide)
  · rintro rfl
    exact hmark (List.cons.inj h).1.symm
  · rintro rfl
    exact hback (List.cons.inj h).1.symm

/-- A backslash and `u` lead to an escape of four digits. -/
theorem readElement_numericEscape {o : Options} {context : StringContext} {p : ℕ}
    {bytes : List UInt8} :
    readElement o context ⟨p, 0x5c :: 0x75 :: bytes⟩ =
      (readNumericEscape o context.role ⟨p, 0x5c :: 0x75 :: bytes⟩).map
        fun (char, next) => (some char, next) := by
  have hnone : shortEscape? 0x75 = none := by decide
  have hmark : (0x5c : UInt8) ≠ 0x22 := by decide
  simp only [readElement, Cursor.peek?_cons, readEscape, Cursor.advance_one_cons, hnone, hmark,
    if_true, if_false]

/-- Four digits that are no half of a pair are read as the character of their number, unless that
number is zero and refused. -/
theorem readNumericEscape_unit {o : Options} {role : Role} {digits rest : List UInt8} {n p : ℕ}
    (h : SpellsUnit digits n) (hs : n < 0xd800 ∨ 0xdfff < n) :
    readNumericEscape o role ⟨p, 0x5c :: 0x75 :: digits ++ rest⟩ =
      refuse o (if n = 0 then [.nul role p] else []) (.ok (Char.ofNat n, ⟨p + 6, rest⟩)) := by
  have hread : readUnit ((⟨p, 0x5c :: 0x75 :: digits ++ rest⟩ : Cursor).advance 2) = .ok n :=
    readUnit_append h
  have hnext : (⟨p, 0x5c :: 0x75 :: digits ++ rest⟩ : Cursor).advance 6 = ⟨p + 6, rest⟩ := by
    have := Cursor.advance_append p (0x5c :: 0x75 :: digits) rest
    simpa only [List.length_cons, h.length_eq] using this
  have h1 : ¬ (0xd800 ≤ n ∧ n ≤ 0xdbff) := by omega
  have h2 : ¬ (0xdc00 ≤ n ∧ n ≤ 0xdfff) := by omega
  rw [readNumericEscape, hread]
  simp only [h1, h2, hnext, if_false]
  by_cases h0 : n = 0
  · cases hallow : o.allowNul <;> simp [h0, refuse, Construct.refusal?, hallow]
  · simp [h0]

/-- Two escapes that are the halves of a pair are read as the character of the pair. -/
theorem readNumericEscape_pair (o : Options) (role : Role) (p : ℕ) (rest : List UInt8)
    {digits₁ digits₂ : List UInt8} {high low : ℕ} (h₁ : SpellsUnit digits₁ high)
    (hlo : 0xd800 ≤ high) (hhi : high ≤ 0xdbff) (h₂ : SpellsUnit digits₂ low)
    (hlo' : 0xdc00 ≤ low) (hhi' : low ≤ 0xdfff) :
    readNumericEscape o role ⟨p, 0x5c :: 0x75 :: digits₁ ++ 0x5c :: 0x75 :: digits₂ ++ rest⟩ =
      .ok (pairChar high low, ⟨p + 12, rest⟩) := by
  generalize hc : (⟨p, 0x5c :: 0x75 :: digits₁ ++ 0x5c :: 0x75 :: digits₂ ++ rest⟩ : Cursor) = c
  have hrest : c.rest = 0x5c :: 0x75 :: digits₁ ++ (0x5c :: 0x75 :: digits₂ ++ rest) := by
    rw [← hc, List.append_assoc]
  have hlen := h₁.length_eq
  have hlen' := h₂.length_eq
  have hsix : (c.advance 6).rest = 0x5c :: 0x75 :: (digits₂ ++ rest) := by
    rw [Cursor.rest_advance, hrest]
    exact List.drop_left' (by simp only [List.length_cons, hlen])
  have htwelve : c.advance 12 = ⟨p + 12, rest⟩ := by
    have := Cursor.advance_append p (0x5c :: 0x75 :: digits₁ ++ 0x5c :: 0x75 :: digits₂) rest
    simpa only [← hc, List.length_append, List.length_cons, hlen, hlen'] using this
  have hread : readUnit (c.advance 2) = .ok high := by
    rw [← hc, List.append_assoc]
    exact readUnit_append h₁
  have hread' : readUnit (c.advance 8) = .ok low := by
    have height : (c.advance 8).rest = digits₂ ++ rest := by
      have : c.rest.drop (6 + 2) = (c.rest.drop 6).drop 2 := List.drop_drop.symm
      rw [Cursor.rest_advance, this, ← Cursor.rest_advance, hsix]
      rfl
    rw [Cursor.rest_advance] at height
    rw [Cursor.advance, height]
    exact readUnit_append h₂
  have h1 : 0xd800 ≤ high ∧ high ≤ 0xdbff := ⟨hlo, hhi⟩
  have h2 : 0xdc00 ≤ low ∧ low ≤ 0xdfff := ⟨hlo', hhi'⟩
  rw [readNumericEscape, hread]
  simp only [h1, and_self, if_true]
  rw [readLowHalf, hsix]
  simp only [hread', h2, and_self, if_true, htwelve]

/-- **A spelling is read as its character**, unless it is refused. -/
theorem readElement_append {o : Options} {context : StringContext} (s : Spelling) {p : ℕ}
    {rest : List UInt8} :
    readElement o context ⟨p, s.text ++ rest⟩ =
      refuse o (s.constructs context.role p) (.ok (some s.char, ⟨p + s.text.length, rest⟩)) := by
  obtain ⟨text, char, h⟩ := s
  simp only [Spelling.constructs]
  cases h with
  | plain hc hmark hback =>
      obtain ⟨b, bytes, hb, h22, h5c, h20⟩ := head_encodeChar hc hmark hback
      have hnul : char ≠ '\x00' := by
        rintro rfl
        exact absurd hc (by decide)
      rw [if_neg hnul, refuse_nil, ← Utf8.encodeChar_eq_utf8EncodeChar]
      have hpeek : (⟨p, Utf8.encodeChar char ++ rest⟩ : Cursor).peek? = some b := by
        rw [hb, List.cons_append, Cursor.peek?_cons]
      rw [readElement, hpeek]
      simp only [h22, h5c, h20, if_false, Utf8.next?_encodeChar_append, Cursor.advance_append]
  | short hs =>
      rename_i letter
      have hesc := shortEscape?_eq_some_iff.2 hs
      rw [if_neg hs.ne_nul, refuse_nil]
      simp only [List.cons_append, List.nil_append, readElement, Cursor.peek?_cons, readEscape,
        Cursor.advance_one_cons, hesc]
      rfl
  | unit hu hs =>
      rename_i digits n
      have hzero : Char.ofNat n = '\x00' ↔ n = 0 := by
        rw [← Char.toNat_inj, toNat_ofNat_of_unit hu.lt hs]
        rfl
      simp only [hzero, List.length_cons, hu.length_eq]
      rw [List.cons_append, List.cons_append, readElement_numericEscape, ← List.cons_append,
        ← List.cons_append, readNumericEscape_unit hu hs]
      by_cases h0 : n = 0
      · cases hallow : o.allowNul <;>
          simp [h0, refuse, Construct.refusal?, hallow, Except.map]
      · simp [h0, Except.map]
  | pair hu hlo hhi hv hlo' hhi' =>
      rename_i digits₁ digits₂ high low
      have hnul := pairChar_ne_nul hlo hhi hlo' hhi'
      rw [pairChar] at hnul
      rw [if_neg hnul, refuse_nil]
      simp only [List.cons_append, readElement_numericEscape]
      have := readNumericEscape_pair o context.role p rest hu hlo hhi hv hlo' hhi'
      simp only [List.cons_append] at this
      simp only [this, Except.map, List.length_cons, List.length_append, hu.length_eq,
        hv.length_eq, pairChar]

/-- Bytes spell **one character** at most. -/
theorem Spells.unique {text : List UInt8} {c d : Char} (hc : Spells text c) (hd : Spells text d) :
    c = d := by
  have h₁ : readElement {} ⟨.value, 0⟩ ⟨0, text ++ []⟩ = _ := readElement_append ⟨text, c, hc⟩
  have h₂ : readElement {} ⟨.value, 0⟩ ⟨0, text ++ []⟩ = _ := readElement_append ⟨text, d, hd⟩
  have hpass : ∀ s : Spelling, ∀ construct ∈ s.constructs .value 0,
      construct.refusal? {} = none := by
    intro s construct hmem
    rw [Spelling.constructs] at hmem
    split_ifs at hmem
    · rw [List.mem_singleton.1 hmem]
      rfl
    · exact absurd hmem List.not_mem_nil
  rw [refuse_of_forall (hpass _)] at h₁ h₂
  have h := Except.ok.inj (h₁.symm.trans h₂)
  exact Option.some.inj (Prod.mk.inj h).1

/-- A spelling is the escape of four zeros exactly if its character has number zero. -/
theorem Spelling.char_eq_nul_iff (s : Spelling) : s.char = '\x00' ↔ s.text = nulEscape := by
  constructor
  · intro h
    exact spells_nul_iff.1 (h ▸ s.spells)
  · intro h
    exact s.spells.unique (spells_nul_iff.2 h)

/-! ### What is read is a spelling -/

/-- An escape of four digits that is read, or a pair of them, is a spelling. -/
theorem exists_of_readNumericEscape {o : Options} {role : Role} {c next : Cursor} {char : Char}
    {bytes : List UInt8} (hc : c.rest = 0x5c :: 0x75 :: bytes)
    (h : readNumericEscape o role c = .ok (char, next)) :
    ∃ s : Spelling, s.char = char ∧ c.rest = s.text ++ next.rest := by
  rw [readNumericEscape] at h
  split at h
  · simp at h
  · next unit hu =>
    obtain ⟨digits, hdigits, hrest⟩ := spellsUnit_of_readUnit hu
    have hsix : c.rest = 0x5c :: 0x75 :: digits ++ (c.advance 6).rest := by
      have : ((c.advance 2).advance 4).rest = (c.advance 6).rest := by
        simp only [Cursor.rest_advance, List.drop_drop]
      rw [← this, List.cons_append, List.cons_append, ← hrest, Cursor.rest_advance, hc]
      rfl
    split_ifs at h with hhigh hlow hzero
    · rw [readLowHalf] at h
      split at h
      · next bytes' hbytes' =>
        split at h
        · simp at h
        · next low hl =>
          split_ifs at h with hlow
          simp only [Except.ok.injEq, Prod.mk.injEq] at h
          obtain ⟨rfl, rfl⟩ := h
          obtain ⟨digits', hdigits', hrest'⟩ := spellsUnit_of_readUnit hl
          have hpair := Spells.pair hdigits hhigh.1 hhigh.2 hdigits' hlow.1 hlow.2
          rw [← pairChar.eq_1] at hpair
          generalize pairChar unit low = char at hpair
          refine ⟨⟨_, char, hpair⟩, rfl, ?_⟩
          have htwelve : (c.advance 6).rest = 0x5c :: 0x75 :: digits' ++ (c.advance 12).rest := by
            have h8 : ((c.advance 8).advance 4).rest = (c.advance 12).rest := by
              simp only [Cursor.rest_advance, List.drop_drop]
            have h6 : (c.advance 8).rest = bytes' := by
              have : (c.advance 8).rest = ((c.advance 6).advance 2).rest := by
                simp only [Cursor.rest_advance, List.drop_drop]
              rw [this, Cursor.rest_advance, hbytes']
              rfl
            rw [← h8, List.cons_append, List.cons_append, ← hrest', h6, hbytes']
          rw [hsix, htwelve]
          simp only [List.append_assoc, List.cons_append]
      · simp at h
    · simp only [Except.ok.injEq, Prod.mk.injEq] at h
      obtain ⟨rfl, rfl⟩ := h
      exact ⟨⟨_, _, .unit hdigits (by omega)⟩, rfl, hsix⟩

/-- **A character that is read is spelled** in front of what remains. -/
theorem exists_of_readElement {o : Options} {context : StringContext} {c next : Cursor}
    {char : Char} (h : readElement o context c = .ok (some char, next)) :
    ∃ s : Spelling, s.char = char ∧ c.rest = s.text ++ next.rest := by
  rw [readElement] at h
  split at h
  · simp at h
  · next b hb =>
    have hcons := Cursor.rest_eq_cons_of_peek? hb
    split_ifs at h with hmark hback hcontrol
    · simp at h
    · rw [readEscape] at h
      split at h
      · simp [Except.map] at h
      · next letter hletter =>
        have hcons' := Cursor.rest_eq_cons_of_peek? hletter
        have htwo : c.rest = 0x5c :: letter :: (c.advance 2).rest := by
          rw [hcons, hcons', hback]
          simp only [Cursor.rest_advance, List.drop_drop]
        split at h
        · next short hshort =>
          simp only [Except.map, Except.ok.injEq, Prod.mk.injEq, Option.some.injEq] at h
          obtain ⟨rfl, rfl⟩ := h
          exact ⟨⟨_, _, .short (shortEscape?_eq_some_iff.1 hshort)⟩, rfl, htwo⟩
        · split_ifs at h with hu
          · subst hu
            cases hr : readNumericEscape o context.role c with
            | error e => simp [hr, Except.map] at h
            | ok r =>
                simp only [hr, Except.map, Except.ok.injEq, Prod.mk.injEq, Option.some.injEq] at h
                obtain ⟨rfl, rfl⟩ := h
                exact exists_of_readNumericEscape htwo hr
          · simp [Except.map] at h
    · split at h
      · next plain n hn =>
        simp only [Except.ok.injEq, Prod.mk.injEq, Option.some.injEq] at h
        obtain ⟨hplain, rfl⟩ := h
        subst hplain
        obtain ⟨-, hbytes⟩ := Utf8.eq_encodeChar_append_of_next? hn
        have hhead : ∃ tail, Utf8.encodeChar plain = b :: tail := by
          obtain ⟨d, tail, hd⟩ := List.exists_cons_of_ne_nil (Utf8.encodeChar_ne_nil plain)
          rw [hd, hcons, List.cons_append, List.cons.injEq] at hbytes
          exact ⟨tail, hbytes.1 ▸ hd⟩
        obtain ⟨tail, htail⟩ := hhead
        obtain ⟨h1, h2, h3⟩ := plain_of_head htail hmark hback hcontrol
        refine ⟨⟨_, _, .plain h1 h2 h3⟩, rfl, ?_⟩
        rw [hbytes, Utf8.encodeChar_eq_utf8EncodeChar]
        rfl
      · simp at h

/-- No character is read at the closing quotation mark. -/
theorem rest_eq_of_readElement_none {o : Options} {context : StringContext} {c next : Cursor}
    (h : readElement o context c = .ok (none, next)) : c.rest = 0x22 :: next.rest := by
  rw [readElement] at h
  split at h
  · simp at h
  · next b hb =>
    split_ifs at h with hmark hback hcontrol
    · simp only [Except.ok.injEq, Prod.mk.injEq, true_and] at h
      rw [← h, Cursor.rest_eq_cons_of_peek? hb, hmark]
    · cases hr : readEscape o context c <;> simp [hr, Except.map] at h
    · split at h <;> simp at h

/-! ### Whole strings -/

/-- Elements are read one after the other. -/
theorem readElements_eq (o : Options) (context : StringContext) (c : Cursor) :
    readElements o context c =
      match readElement o context c with
      | .error e => .error e
      | .ok (none, next) => .ok ([], next)
      | .ok (some char, next) =>
        (readElements o context next).map fun (chars, final) => (char :: chars, final) := by
  rw [readElements]
  split
  · next e he => rw [he]
  · next next hn => rw [hn]
  · next char next hn =>
    simp only [hn]
    cases readElements o context next <;> rfl

/-- The closing quotation mark ends a string. -/
theorem readElements_mark {o : Options} {context : StringContext} {p : ℕ} {rest : List UInt8} :
    readElements o context ⟨p, 0x22 :: rest⟩ = .ok ([], ⟨p + 1, rest⟩) := by
  have h : readElement o context ⟨p, 0x22 :: rest⟩ = .ok (none, ⟨p + 1, rest⟩) := rfl
  rw [readElements_eq, h]

/-- A character goes before the ones that are read after it. -/
theorem readElements_of_readElement {o : Options} {context : StringContext} {c : Cursor}
    {constructs : List Construct} {char : Char} {next : Cursor}
    (h : readElement o context c = refuse o constructs (.ok (some char, next))) :
    readElements o context c = refuse o constructs
      ((readElements o context next).map fun (chars, final) => (char :: chars, final)) := by
  rw [readElements_eq, h]
  obtain ⟨f, hf⟩ | hnone := refuse_cases o constructs
  · rw [hf, hf]
  · rw [hnone, hnone]

/-- Spellings up to the closing quotation mark are read as their characters. -/
theorem readElements_append {o : Options} {context : StringContext} {rest : List UInt8}
    (ss : List Spelling) (p : ℕ) :
    readElements o context ⟨p, spelledText ss ++ 0x22 :: rest⟩ =
      refuse o (spelledConstructs context.role p ss)
        (.ok (ss.map Spelling.char, ⟨p + (spelledText ss).length + 1, rest⟩)) := by
  induction ss generalizing p with
  | nil => exact readElements_mark
  | cons s ss ih =>
      rw [spelledText, List.flatMap_cons, List.append_assoc,
        readElements_of_readElement (readElement_append s), ← spelledText, ih, spelledConstructs,
        refuse_append, List.length_append, ← Nat.add_assoc, List.map_cons]
      obtain ⟨f, hf⟩ | hnone :=
        refuse_cases o (spelledConstructs context.role (p + s.text.length) ss)
      · rw [hf, hf, Except.map]
      · rw [hnone, hnone, Except.map]

/-- The bytes of a **string token**: spellings between quotation marks. -/
def quotedText (ss : List Spelling) : List UInt8 :=
  0x22 :: spelledText ss ++ [0x22]

/-- The constructs of a string token that begins at the byte `p`. -/
def quotedConstructs (role : Role) (p : ℕ) (ss : List Spelling) : List Construct :=
  spelledConstructs role (p + 1) ss

/-- **A string token is read as its string**, unless one of its characters is refused. -/
theorem readString_append {o : Options} {role : Role} {rest : List UInt8} (ss : List Spelling)
    (p : ℕ) :
    readString o role ⟨p, quotedText ss ++ rest⟩ =
      refuse o (quotedConstructs role p ss)
        (.ok (spelledString ss, ⟨p + (quotedText ss).length, rest⟩)) := by
  have hread : readElements o ⟨role, p⟩ ⟨p + 1, spelledText ss ++ 0x22 :: rest⟩ = _ :=
    readElements_append ss (p + 1)
  have hlen : p + 1 + (spelledText ss).length + 1 = p + (quotedText ss).length := by
    rw [quotedText, List.length_append, List.length_cons, List.length_singleton]
    omega
  rw [hlen] at hread
  rw [readString, quotedText, List.append_assoc, List.cons_append, List.singleton_append,
    Cursor.advance_one_cons, hread, ← quotedText, quotedConstructs]
  obtain ⟨f, hf⟩ | hnone := refuse_cases o (spelledConstructs role (p + 1) ss)
  · rw [hf, hf]
  · rw [hnone, hnone]
    rfl

/-- A string without the character of number zero has no construct that could be refused. -/
theorem quotedConstructs_of_nulFree {role : Role} {ss : List Spelling} {p : ℕ}
    (h : '\x00' ∉ (spelledString ss).toList) : quotedConstructs role p ss = [] := by
  rw [quotedConstructs, spelledConstructs_eq_nil_iff]
  rintro s hs hnul
  refine h ?_
  rw [spelledString, String.toList_ofList, ← hnul]
  exact List.mem_map_of_mem hs

/-- If no construct of a string is refused, then the string has the character of number zero only
where that is allowed. -/
theorem nulFree_of_refuse {o : Options} {role : Role} {ss : List Spelling} {p : ℕ}
    (h : ∀ c ∈ quotedConstructs role p ss, c.refusal? o = none) (ho : o.allowNul = false) :
    '\x00' ∉ (spelledString ss).toList := by
  have hnil : quotedConstructs role p ss = [] := by
    refine List.eq_nil_iff_forall_not_mem.2 fun construct hmem => ?_
    obtain ⟨q, rfl, -⟩ := of_mem_spelledConstructs hmem
    have := h _ hmem
    rw [Construct.refusal?, ho] at this
    exact absurd this (by simp)
  rw [quotedConstructs, spelledConstructs_eq_nil_iff] at hnil
  rw [spelledString, String.toList_ofList, List.mem_map]
  rintro ⟨s, hs, hnul⟩
  exact hnil s hs hnul

/-- Characters that are read up to the closing quotation mark are spelled in front of it. -/
theorem exists_of_readElements {o : Options} {context : StringContext} {c next : Cursor}
    {chars : List Char} (h : readElements o context c = .ok (chars, next)) :
    ∃ ss : List Spelling, ss.map Spelling.char = chars ∧
      c.rest = spelledText ss ++ 0x22 :: next.rest := by
  fun_induction readElements o context c generalizing chars next with
  | case1 => simp at h
  | case2 c next' hnext =>
      simp only [Except.ok.injEq, Prod.mk.injEq] at h
      obtain ⟨rfl, rfl⟩ := h
      exact ⟨[], rfl, rest_eq_of_readElement_none hnext⟩
  | case3 => simp at h
  | case4 c char next' hnext chars' final hfinal ih =>
      simp only [Except.ok.injEq, Prod.mk.injEq] at h
      obtain ⟨rfl, rfl⟩ := h
      obtain ⟨ss, rfl, hrest⟩ := ih hfinal
      obtain ⟨s, rfl, hs⟩ := exists_of_readElement hnext
      refine ⟨s :: ss, rfl, ?_⟩
      rw [hs, hrest, spelledText, spelledText, List.flatMap_cons, List.append_assoc]

/-- **A string that is read is a token** in front of what remains. -/
theorem exists_of_readString {o : Options} {role : Role} {c next : Cursor} {s : String}
    (hc : c.peek? = some 0x22) (h : readString o role c = .ok (s, next)) :
    ∃ ss, spelledString ss = s ∧ c.rest = quotedText ss ++ next.rest := by
  rw [readString] at h
  split at h
  · simp at h
  · next chars final hread =>
    simp only [Except.ok.injEq, Prod.mk.injEq] at h
    obtain ⟨rfl, rfl⟩ := h
    obtain ⟨ss, rfl, hrest⟩ := exists_of_readElements hread
    refine ⟨ss, rfl, ?_⟩
    rw [Cursor.rest_eq_cons_of_peek? hc, hrest, quotedText]
    simp only [List.cons_append, List.append_assoc, List.nil_append]

end StrictJson.Syntax
