import StrictJson.Proofs.Syntax.Acceptance
import StrictJson.Proofs.Syntax.Hindrance
import StrictJson.Proofs.Syntax.Reach
import StrictJson.Proofs.Utf8.Boundary

/-!
# Where Errors Lie

The input can be cut at the offset of an error. Whatever the reader takes is made of whole
characters: all bytes of a token are ASCII, but for the characters that stand as they are in a
string. So every cursor that it gets to lies on a boundary. A reader that fails may have looked
past a boundary, into the middle of a character, but what it reports is a cursor that it got to
before.

## Main definitions

* `Cursor.Passes`: to get from a cursor to another one past whole characters.
* `Cursor.Reports`: to report a place that lies behind whole characters.

## Main results

* `Reaches.passes`: the reader gets to its states past whole characters.
* `reports_of_step`: what a step reports lies behind whole characters.
* `parse_boundary`: an accepted input is well-formed, and an error lies on a boundary.
-/

namespace StrictJson.Syntax

variable {o : Options} {c next last : Cursor}

/-! ### Tokens -/

/-- White space is ASCII. -/
theorem Space.isValid_text (space : Space) : Utf8.isValid space.text = true := by
  refine Utf8.isValid_of_forall_lt fun b hb => ?_
  have hspace := space.isSpace b hb
  simp only [Syntax.isSpace, Bool.or_eq_true, beq_iff_eq] at hspace
  rcases hspace with ((rfl | rfl) | rfl) | rfl <;> decide

/-- Words are ASCII. -/
theorem Word.isValid_text (w : Word) : Utf8.isValid w.text = Bool.true := by
  cases w <;> simp [text, Utf8.isValid_cons_of_lt]

/-- Numbers are ASCII. -/
theorem NumberToken.isValid_text (n : NumberToken) : Utf8.isValid n.text = true :=
  Utf8.isValid_of_forall_lt fun _ hb => n.wellFormed.lt_of_mem_text hb

/-- Hexadecimal digits are ASCII. -/
theorem SpellsUnit.lt_of_mem {digits : List UInt8} {n : ℕ} (h : SpellsUnit digits n) :
    ∀ b ∈ digits, b.toNat < 0x80 := by
  have hdigit : ∀ {b : UInt8} {m : ℕ}, Hex.digitValue? b = some m → b.toNat < 0x80 := by
    intro b m hm
    simp only [Hex.digitValue?, UInt8.le_iff_toNat_le, UInt8.reduceToNat] at hm
    split_ifs at hm <;> omega
  obtain ⟨ha, hb, hc, hd⟩ := h
  simp [hdigit ha, hdigit hb, hdigit hc, hdigit hd]

/-- An escape of four digits is ASCII. -/
theorem SpellsUnit.isValid_escape {digits : List UInt8} {n : ℕ} (h : SpellsUnit digits n) :
    Utf8.isValid (0x5c :: 0x75 :: digits) = true := by
  rw [Utf8.isValid_cons_of_lt (by decide), Utf8.isValid_cons_of_lt (by decide),
    Utf8.isValid_of_forall_lt h.lt_of_mem]

/-- A spelling is a whole character or an escape. -/
theorem Spelling.isValid_text (s : Spelling) : Utf8.isValid s.text = true := by
  obtain ⟨text, char, h⟩ := s
  cases h with
  | plain =>
      refine Utf8.isValid_iff.2 ⟨[char], ?_⟩
      rw [Utf8.encodeChars_cons, Utf8.encodeChar_eq_utf8EncodeChar]
      exact List.append_nil _
  | short hs => cases hs <;> simp [Utf8.isValid_cons_of_lt]
  | unit hu => exact hu.isValid_escape
  | pair hu _ _ hv => exact Utf8.isValid_append_of hu.isValid_escape hv.isValid_escape

/-- Spellings are whole characters. -/
theorem isValid_spelledText (ss : List Spelling) : Utf8.isValid (spelledText ss) = true := by
  induction ss with
  | nil => exact Utf8.isValid_nil
  | cons s ss ih => exact Utf8.isValid_append_of s.isValid_text ih

/-- A string token is made of whole characters. -/
theorem isValid_quotedText (ss : List Spelling) : Utf8.isValid (quotedText ss) = true := by
  rw [quotedText, List.cons_append, Utf8.isValid_cons_of_lt (by decide),
    Utf8.isValid_append (isValid_spelledText ss), Utf8.isValid_cons_of_lt (by decide),
    Utf8.isValid_nil]

/-- **What a move takes is made of whole characters.** -/
theorem Move.isValid_text {stack stack' : List Frame} {goal goal' : Goal} {text : List UInt8}
    {stops : UInt8 → Bool} (h : Move o stack goal text stops stack' goal') :
    Utf8.isValid text = true := by
  cases h with
  | word w => exact w.isValid_text
  | number n => exact n.isValid_text
  | string ss => exact isValid_quotedText ss
  | emptyArray space | emptyObject space =>
      rw [Utf8.isValid_cons_of_lt (by decide), Utf8.isValid_append space.isValid_text,
        Utf8.isValid_cons_of_lt (by decide), Utf8.isValid_nil]
  | openArray space | openObject space =>
      rw [Utf8.isValid_cons_of_lt (by decide), space.isValid_text]
  | key ss after =>
      rw [Utf8.isValid_append (isValid_quotedText ss), Utf8.isValid_append after.isValid_text,
        Utf8.isValid_cons_of_lt (by decide), Utf8.isValid_nil]
  | nextItem | closeArray | nextMember | closeObject =>
      rw [Utf8.isValid_cons_of_lt (by decide), Utf8.isValid_nil]

/-! ### Cursors -/

/-- A reader **passes** from a cursor to another one if whole characters lie between them. -/
def Cursor.Passes (c next : Cursor) : Prop :=
  ∃ text, c.Between text next ∧ Utf8.isValid text = true

/-- A failure is **reported behind** a cursor if a reader could have passed from there to its
offset. -/
def Cursor.Reports (c : Cursor) (f : Failure) : Prop :=
  ∃ place, c.Passes place ∧ f.offset = place.position

theorem Cursor.Passes.refl (c : Cursor) : c.Passes c :=
  ⟨[], .refl c, Utf8.isValid_nil⟩

theorem Cursor.Passes.trans (h : c.Passes next) (h' : next.Passes last) : c.Passes last := by
  obtain ⟨text, hbetween, hvalid⟩ := h
  obtain ⟨more, hbetween', hvalid'⟩ := h'
  exact ⟨text ++ more, hbetween.trans hbetween', Utf8.isValid_append_of hvalid hvalid'⟩

/-- What is reported behind a cursor is reported behind all before it. -/
theorem Cursor.Passes.reports {f : Failure} (h : c.Passes next) (hf : next.Reports f) :
    c.Reports f := by
  obtain ⟨place, hpass, hoffset⟩ := hf
  exact ⟨place, h.trans hpass, hoffset⟩

/-- A failure at the cursor is reported behind it. -/
theorem Cursor.reports_of_offset {f : Failure} (h : f.offset = c.position) : c.Reports f :=
  ⟨c, .refl c, h⟩

/-- A reader that fails at the cursor reports it. -/
theorem Cursor.reports_of_error {α : Type} {f g : Failure}
    (h : (.error g : Except Failure α) = .error f) (hg : g.offset = c.position) : c.Reports f :=
  reports_of_offset (Except.error.inj h ▸ hg)

/-- White space is passed. -/
theorem Cursor.passes_skipSpace (c : Cursor) : c.Passes c.skipSpace := by
  obtain ⟨space, hrest, hposition, -⟩ := exists_space c
  exact ⟨space.text, ⟨hrest, hposition⟩, space.isValid_text⟩

/-! ### Strings that fail -/

/-- Four digits fail where they begin. -/
theorem offset_of_readUnit {f : Failure} (h : readUnit c = .error f) : f.offset = c.position := by
  simp only [readUnit] at h
  split_ifs at h
  · rw [← Except.error.inj h]
  · split at h
    · simp at h
    · rw [← Except.error.inj h]

/-- The second half of a pair fails at the first one, or behind the backslash and the letter of its
own. -/
theorem reports_of_readLowHalf {digits : List UInt8} {n high : ℕ} {f : Failure}
    (hdigits : SpellsUnit digits n)
    (hc : c.Between (0x5c :: 0x75 :: digits) (c.advance 6)) (h : readLowHalf high c = .error f) :
    c.Reports f := by
  rw [readLowHalf] at h
  split at h
  · next more hmore =>
    have hdrop : (c.advance 8).rest = more := by
      have hadvance : c.advance 8 = (c.advance 6).advance 2 := (c.advance_advance 6 2).symm
      rw [hadvance, Cursor.rest_advance, hmore]
      rfl
    have hnext : (c.advance 6).Between [0x5c, 0x75] (c.advance 8) :=
      ⟨by rw [hmore, hdrop]; rfl, rfl⟩
    have hpass : c.Passes (c.advance 8) := by
      refine ⟨_, hc.trans hnext, Utf8.isValid_append_of hdigits.isValid_escape ?_⟩
      simp [Utf8.isValid_cons_of_lt]
    split at h
    · next g hg =>
      obtain rfl := Except.error.inj h
      exact hpass.reports (Cursor.reports_of_offset (offset_of_readUnit hg))
    · split_ifs at h
      exact Cursor.reports_of_error h rfl
  · exact Cursor.reports_of_error h rfl

/-- An escape of four digits fails at its backslash, or where digits begin. -/
theorem reports_of_readNumericEscape {role : Role} {bytes : List UInt8} {f : Failure}
    (hc : c.rest = 0x5c :: 0x75 :: bytes) (h : readNumericEscape o role c = .error f) :
    c.Reports f := by
  have htwo : c.Between [0x5c, 0x75] (c.advance 2) := by
    refine ⟨?_, rfl⟩
    rw [Cursor.rest_advance, hc]
    rfl
  rw [readNumericEscape] at h
  split at h
  · next g hg =>
    obtain rfl := Except.error.inj h
    have hpass : c.Passes (c.advance 2) := ⟨_, htwo, by simp [Utf8.isValid_cons_of_lt]⟩
    exact hpass.reports (Cursor.reports_of_offset (offset_of_readUnit hg))
  · next unit hunit =>
    obtain ⟨digits, hdigits, hrest⟩ := spellsUnit_of_readUnit hunit
    rw [Cursor.advance_advance] at hrest
    have hsix : (c.advance 2).Between digits (c.advance 6) :=
      ⟨hrest, by rw [hdigits.length_eq]; rfl⟩
    split_ifs at h
    · exact reports_of_readLowHalf hdigits (htwo.trans hsix) h
    · exact Cursor.reports_of_error h rfl
    · exact Cursor.reports_of_error h rfl

/-- An escape fails behind its backslash, or the string has no end. -/
theorem reports_of_readEscape {context : StringContext} {f : Failure} (hc : c.peek? = some 0x5c)
    (h : readEscape o context c = .error f) : f.offset = context.start ∨ c.Reports f := by
  rw [readEscape] at h
  split at h
  · rw [← Except.error.inj h]
    exact .inl rfl
  · next letter hletter =>
    right
    split at h
    · simp at h
    · split_ifs at h with hu
      · have hcons := Cursor.rest_eq_cons_of_peek? hc
        rw [Cursor.rest_eq_cons_of_peek? hletter, hu] at hcons
        exact reports_of_readNumericEscape hcons h
      · exact Cursor.reports_of_error h rfl

/-- An element fails behind the cursor, or the string has no end. -/
theorem reports_of_readElement {context : StringContext} {f : Failure}
    (h : readElement o context c = .error f) : f.offset = context.start ∨ c.Reports f := by
  rw [readElement] at h
  split at h
  · rw [← Except.error.inj h]
    exact .inl rfl
  · next b hb =>
    split_ifs at h with hmark hback hcontrol
    · cases hescape : readEscape o context c with
      | ok r => simp [hescape, Except.map] at h
      | error g =>
          rw [hescape] at h
          obtain rfl := Except.error.inj h
          exact reports_of_readEscape (hback ▸ hb) hescape
    · exact .inr (Cursor.reports_of_error h rfl)
    · split at h
      · simp at h
      · exact .inr (Cursor.reports_of_error h rfl)

/-- Elements fail behind the cursor, or the string has no end. -/
theorem reports_of_readElements {context : StringContext} {f : Failure}
    (h : readElements o context c = .error f) : f.offset = context.start ∨ c.Reports f := by
  fun_induction readElements o context c with
  | case1 c g hg =>
      obtain rfl := Except.error.inj h
      exact reports_of_readElement hg
  | case2 c next hnext => simp at h
  | case3 c char next hnext g hg ih =>
      obtain rfl := Except.error.inj h
      obtain ⟨s, hs, -⟩ := exists_between_of_readElement hnext
      exact (ih hg).imp_right (Cursor.Passes.reports ⟨s.text, hs, s.isValid_text⟩)
  | case4 c char next hnext chars final hfinal ih => simp at h

/-- A string fails behind its opening quotation mark or there. -/
theorem reports_of_readString {role : Role} {f : Failure} (hc : c.peek? = some 0x22)
    (h : readString o role c = .error f) : c.Reports f := by
  rw [readString] at h
  split at h
  · next g hg =>
    obtain rfl := Except.error.inj h
    have hpass : c.Passes (c.advance 1) :=
      ⟨_, Cursor.between_of_peek? hc, by simp [Utf8.isValid_cons_of_lt]⟩
    rcases reports_of_readElements hg with hstart | hreports
    · exact Cursor.reports_of_offset hstart
    · exact hpass.reports hreports
  · simp at h

/-! ### Steps -/

section

variable {stack : List Frame} {f : Failure}

/-- A bracket fails where it stands. -/
theorem offset_of_checkDepth (h : checkDepth o stack c = .error f) : f.offset = c.position := by
  rw [checkDepth] at h
  split_ifs at h
  rw [← Except.error.inj h]

theorem offset_of_openArray (h : openArray o stack c = .error f) : f.offset = c.position := by
  rw [openArray] at h
  split at h
  · next g hg => exact offset_of_checkDepth (Except.error.inj h ▸ hg)
  · simp only at h
    split at h <;> simp at h

theorem offset_of_openObject (h : openObject o stack c = .error f) : f.offset = c.position := by
  rw [openObject] at h
  split at h
  · next g hg => exact offset_of_checkDepth (Except.error.inj h ▸ hg)
  · simp only at h
    split at h <;> simp at h

/-- A word fails where it begins. -/
theorem offset_of_readWord (h : readWord c = .error f) : f.offset = c.position := by
  simp only [readWord] at h
  split at h
  · simp at h
  · rw [← Except.error.inj h]

/-- A number fails where it begins. -/
theorem offset_of_readNumber (h : readNumber c = .error f) : f.offset = c.position := by
  rw [readNumber] at h
  split at h
  · rw [← Except.error.inj h]
  · split at h
    · simp at h
    · rw [← Except.error.inj h]

/-- What a value fails for is reported behind the cursor. -/
theorem reports_of_startValue (h : startValue o stack c = .error f) : c.Reports f := by
  rw [startValue] at h
  split at h
  · exact Cursor.reports_of_error h rfl
  · next b hb =>
    split_ifs at h with hbrace hbracket hmark hletter hdigit
    · exact Cursor.reports_of_offset (offset_of_openObject h)
    · exact Cursor.reports_of_offset (offset_of_openArray h)
    · have hread := eq_error_of_scalarRead h
      cases hs : readString o .value c with
      | ok r => simp [hs, Except.map] at hread
      | error g =>
          rw [hs] at hread
          obtain rfl := Except.error.inj hread
          exact reports_of_readString (hmark ▸ hb) hs
    · exact Cursor.reports_of_offset (offset_of_readWord (eq_error_of_scalarRead h))
    · exact Cursor.reports_of_offset (offset_of_readNumber (eq_error_of_scalarRead h))
    · exact Cursor.reports_of_error h rfl

/-- What a key fails for is reported behind the cursor. A missing colon is reported where it should
stand, past the key and white space. -/
theorem reports_of_readKey {members : List (String × Value)}
    (h : readKey o stack members c = .error f) : c.Reports f := by
  rw [readKey] at h
  split_ifs at h with hmark
  · split at h
    · next g hs =>
      obtain rfl := Except.error.inj h
      exact reports_of_readString hmark hs
    · next key next hs =>
      obtain ⟨ss, -, -, hrest, hposition⟩ := exists_admits_of_readString hmark hs
      have hkey : c.Passes next := ⟨_, ⟨hrest, hposition⟩, isValid_quotedText ss⟩
      simp only at h
      split_ifs at h
      · exact Cursor.reports_of_error h rfl
      · exact (hkey.trans next.passes_skipSpace).reports (Cursor.reports_of_error h rfl)
  · exact Cursor.reports_of_error h rfl

/-- What follows a value fails where it stands. -/
theorem offset_of_finishValue {v : Value} (h : finishValue stack v c = .error f) :
    f.offset = c.position := by
  rw [finishValue.eq_def] at h
  split at h
  · split at h
    · simp at h
    · rw [← Except.error.inj h]
  · split_ifs at h
    rw [← Except.error.inj h]
    rfl
  · simp only at h
    split_ifs at h
    rw [← Except.error.inj h]
    rfl

/-- **What a step fails for is reported behind its cursor.** -/
theorem reports_of_step {s : State} (h : step o s = .error f) : s.cursor.Reports f := by
  rw [step] at h
  refine s.cursor.passes_skipSpace.reports ?_
  split at h
  · exact reports_of_startValue h
  · exact reports_of_readKey h
  · exact Cursor.reports_of_offset (offset_of_finishValue h)

/-- A step passes whole characters. -/
theorem Steps.passes {s next : State} (h : Steps o s next) : s.cursor.Passes next.cursor := by
  obtain ⟨space, token, stops, hmove, -, hbetween⟩ := h.exists_move
  exact ⟨_, hbetween, Utf8.isValid_append_of space.isValid_text hmove.isValid_text⟩

/-! ### Runs -/

/-- **The reader gets to its states past whole characters.** -/
theorem Reaches.passes {s last : State} (h : Reaches o s last) : s.cursor.Passes last.cursor := by
  induction h with
  | refl => exact .refl _
  | tail _ hnext ih => exact ih.trans hnext.passes

/-- What a run fails for is reported behind the cursor where it begins. -/
theorem reports_of_run {s : State} (h : run o s = .error f) : s.cursor.Reports f := by
  obtain ⟨last, hreaches, hlast⟩ := exists_reaches o s
  rw [h] at hlast
  exact hreaches.passes.reports (reports_of_step hlast)

/-- What a run reads to its end is well-formed. -/
theorem isValid_of_run {s : State} {v : Value} (h : run o s = .ok v) :
    Utf8.isValid s.cursor.rest = true := by
  obtain ⟨last, hreaches, hlast⟩ := exists_reaches o s
  obtain ⟨text, hbetween, hvalid⟩ := hreaches.passes
  rw [h] at hlast
  obtain ⟨-, -, space, hspace⟩ := exists_space_of_done hlast
  rw [hbetween.rest_eq, hspace]
  exact Utf8.isValid_append_of hvalid space.isValid_text

end

/-! ### Documents -/

/-- **The input can be cut where an error lies.**

An accepted input is well-formed. An error has an offset within the input, and what lies before it
is well-formed. So if the input is a text then the offset is the place between two characters or an
end of it, and otherwise it is not behind the longest text that the input begins with. -/
theorem parse_boundary (o : Options) (input : List UInt8) :
    (∀ v, parse o input = .ok v → Utf8.isValid input = true) ∧
    (∀ f, parse o input = .error f → ∃ k, f.toError.offset = some k ∧ k ≤ input.length ∧
      Utf8.isValid (input.take k) = true ∧
      (∀ text, Utf8.ofString text = input →
        ∃ before after, before ++ after = text ∧ (Utf8.ofString before).length = k) ∧
      ∃ front, Utf8.IsLongestText front input ∧ k ≤ front.length) := by
  refine ⟨fun v h => isValid_of_run h, fun f h => ?_⟩
  obtain ⟨place, ⟨text, ⟨hrest, hposition⟩, hvalid⟩, hoffset⟩ := reports_of_run h
  have hinput : input = text ++ place.rest := hrest
  have hplace : f.offset = text.length := by
    rw [hoffset, hposition]
    exact Nat.zero_add _
  have hboundary : Utf8.IsBoundary input f.offset := by
    refine ⟨?_, ?_⟩
    · rw [hplace, hinput, List.length_append]
      exact Nat.le_add_right _ _
    · rw [hplace, hinput, List.take_left, hvalid]
  obtain ⟨front, hfront⟩ := Utf8.exists_isLongestText input
  refine ⟨f.offset, rfl, hboundary.le_length, hboundary.isValid_take, ?_, front, hfront,
    hfront.le_length hboundary⟩
  rintro source rfl
  exact Utf8.isBoundary_ofString_iff.1 hboundary

/-- In the text `"é\é"` the escape fails for the first byte of a character, and the backslash before
it is reported. The text `"é"` is accepted. -/
theorem parse_boundary_accent :
    (∃ f k, parse {} (Utf8.ofString "\"é\\é\"") = .error f ∧ f.toError.offset = some k ∧
      ∃ before after, before ++ after = "\"é\\é\"" ∧ (Utf8.ofString before).length = k) ∧
    Utf8.isValid (Utf8.ofString "\"é\"") = true := by
  have hfirst : ∀ rest, readElement {} ⟨.value, 0⟩ ⟨1, 0xc3 :: 0xa9 :: rest⟩ =
      .ok (some 'é', ⟨3, rest⟩) := fun _ => rfl
  have hfails : parse {} (Utf8.ofString "\"é\\é\"") = .error ⟨.unknownEscape 0xc3, 3⟩ := by
    have hstep : step {} (.initial (Utf8.ofString "\"é\\é\"")) = scalarRead []
        ((readString {} .value ⟨0, [0x22, 0xc3, 0xa9, 0x5c, 0xc3, 0xa9, 0x22]⟩).map
          fun r => (.string r.1, r.2)) := rfl
    have hsecond : readElement {} ⟨.value, 0⟩ ⟨3, [0x5c, 0xc3, 0xa9, 0x22]⟩ =
      .error ⟨.unknownEscape 0xc3, 3⟩ := rfl
    rw [parse, run_eq, hstep, readString, Cursor.advance_one_cons, readElements_eq, hfirst]
    simp only [readElements_eq, hsecond]
    rfl
  have hreads : parse {} (Utf8.ofString "\"é\"") = .ok (.string "é") := by
    have hstep : step {} (.initial (Utf8.ofString "\"é\"")) = scalarRead []
        ((readString {} .value ⟨0, [0x22, 0xc3, 0xa9, 0x22]⟩).map
          fun r => (.string r.1, r.2)) := rfl
    rw [parse, run_eq, hstep, readString, Cursor.advance_one_cons, readElements_eq, hfirst]
    simp only [readElements_mark]
    exact run_of_done rfl
  obtain ⟨k, hk, -, -, hboundary, -⟩ := (parse_boundary {} _).2 _ hfails
  exact ⟨⟨_, k, hfails, hk, hboundary _ rfl⟩, (parse_boundary {} _).1 _ hreads⟩

end StrictJson.Syntax
