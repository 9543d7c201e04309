import StrictJson.Proofs.Syntax.Reading

/-!
# Moves

What a step of the reader can do, said once for all steps that go on. A **move** takes one token off
the input, and with it the containers that are open and the goal become others. It knows nothing of
positions, and of what follows the token only which bytes would have gone on with it.

A step that goes on is a move past some white space, so the same step is made whatever else follows
the token, as long as it does not go on with it. That is enough to change what lies behind the place
where a run fails and still know how the reader gets there.

## Main definitions

* `Move`, `Moves`: one step that goes on.
* `Goal.Admits`, `Goal.Replaces`: bytes that can stand at the place of others.

## Main results

* `step_eq_more_iff`: the steps that go on are the moves.
* `Move.stops_of_replaces`: what may stand behind a move.
-/

namespace StrictJson.Syntax

variable {o : Options}

/-! ### Strings that pass -/

/-- The options **admit** a string: it is free of the character of number zero, or that is
allowed. -/
def Options.AdmitsText (o : Options) (s : String) : Prop :=
  o.allowNul = false → '\x00' ∉ s.toList

/-- A string that is admitted is read. -/
theorem readString_of_admits {role : Role} {ss : List Spelling}
    (h : o.AdmitsText (spelledString ss)) (p : ℕ) (rest : List UInt8) :
    readString o role ⟨p, quotedText ss ++ rest⟩ =
      .ok (spelledString ss, ⟨p + (quotedText ss).length, rest⟩) := by
  rw [readString_append]
  refine refuse_of_forall fun construct hmem => ?_
  cases hallow : o.allowNul with
  | true =>
      obtain ⟨q, rfl, -⟩ := of_mem_spelledConstructs hmem
      rw [Construct.refusal?, if_pos hallow]
  | false =>
      rw [quotedConstructs_of_nulFree (h hallow)] at hmem
      exact absurd hmem List.not_mem_nil

/-- A string that is read is admitted, and its token stands in front of what remains. -/
theorem exists_admits_of_readString {role : Role} {c next : Cursor} {s : String}
    (hc : c.peek? = some 0x22) (h : readString o role c = .ok (s, next)) :
    ∃ ss, spelledString ss = s ∧ o.AdmitsText s ∧ c.rest = quotedText ss ++ next.rest ∧
      next.position = c.position + (quotedText ss).length := by
  obtain ⟨ss, rfl, hrest⟩ := exists_of_readString hc h
  have hread : readString o role ⟨c.position, quotedText ss ++ next.rest⟩ = _ :=
    readString_append ss c.position
  rw [← hrest, h] at hread
  obtain ⟨f, hf⟩ | hpass := refuse_cases o (quotedConstructs role c.position ss)
  · rw [hf] at hread
    exact absurd hread (by simp)
  · have hadmits := nulFree_of_refuse (refuse_eq_ok_iff.1 (hpass (.ok ())))
    rw [hpass] at hread
    obtain ⟨-, hnext⟩ := Prod.mk.inj (Except.ok.inj hread)
    exact ⟨ss, rfl, hadmits, hrest, congrArg Cursor.position hnext⟩

/-! ### Moves -/

/-- No byte. Tokens with an end of their own are gone on with by none. -/
def noByte : UInt8 → Bool := fun _ => false

/-- White space, or the bracket that closes what has just been opened. -/
def isSpaceOr (bracket b : UInt8) : Bool :=
  isSpace b || b == bracket

theorem isSpaceOr_eq_false_iff {bracket b : UInt8} :
    isSpaceOr bracket b = false ↔ isSpace b = false ∧ b ≠ bracket := by
  rw [isSpaceOr, Bool.or_eq_false_iff, beq_eq_false_iff_ne]

/-- The **moves** of the reader: a token, the bytes that would go on with it, and what is open and
wanted before and after it. -/
inductive Move (o : Options) :
    List Frame → Goal → List UInt8 → (UInt8 → Bool) → List Frame → Goal → Prop
  | word {stack : List Frame} (w : Word) :
      Move o stack .value w.text isLetter stack (.after w.value)
  | number {stack : List Frame} (n : NumberToken) :
      Move o stack .value n.text n.numeral.continues stack (.after n.value)
  | string {stack : List Frame} (ss : List Spelling) : o.AdmitsText (spelledString ss) →
      Move o stack .value (quotedText ss) noByte stack (.after (.string (spelledString ss)))
  | emptyArray {stack : List Frame} (space : Space) : stack.length < o.maxDepth →
      Move o stack .value (0x5b :: (space.text ++ [0x5d])) noByte stack (.after (.array []))
  /-- An array with items. White space before the first one belongs to the move. -/
  | openArray {stack : List Frame} (space : Space) : stack.length < o.maxDepth →
      Move o stack .value (0x5b :: space.text) (isSpaceOr 0x5d)
        (.array [] :: stack) .value
  | emptyObject {stack : List Frame} (space : Space) : stack.length < o.maxDepth →
      Move o stack .value (0x7b :: (space.text ++ [0x7d])) noByte stack (.after (.object []))
  /-- An object with members. White space before the first one belongs to the move. -/
  | openObject {stack : List Frame} (space : Space) : stack.length < o.maxDepth →
      Move o stack .value (0x7b :: space.text) (isSpaceOr 0x7d) stack (.key [])
  /-- A key that is no refused repetition, and the colon after it. -/
  | key {stack : List Frame} {members : List (String × Value)} (ss : List Spelling)
      (after : Space) : o.AdmitsText (spelledString ss) →
      ¬ (o.rejectDuplicates = true ∧ Members.contains (spelledString ss) members = true) →
      Move o stack (.key members) (quotedText ss ++ (after.text ++ [0x3a])) noByte
        (.object members (spelledString ss) :: stack) .value
  | nextItem {items : List Value} {outer : List Frame} {v : Value} :
      Move o (.array items :: outer) (.after v) [0x2c] noByte (.array (v :: items) :: outer) .value
  | closeArray {items : List Value} {outer : List Frame} {v : Value} :
      Move o (.array items :: outer) (.after v) [0x5d] noByte outer
        (.after (.array (v :: items).reverse))
  | nextMember {members : List (String × Value)} {key : String} {outer : List Frame} {v : Value} :
      Move o (.object members key :: outer) (.after v) [0x2c] noByte outer
        (.key (Members.insert key v members))
  | closeObject {members : List (String × Value)} {key : String} {outer : List Frame}
      {v : Value} :
      Move o (.object members key :: outer) (.after v) [0x7d] noByte outer
        (.after (.object (Members.insert key v members)))

section

variable {stack stack' : List Frame} {goal goal' : Goal} {text : List UInt8} {stops : UInt8 → Bool}
  {p : ℕ} {rest : List UInt8}

/-- A move takes at least one byte. -/
theorem Move.ne_nil (h : Move o stack goal text stops stack' goal') : text ≠ [] := by
  cases h with
  | word w => cases w <;> exact List.cons_ne_nil _ _
  | number n =>
      obtain ⟨b, bytes, htext, -⟩ := n.exists_head
      exact htext ▸ List.cons_ne_nil b bytes
  | _ => exact List.cons_ne_nil _ _

/-- A container is opened where the options allow it. -/
theorem refuse_bracket {α : Type} {r : Except Failure α} (h : stack.length < o.maxDepth) :
    refuse o [.bracket stack.length p] r = r := by
  refine refuse_of_forall fun construct hmem => ?_
  rw [List.mem_singleton.1 hmem, Construct.refusal?, if_pos h]

/-- A string that is admitted is read in one step. -/
theorem step_string_of_admits {ss : List Spelling} (h : o.AdmitsText (spelledString ss)) :
    step o ⟨⟨p, quotedText ss ++ rest⟩, stack, .value⟩ =
      .ok (.more ⟨⟨p + (quotedText ss).length, rest⟩, stack,
        .after (.string (spelledString ss))⟩) := by
  have hstart : step o ⟨⟨p, quotedText ss ++ rest⟩, stack, .value⟩ =
      scalarRead stack ((readString o .value ⟨p, quotedText ss ++ rest⟩).map
        fun r => (.string r.1, r.2)) := step_mark_value
  rw [hstart, readString_of_admits h]
  rfl

/-- A key that is admitted is read to its end, and only then it is looked for its repetition and for
the colon. -/
theorem step_key_of_admits {members : List (String × Value)} {ss : List Spelling}
    (h : o.AdmitsText (spelledString ss)) :
    step o ⟨⟨p, quotedText ss ++ rest⟩, stack, .key members⟩ =
      if o.rejectDuplicates = true ∧ Members.contains (spelledString ss) members = true then
        .error ⟨.duplicateKey (spelledString ss), p⟩
      else
        let colon := (⟨p + (quotedText ss).length, rest⟩ : Cursor).skipSpace
        if colon.peek? = some 0x3a then
          .ok (.more ⟨colon.advance 1, .object members (spelledString ss) :: stack, .value⟩)
        else .error (colon.unexpected .colon) := by
  have hstep : step o ⟨⟨p, quotedText ss ++ rest⟩, stack, .key members⟩ =
      readKey o stack members ⟨p, quotedText ss ++ rest⟩ := step_mark_key
  have hpeek : (⟨p, quotedText ss ++ rest⟩ : Cursor).peek? = some 0x22 := rfl
  rw [hstep, readKey, if_pos hpeek, readString_of_admits h]

/-- What begins neither with white space nor with a bracket is found behind white space, and the
bracket is not. -/
theorem skipSpace_of_stops_bracket {bracket : UInt8} (space : Space)
    (h : Stops (isSpaceOr bracket) rest) :
    (⟨p, space.text ++ rest⟩ : Cursor).skipSpace = ⟨p + space.text.length, rest⟩ ∧
      (⟨p + space.text.length, rest⟩ : Cursor).peek? ≠ some bracket := by
  have hstops : Stops isSpace rest := fun b hb => (isSpaceOr_eq_false_iff.1 (h b hb)).1
  refine ⟨Cursor.skipSpace_append space.isSpace hstops, fun hpeek => ?_⟩
  exact (isSpaceOr_eq_false_iff.1 (h bracket hpeek)).2 rfl

/-- **The reader makes every move**, if what follows does not go on with its token. -/
theorem step_of_move (h : Move o stack goal text stops stack' goal') (hrest : Stops stops rest) :
    step o ⟨⟨p, text ++ rest⟩, stack, goal⟩ =
      .ok (.more ⟨⟨p + text.length, rest⟩, stack', goal'⟩) := by
  cases h with
  | word w => exact step_word w hrest
  | number n => exact step_number n hrest
  | string ss hadmits => exact step_string_of_admits hadmits
  | emptyArray space hdepth =>
      have hlen := add_length_bracketed p 0x5b 0x5d space.text
      rw [List.cons_append] at hlen
      rw [List.cons_append, List.append_assoc, List.singleton_append, step_openArray,
        refuse_bracket hdepth, skipSpace_space_cons _ _ _ rfl, Cursor.peek?_cons, if_pos rfl,
        Cursor.advance_one_cons, hlen]
  | openArray space hdepth =>
      obtain ⟨hskip, hpeek⟩ := skipSpace_of_stops_bracket (p := p + 1) space hrest
      rw [List.cons_append, step_openArray, refuse_bracket hdepth, hskip, if_neg hpeek,
        List.length_cons, Nat.add_right_comm, Nat.add_assoc]
  | emptyObject space hdepth =>
      have hlen := add_length_bracketed p 0x7b 0x7d space.text
      rw [List.cons_append] at hlen
      rw [List.cons_append, List.append_assoc, List.singleton_append, step_openObject,
        refuse_bracket hdepth, skipSpace_space_cons _ _ _ rfl, Cursor.peek?_cons, if_pos rfl,
        Cursor.advance_one_cons, hlen]
  | openObject space hdepth =>
      obtain ⟨hskip, hpeek⟩ := skipSpace_of_stops_bracket (p := p + 1) space hrest
      rw [List.cons_append, step_openObject, refuse_bracket hdepth, hskip, if_neg hpeek,
        List.length_cons, Nat.add_right_comm, Nat.add_assoc]
  | key ss after hadmits hfresh =>
      have hlen : p + (quotedText ss).length + after.text.length + 1 =
          p + (quotedText ss ++ (after.text ++ [0x3a])).length := by
        simp only [List.length_append, List.length_singleton]
        omega
      rw [← hlen, List.append_assoc, List.append_assoc, List.singleton_append,
        step_key_of_admits hadmits, if_neg hfresh, skipSpace_space_cons after _ rest rfl]
      rfl
  | nextItem => exact step_comma_array
  | closeArray => exact step_closeArray
  | nextMember => exact step_comma_object
  | closeObject => exact step_closeObject

end

/-! ### Every step is a move -/

/-- The reader **moves** from a cursor to a state: a token of a move is at the cursor, nothing goes
on with it, and the new cursor is behind it. -/
def Moves (o : Options) (stack : List Frame) (goal : Goal) (c : Cursor) (next : State) : Prop :=
  ∃ text stops, Move o stack goal text stops next.stack next.goal ∧
    Stops stops next.cursor.rest ∧ c.rest = text ++ next.cursor.rest ∧
    next.cursor.position = c.position + text.length

section

variable {stack : List Frame} {c : Cursor} {next : State}

/-- A byte at the cursor is a token by itself. -/
theorem moves_of_byte {goal : Goal} {b : UInt8} {stack' : List Frame} {goal' : Goal}
    (hc : c.peek? = some b) (h : Move o stack goal [b] noByte stack' goal') :
    Moves o stack goal c ⟨c.advance 1, stack', goal'⟩ :=
  ⟨[b], noByte, h, fun _ _ => rfl, Cursor.rest_eq_cons_of_peek? hc, rfl⟩

/-- White space and where it ends. -/
theorem exists_space (c : Cursor) :
    ∃ space : Space, c.rest = space.text ++ c.skipSpace.rest ∧
      c.skipSpace.position = c.position + space.text.length ∧ Stops isSpace c.skipSpace.rest := by
  obtain ⟨space, hspace, hrest, hposition, hstops⟩ := c.exists_skipSpace
  exact ⟨⟨space, hspace⟩, hrest, hposition, hstops⟩

/-- An opening bracket and the closing one behind it are a token. -/
theorem moves_of_closed {opening closing : UInt8} {v : Value} (hc : c.peek? = some opening)
    (hclose : (c.advance 1).skipSpace.peek? = some closing)
    (h : ∀ space : Space, Move o stack .value (opening :: (space.text ++ [closing])) noByte stack
      (.after v)) :
    Moves o stack .value c ⟨(c.advance 1).skipSpace.advance 1, stack, .after v⟩ := by
  obtain ⟨space, hrest, hposition, -⟩ := exists_space (c.advance 1)
  refine ⟨_, _, h space, fun _ _ => rfl, ?_, ?_⟩
  · rw [Cursor.rest_eq_cons_of_peek? hc, hrest, Cursor.rest_eq_cons_of_peek? hclose]
    simp only [List.append_assoc, List.cons_append, List.nil_append]
  · rw [Cursor.position_advance, hposition, Cursor.position_advance, List.length_cons,
      List.length_append, List.length_singleton]
    omega

/-- An opening bracket with something else behind it is a token together with white space. -/
theorem moves_of_opened {opening closing : UInt8} {stack' : List Frame} {goal' : Goal}
    (hc : c.peek? = some opening) (hclose : (c.advance 1).skipSpace.peek? ≠ some closing)
    (h : ∀ space : Space, Move o stack .value (opening :: space.text) (isSpaceOr closing)
      stack' goal') :
    Moves o stack .value c ⟨(c.advance 1).skipSpace, stack', goal'⟩ := by
  obtain ⟨space, hrest, hposition, hstops⟩ := exists_space (c.advance 1)
  refine ⟨_, _, h space, fun b hb => ?_, ?_, ?_⟩
  · refine isSpaceOr_eq_false_iff.2 ⟨hstops b hb, ?_⟩
    rintro rfl
    exact hclose hb
  · rw [Cursor.rest_eq_cons_of_peek? hc, hrest, List.cons_append]
  · rw [hposition, Cursor.position_advance, List.length_cons]
    omega

/-- Opening an array is a move. -/
theorem moves_of_openArray (hc : c.peek? = some 0x5b)
    (h : openArray o stack c = .ok (.more next)) : Moves o stack .value c next := by
  rw [openArray, checkDepth] at h
  split_ifs at h with hdepth
  simp only at h
  split_ifs at h with hclose
  · obtain rfl := Outcome.more.inj (Except.ok.inj h)
    exact moves_of_closed hc hclose fun space => .emptyArray space hdepth
  · obtain rfl := Outcome.more.inj (Except.ok.inj h)
    exact moves_of_opened hc hclose fun space => .openArray space hdepth

/-- Opening an object is a move. -/
theorem moves_of_openObject (hc : c.peek? = some 0x7b)
    (h : openObject o stack c = .ok (.more next)) : Moves o stack .value c next := by
  rw [openObject, checkDepth] at h
  split_ifs at h with hdepth
  simp only at h
  split_ifs at h with hclose
  · obtain rfl := Outcome.more.inj (Except.ok.inj h)
    exact moves_of_closed hc hclose fun space => .emptyObject space hdepth
  · obtain rfl := Outcome.more.inj (Except.ok.inj h)
    exact moves_of_opened hc hclose fun space => .openObject space hdepth

/-- A scalar that is read leads to the state after it. -/
theorem eq_ok_of_scalarRead {r : Except Failure (Value × Cursor)}
    (h : scalarRead stack r = .ok (.more next)) :
    ∃ v c, r = .ok (v, c) ∧ next = ⟨c, stack, .after v⟩ := by
  cases r with
  | error e => simp [scalarRead] at h
  | ok p => exact ⟨p.1, p.2, rfl, (Outcome.more.inj (Except.ok.inj h)).symm⟩

/-- Starting a value is a move. -/
theorem moves_of_startValue (h : startValue o stack c = .ok (.more next)) :
    Moves o stack .value c next := by
  rw [startValue] at h
  split at h
  · simp at h
  · next b hb =>
    split_ifs at h with hbrace hbracket hmark hletter hdigit
    · exact moves_of_openObject (hbrace ▸ hb) h
    · exact moves_of_openArray (hbracket ▸ hb) h
    · obtain ⟨v, c', hread, rfl⟩ := eq_ok_of_scalarRead h
      cases hs : readString o .value c with
      | error e => simp [hs, Except.map] at hread
      | ok r =>
          simp only [hs, Except.map, Except.ok.injEq, Prod.mk.injEq] at hread
          obtain ⟨rfl, rfl⟩ := hread
          obtain ⟨ss, hss, hadmits, hrest, hposition⟩ :=
            exists_admits_of_readString (hmark ▸ hb) hs
          exact ⟨_, _, hss ▸ .string ss (hss ▸ hadmits), fun _ _ => rfl, hrest, hposition⟩
    · obtain ⟨v, c', hread, rfl⟩ := eq_ok_of_scalarRead h
      obtain ⟨w, rfl, hrest, hposition, hstops⟩ := exists_of_readWord hread
      exact ⟨_, _, .word w, hstops, hrest, hposition⟩
    · obtain ⟨v, c', hread, rfl⟩ := eq_ok_of_scalarRead h
      obtain ⟨n, rfl, hrest, hposition, hstops⟩ := exists_of_readNumber hread
      exact ⟨_, _, .number n, hstops, hrest, hposition⟩

/-- Reading a key is a move. -/
theorem moves_of_readKey {members : List (String × Value)}
    (h : readKey o stack members c = .ok (.more next)) : Moves o stack (.key members) c next := by
  rw [readKey] at h
  split_ifs at h with hmark
  split at h
  · simp at h
  · next key c' hkey =>
    obtain ⟨ss, rfl, hadmits, hrest, hposition⟩ := exists_admits_of_readString hmark hkey
    obtain ⟨after, hrest', hposition', -⟩ := exists_space c'
    simp only at h
    split_ifs at h with hfresh hcolon
    obtain rfl := Outcome.more.inj (Except.ok.inj h)
    refine ⟨_, _, .key ss after hadmits hfresh, fun _ _ => rfl, ?_, ?_⟩
    · rw [hrest, hrest', Cursor.rest_eq_cons_of_peek? hcolon]
      simp only [List.append_assoc, List.cons_append, List.nil_append]
    · rw [Cursor.position_advance, hposition', hposition]
      simp only [List.length_append, List.length_singleton]
      omega

/-- Going on after a value is a move. -/
theorem moves_of_finishValue {v : Value} (h : finishValue stack v c = .ok (.more next)) :
    Moves o stack (.after v) c next := by
  rw [finishValue.eq_def] at h
  split at h
  · split at h <;> simp at h
  · split_ifs at h with hcomma hclose
    · obtain rfl := Outcome.more.inj (Except.ok.inj h)
      exact moves_of_byte hcomma .nextItem
    · obtain rfl := Outcome.more.inj (Except.ok.inj h)
      exact moves_of_byte hclose .closeArray
  · simp only at h
    split_ifs at h with hcomma hclose
    · obtain rfl := Outcome.more.inj (Except.ok.inj h)
      exact moves_of_byte hcomma .nextMember
    · obtain rfl := Outcome.more.inj (Except.ok.inj h)
      exact moves_of_byte hclose .closeObject

/-- **The steps that go on are the moves**, past some white space. -/
theorem step_eq_more_iff {goal : Goal} :
    step o ⟨c, stack, goal⟩ = .ok (.more next) ↔ Moves o stack goal c.skipSpace next := by
  constructor
  · intro h
    rw [step] at h
    cases goal with
    | value => exact moves_of_startValue h
    | key members => exact moves_of_readKey h
    | after v => exact moves_of_finishValue h
  · rintro ⟨text, stops, hmove, hstops, hrest, hposition⟩
    obtain ⟨-, -, -, hspace⟩ := exists_space c
    have hskip : c.skipSpace.skipSpace = c.skipSpace := Cursor.skipSpace_of_stops hspace
    have hcursor : c.skipSpace = ⟨c.skipSpace.position, text ++ next.cursor.rest⟩ := by
      rw [← hrest]
    have hstep : step o ⟨c, stack, goal⟩ = step o ⟨c.skipSpace, stack, goal⟩ := by
      rw [step, step]
      simp only [hskip]
    rw [hstep, hcursor, step_of_move hmove hstops, ← hposition]

end

/-! ### What may stand behind a move -/

/-- The bytes that a goal **admits** in front: whatever was read before, they do not go on with
it. -/
def Goal.Admits : Goal → UInt8 → Prop
  | .value, b => isSpace b = false ∧ b ≠ 0x5d
  | .key _, b => isSpace b = false ∧ b ≠ 0x7d
  | .after _, b => goesOn b = false

/-- Bytes that can stand where others stand: they begin like those, or with a byte that the goal
admits. Nothing can stand in the place of everything. -/
def Goal.Replaces (goal : Goal) (rest more : List UInt8) : Prop :=
  ∀ b ∈ more.head?, b ∈ rest.head? ∨ goal.Admits b

section

variable {stack stack' : List Frame} {goal goal' : Goal} {text rest more : List UInt8}
  {stops : UInt8 → Bool}

/-- What the goal admits does not go on with the move that led to it. -/
theorem Move.stops_of_admits (h : Move o stack goal text stops stack' goal') {b : UInt8}
    (hb : goal'.Admits b) : stops b = false := by
  cases h with
  | word w => exact (Bool.or_eq_false_iff.1 hb).1
  | number n => exact Numeral.continues_of_isContinuation (Bool.or_eq_false_iff.1 hb).2
  | openArray space hdepth | openObject space hdepth => exact isSpaceOr_eq_false_iff.2 hb
  | _ => rfl

/-- What can stand where something stops a move stops it as well. -/
theorem Move.stops_of_replaces (h : Move o stack goal text stops stack' goal')
    (hrest : Stops stops rest) (hmore : goal'.Replaces rest more) : Stops stops more := by
  intro b hb
  obtain hb' | hb' := hmore b hb
  · exact hrest b hb'
  · exact h.stops_of_admits hb'

/-- Behind the same bytes anything can stand. -/
theorem Goal.replaces_append (goal : Goal) (h : text ≠ []) (rest more : List UInt8) :
    goal.Replaces (text ++ rest) (text ++ more) := by
  intro b hb
  cases text with
  | nil => exact absurd rfl h
  | cons x xs => exact .inl hb

end

end StrictJson.Syntax
