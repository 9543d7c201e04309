import StrictJson.Proofs.Syntax.Tree
import StrictJson.Proofs.Value.Members

/-!
# Reading a Tree

What the reader does when the text of a tree lies in front of it, whatever is open around it and
whatever follows. It meets the constructs of the tree in the order of the text. If the options
refuse none of them, it ends up behind the tree with its meaning; otherwise it fails at the first
one that they refuse.

Keys are the one place where the reader does not follow the text. It reads a key to its end before
it looks whether the key is repeated, so an escape inside the key could be refused first. That never
makes a difference: if a repeated key has a character that is refused, then so has the same key
where it stands first.

## Main results

* `run_tree`: reading a tree, for every part of the grammar.
* `parse_text`: reading a document.
-/

namespace StrictJson.Syntax

variable {o : Options}

/-! ### Runs, one step at a time -/

/-- A run is its first step and then the rest of the run. -/
theorem run_eq (o : Options) (s : State) :
    run o s =
      match step o s with
      | .error e => .error e
      | .ok (.done v) => .ok v
      | .ok (.more next) => run o next := by
  rw [run]
  split
  · next e he => rw [he]
  · next v hv => rw [hv]
  · next next hn => rw [hn]

/-- A run goes on from where its first step leads, unless that step is refused. -/
theorem run_of_step {s next : State} {constructs : List Construct}
    (h : step o s = refuse o constructs (.ok (.more next))) :
    run o s = refuse o constructs (run o next) := by
  rw [run_eq, h]
  obtain ⟨f, hf⟩ | hnone := refuse_cases o constructs
  · rw [hf, hf]
  · rw [hnone, hnone]

/-- A run goes on from where its first step leads. -/
theorem run_of_more {s next : State} (h : step o s = .ok (.more next)) : run o s = run o next :=
  run_of_step (h.trans refuse_nil.symm)

/-- A run ends where its first step does. -/
theorem run_of_done {s : State} {v : Value} (h : step o s = .ok (.done v)) : run o s = .ok v := by
  rw [run_eq, h]

/-- A run is determined by its first step. -/
theorem run_congr {s s' : State} (h : step o s = step o s') : run o s = run o s' := by
  rw [run_eq, run_eq, h]

/-- White space in front of the cursor makes no difference to a step. -/
theorem step_space (space : Space) (p : ℕ) (rest : List UInt8) (stack : List Frame)
    (goal : Goal) :
    step o ⟨⟨p, space.text ++ rest⟩, stack, goal⟩ =
      step o ⟨⟨p + space.text.length, rest⟩, stack, goal⟩ := by
  rw [step, step]
  simp only [skipSpace_space_append]

/-- White space in front of the cursor makes no difference. -/
theorem run_space (space : Space) (p : ℕ) (rest : List UInt8) (stack : List Frame) (goal : Goal) :
    run o ⟨⟨p, space.text ++ rest⟩, stack, goal⟩ =
      run o ⟨⟨p + space.text.length, rest⟩, stack, goal⟩ :=
  run_congr (step_space space p rest stack goal)

/-- White space may follow the value of a document. -/
theorem run_blank (space : Space) (p : ℕ) (v : Value) :
    run o ⟨⟨p, space.text⟩, [], .after v⟩ = .ok v := by
  have hspace := run_space (o := o) space p [] [] (.after v)
  rw [List.append_nil] at hspace
  rw [hspace]
  exact run_of_done rfl

/-- It makes no difference whether white space has been skipped. -/
theorem run_skipSpace (c : Cursor) (stack : List Frame) (goal : Goal) :
    run o ⟨c.skipSpace, stack, goal⟩ = run o ⟨c, stack, goal⟩ := by
  obtain ⟨-, -, -, -, hstops⟩ := c.exists_skipSpace
  have hskip : c.skipSpace.skipSpace = c.skipSpace := Cursor.skipSpace_of_stops hstops
  refine run_congr ?_
  rw [step, step]
  simp only [hskip]

/-! ### The first byte of a tree -/

/-- The first byte of a tree past white space is neither white space nor a closing bracket. -/
theorem Tree.exists_head {part : Part} (t : Tree part) :
    ∃ (space : Space) (b : UInt8) (bytes : List UInt8), t.text = space.text ++ b :: bytes ∧
      isSpace b = false ∧ b ≠ 0x5d ∧ b ≠ 0x7d := by
  induction t with
  | word w => cases w <;> exact ⟨.none, _, _, rfl, by decide, by decide, by decide⟩
  | number n =>
      obtain ⟨b, bytes, htext, hb⟩ := n.exists_head
      refine ⟨.none, b, bytes, htext, ?_⟩
      rcases hb with rfl | hb
      · exact ⟨by decide, by decide, by decide⟩
      · refine ⟨isSpace_of_isDigit hb, ?_, ?_⟩
        · rintro rfl
          exact absurd hb (by decide)
        · rintro rfl
          exact absurd hb (by decide)
  | string | emptyArray | array | emptyObject | object =>
      exact ⟨.none, _, _, rfl, by decide, by decide, by decide⟩
  | padded before value after ih =>
      obtain ⟨space, b, bytes, htext, hb⟩ := ih
      refine ⟨before.append space, b, bytes ++ after.text, ?_, hb⟩
      simp only [text, htext, Space.append, List.append_assoc, List.cons_append]
  | lastItem first ih => exact ih
  | item first others ih _ =>
      obtain ⟨space, b, bytes, htext, hb⟩ := ih
      refine ⟨space, b, bytes ++ 0x2c :: others.text, ?_, hb⟩
      rw [text, htext, List.append_assoc, List.cons_append]
  | lastMember label element _ =>
      refine ⟨label.before, 0x22,
        spelledText label.key ++ 0x22 :: (label.after.text ++ 0x3a :: element.text), ?_, by decide⟩
      simp only [text, Label.text, quotedText, List.append_assoc, List.cons_append,
        List.nil_append]
  | member label element others _ _ =>
      refine ⟨label.before, 0x22, spelledText label.key ++ 0x22 ::
        (label.after.text ++ 0x3a :: (element.text ++ 0x2c :: others.text)), ?_, by decide⟩
      simp only [text, Label.text, quotedText, List.append_assoc, List.cons_append,
        List.nil_append]

/-- A closing bracket never stands where a tree begins. -/
theorem Tree.peek?_skipSpace_ne {part : Part} (t : Tree part) (p : ℕ) (rest : List UInt8) :
    (⟨p, t.text ++ rest⟩ : Cursor).skipSpace.peek? ≠ some 0x5d ∧
      (⟨p, t.text ++ rest⟩ : Cursor).skipSpace.peek? ≠ some 0x7d := by
  obtain ⟨space, b, bytes, htext, hspace, hb⟩ := t.exists_head
  rw [htext, List.append_assoc, skipSpace_space_append, List.cons_append,
    Cursor.skipSpace_of_stops (stops_cons.2 hspace), Cursor.peek?_cons]
  simpa only [Ne, Option.some.injEq] using hb

/-! ### Steps at a known byte -/

section

variable {p : ℕ} {stack : List Frame} {bytes rest : List UInt8}

theorem checkDepth_eq (c : Cursor) :
    checkDepth o stack c = refuse o [.bracket stack.length c.position] (.ok ()) := by
  rw [checkDepth, refuse, List.findSome?_cons, Construct.refusal?]
  split_ifs <;> rfl

/-- An opening bracket opens an array, which ends at once if a closing bracket follows. -/
theorem step_openArray :
    step o ⟨⟨p, 0x5b :: bytes⟩, stack, .value⟩ = refuse o [.bracket stack.length p]
      (.ok (.more (if (⟨p + 1, bytes⟩ : Cursor).skipSpace.peek? = some 0x5d then
          ⟨(⟨p + 1, bytes⟩ : Cursor).skipSpace.advance 1, stack, .after (.array [])⟩
        else ⟨(⟨p + 1, bytes⟩ : Cursor).skipSpace, .array [] :: stack, .value⟩))) := by
  have hstep : step o ⟨⟨p, 0x5b :: bytes⟩, stack, .value⟩ =
      openArray o stack ⟨p, 0x5b :: bytes⟩ := by
    rw [step, Cursor.skipSpace_of_stops (stops_cons.2 rfl)]
    rfl
  rw [hstep, openArray, checkDepth_eq]
  obtain ⟨f, hf⟩ | hnone := refuse_cases o [.bracket stack.length p]
  · simp only [hf]
  · simp only [hnone]
    rw [Cursor.advance_one_cons]
    by_cases h : (⟨p + 1, bytes⟩ : Cursor).skipSpace.peek? = some 0x5d
    · rw [if_pos h, if_pos h]
    · rw [if_neg h, if_neg h]

/-- An opening brace opens an object, which ends at once if a closing brace follows. -/
theorem step_openObject :
    step o ⟨⟨p, 0x7b :: bytes⟩, stack, .value⟩ = refuse o [.bracket stack.length p]
      (.ok (.more (if (⟨p + 1, bytes⟩ : Cursor).skipSpace.peek? = some 0x7d then
          ⟨(⟨p + 1, bytes⟩ : Cursor).skipSpace.advance 1, stack, .after (.object [])⟩
        else ⟨(⟨p + 1, bytes⟩ : Cursor).skipSpace, stack, .key []⟩))) := by
  have hstep : step o ⟨⟨p, 0x7b :: bytes⟩, stack, .value⟩ =
      openObject o stack ⟨p, 0x7b :: bytes⟩ := by
    rw [step, Cursor.skipSpace_of_stops (stops_cons.2 rfl)]
    rfl
  rw [hstep, openObject, checkDepth_eq]
  obtain ⟨f, hf⟩ | hnone := refuse_cases o [.bracket stack.length p]
  · simp only [hf]
  · simp only [hnone]
    rw [Cursor.advance_one_cons]
    by_cases h : (⟨p + 1, bytes⟩ : Cursor).skipSpace.peek? = some 0x7d
    · rw [if_pos h, if_pos h]
    · rw [if_neg h, if_neg h]

/-- Inside an array a comma leads to the next value. -/
theorem step_comma_array {items : List Value} {v : Value} :
    step o ⟨⟨p, 0x2c :: rest⟩, .array items :: stack, .after v⟩ =
      .ok (.more ⟨⟨p + 1, rest⟩, .array (v :: items) :: stack, .value⟩) := by
  rw [step, Cursor.skipSpace_of_stops (stops_cons.2 rfl)]
  rfl

/-- A closing bracket ends an array. -/
theorem step_closeArray {items : List Value} {v : Value} :
    step o ⟨⟨p, 0x5d :: rest⟩, .array items :: stack, .after v⟩ =
      .ok (.more ⟨⟨p + 1, rest⟩, stack, .after (.array (v :: items).reverse)⟩) := by
  rw [step, Cursor.skipSpace_of_stops (stops_cons.2 rfl)]
  rfl

/-- Inside an object a comma leads to the next key. -/
theorem step_comma_object {members : List (String × Value)} {key : String} {v : Value} :
    step o ⟨⟨p, 0x2c :: rest⟩, .object members key :: stack, .after v⟩ =
      .ok (.more ⟨⟨p + 1, rest⟩, stack, .key (Members.insert key v members)⟩) := by
  rw [step, Cursor.skipSpace_of_stops (stops_cons.2 rfl)]
  rfl

/-- A closing brace ends an object. -/
theorem step_closeObject {members : List (String × Value)} {key : String} {v : Value} :
    step o ⟨⟨p, 0x7d :: rest⟩, .object members key :: stack, .after v⟩ =
      .ok (.more ⟨⟨p + 1, rest⟩, stack, .after (.object (Members.insert key v members))⟩) := by
  rw [step, Cursor.skipSpace_of_stops (stops_cons.2 rfl)]
  rfl

/-- A word is read in one step. -/
theorem step_word (w : Word) (hrest : Stops isLetter rest) :
    step o ⟨⟨p, w.text ++ rest⟩, stack, .value⟩ =
      .ok (.more ⟨⟨p + w.text.length, rest⟩, stack, .after w.value⟩) := by
  have hstart : step o ⟨⟨p, w.text ++ rest⟩, stack, .value⟩ =
      scalarRead stack (readWord ⟨p, w.text ++ rest⟩) := by
    have hstops : Stops isSpace (w.text ++ rest) := by
      cases w <;> exact stops_cons.2 rfl
    rw [step, Cursor.skipSpace_of_stops hstops]
    cases w <;> rfl
  rw [hstart, readWord_append w hrest, scalarRead]

/-- A number is read in one step. -/
theorem step_number (n : NumberToken) (hrest : Stops n.numeral.continues rest) :
    step o ⟨⟨p, n.text ++ rest⟩, stack, .value⟩ =
      .ok (.more ⟨⟨p + n.text.length, rest⟩, stack, .after n.value⟩) := by
  obtain ⟨b, bytes, htext, hb⟩ := n.exists_head
  have hne : ∀ b' : UInt8, b' ≠ 0x2d → isDigit b' = false → b ≠ b' := by
    rintro b' hminus hdigit rfl
    rcases hb with hb | hb
    · exact hminus hb
    · exact Bool.false_ne_true (hdigit.symm.trans hb)
  have hspace : isSpace b = false := by
    rcases hb with rfl | hb
    · decide
    · exact isSpace_of_isDigit hb
  have hstart : step o ⟨⟨p, n.text ++ rest⟩, stack, .value⟩ =
      scalarRead stack (readNumber ⟨p, n.text ++ rest⟩) := by
    rw [htext, List.cons_append, step, Cursor.skipSpace_of_stops (stops_cons.2 hspace)]
    simp only [startValue, Cursor.peek?_cons]
    rw [if_neg (hne 0x7b (by decide) (by decide)), if_neg (hne 0x5b (by decide) (by decide)),
      if_neg (hne 0x22 (by decide) (by decide)), if_neg, if_pos hb]
    rintro (h | h | h)
    · exact hne 0x74 (by decide) (by decide) h
    · exact hne 0x66 (by decide) (by decide) h
    · exact hne 0x6e (by decide) (by decide) h
  rw [hstart, readNumber_append n hrest, scalarRead]

/-- A string does not begin with white space. -/
theorem stops_quotedText (ss : List Spelling) (rest : List UInt8) :
    Stops isSpace (quotedText ss ++ rest) :=
  stops_cons.2 rfl

/-- A quotation mark starts a string. -/
theorem step_mark_value :
    step o ⟨⟨p, 0x22 :: bytes⟩, stack, .value⟩ =
      scalarRead stack ((readString o .value ⟨p, 0x22 :: bytes⟩).map
        fun r => (.string r.1, r.2)) := by
  rw [step, Cursor.skipSpace_of_stops (stops_cons.2 rfl)]
  rfl

/-- A quotation mark starts a key. -/
theorem step_mark_key {members : List (String × Value)} :
    step o ⟨⟨p, 0x22 :: bytes⟩, stack, .key members⟩ =
      readKey o stack members ⟨p, 0x22 :: bytes⟩ := by
  rw [step, Cursor.skipSpace_of_stops (stops_cons.2 rfl)]

/-- A string is read in one step. -/
theorem step_string (ss : List Spelling) :
    step o ⟨⟨p, quotedText ss ++ rest⟩, stack, .value⟩ =
      refuse o (quotedConstructs .value p ss)
        (.ok (.more ⟨⟨p + (quotedText ss).length, rest⟩, stack,
          .after (.string (spelledString ss))⟩)) := by
  have hstart : step o ⟨⟨p, quotedText ss ++ rest⟩, stack, .value⟩ =
      scalarRead stack ((readString o .value ⟨p, quotedText ss ++ rest⟩).map
        fun r => (.string r.1, r.2)) := step_mark_value
  rw [hstart, readString_append]
  obtain ⟨f, hf⟩ | hnone := refuse_cases o (quotedConstructs .value p ss)
  · rw [hf, hf]
    rfl
  · rw [hnone, hnone]
    rfl

/-- The keys of an object so far, as the reader holds them and as the text has them. -/
structure KeysSeen (o : Options) (members : List (String × Value)) (seen : List String) :
    Prop where
  mem_iff : ∀ key, key ∈ seen ↔ key ∈ members.map Prod.fst
  /-- They have passed the options. -/
  nulFree : o.allowNul = false → ∀ key ∈ seen, '\x00' ∉ key.toList

/-- **A key is read in one step** together with its colon. -/
theorem step_label (l : Label) {members : List (String × Value)} {seen : List String}
    (hseen : KeysSeen o members seen) :
    step o ⟨⟨p, l.text ++ 0x3a :: rest⟩, stack, .key members⟩ =
      refuse o (l.constructs p seen)
        (.ok (.more ⟨⟨p + l.text.length + 1, rest⟩, .object members l.string :: stack,
          .value⟩)) := by
  have hstep : step o ⟨⟨p, l.text ++ 0x3a :: rest⟩, stack, .key members⟩ =
      readKey o stack members
        ⟨l.keyOffset p, quotedText l.key ++ (l.after.text ++ 0x3a :: rest)⟩ := by
    rw [step, Label.text, List.append_assoc, List.append_assoc, skipSpace_space_append,
      Cursor.skipSpace_of_stops (stops_quotedText l.key _)]
    rfl
  have hpeek : (⟨l.keyOffset p, quotedText l.key ++ (l.after.text ++ 0x3a :: rest)⟩ :
      Cursor).peek? = some 0x22 := rfl
  have hcolon : (⟨l.keyOffset p + (quotedText l.key).length, l.after.text ++ 0x3a :: rest⟩ :
      Cursor).skipSpace = ⟨p + l.text.length, 0x3a :: rest⟩ := by
    rw [skipSpace_space_cons _ _ _ rfl, Label.keyOffset, Label.text, List.length_append,
      List.length_append]
    simp only [Nat.add_assoc]
  rw [hstep, readKey, if_pos hpeek, readString_append, Label.constructs, refuse_append,
    ← Label.string]
  by_cases hdup : o.rejectDuplicates = true ∧ l.string ∈ seen
  · -- the same key has been read before, so nothing in it is refused
    have hpass : ∀ {α : Type} (r : Except Failure α),
        refuse o (quotedConstructs .key (l.keyOffset p) l.key) r = r := by
      intro α r
      refine refuse_of_forall fun construct hmem => ?_
      obtain ⟨q, rfl, -⟩ := of_mem_spelledConstructs hmem
      rw [Construct.refusal?]
      split_ifs with hallow
      · rfl
      · have hnul := hseen.nulFree (Bool.eq_false_iff.2 hallow) l.string hdup.2
        rw [quotedConstructs_of_nulFree hnul] at hmem
        exact absurd hmem List.not_mem_nil
    have hcontains := Members.contains_iff.2 ((hseen.mem_iff l.string).1 hdup.2)
    rw [hpass, if_pos hdup.2, refuse, List.findSome?_cons, Construct.refusal?, if_pos hdup.1]
    simp only [hdup.1, hcontains, and_self, if_true]
  · have hnone : ∀ {α : Type} (r : Except Failure α),
        refuse o (if l.string ∈ seen then [.repeatedKey l.string (l.keyOffset p)] else []) r =
          r := by
      intro α r
      refine refuse_of_forall fun construct hmem => ?_
      split_ifs at hmem with hmem'
      · rw [List.mem_singleton.1 hmem, Construct.refusal?, if_neg fun h => hdup ⟨h, hmem'⟩]
      · exact absurd hmem List.not_mem_nil
    have hcontains : ¬ (o.rejectDuplicates = true ∧ Members.contains l.string members = true) := by
      rwa [Members.contains_iff, ← hseen.mem_iff]
    rw [hnone]
    obtain ⟨f, hf⟩ | hpass := refuse_cases o (quotedConstructs .key (l.keyOffset p) l.key)
    · rw [hf, hf]
    · rw [hpass, hpass]
      simp only [hcontains, if_false, hcolon, Cursor.peek?_cons, if_true, Cursor.advance_one_cons]

/-- A key that passes the options has been seen from then on. -/
theorem KeysSeen.insert {l : Label} {members : List (String × Value)} {seen : List String}
    (hseen : KeysSeen o members seen) (hpass : ∀ c ∈ l.constructs p seen, c.refusal? o = none)
    (v : Value) : KeysSeen o (Members.insert l.string v members) (l.string :: seen) where
  mem_iff key := by
    rw [Members.map_fst_insert, List.mem_cons, hseen.mem_iff]
    split_ifs with hmem
    · exact or_iff_right_of_imp fun h => h ▸ hmem
    · rw [List.mem_append, List.mem_singleton, or_comm]
  nulFree ho key hkey := by
    rcases List.mem_cons.1 hkey with rfl | hkey
    · exact nulFree_of_refuse (fun c hc => hpass c (List.mem_append_right _ hc)) ho
    · exact hseen.nulFree ho key hkey

end

/-! ### Reading a tree -/

/-- What it means that a tree is **read**: from where it begins, the reader gets behind it with its
meaning, unless one of its constructs is refused. Items and members are read up to the end of their
container, inside an array or object of which a part has been read. -/
def Tree.IsRead (o : Options) : {part : Part} → Tree part → Prop
  | .value, t | .element, t => ∀ (stack : List Frame) (p : ℕ) (rest : List UInt8),
      Delimited rest → run o ⟨⟨p, t.text ++ rest⟩, stack, .value⟩ =
        refuse o (t.constructs stack.length p [])
          (run o ⟨⟨p + t.text.length, rest⟩, stack, .after t.meaning⟩)
  | .items, t => ∀ (items : List Value) (stack : List Frame) (p : ℕ) (rest : List UInt8),
      run o ⟨⟨p, t.text ++ 0x5d :: rest⟩, .array items :: stack, .value⟩ =
        refuse o (t.constructs (stack.length + 1) p [])
          (run o ⟨⟨p + t.text.length + 1, rest⟩, stack,
            .after (.array (items.reverse ++ t.meaning))⟩)
  | .members, t => ∀ (members : List (String × Value)) (seen : List String) (stack : List Frame)
      (p : ℕ) (rest : List UInt8), KeysSeen o members seen →
      run o ⟨⟨p, t.text ++ 0x7d :: rest⟩, stack, .key members⟩ =
        refuse o (t.constructs (stack.length + 1) p seen)
          (run o ⟨⟨p + t.text.length + 1, rest⟩, stack,
            .after (.object (Members.extend members t.meaning))⟩)

/-- The bytes that follow values inside a document are delimiters. -/
theorem delimited_cons {b : UInt8} {rest : List UInt8} (h : goesOn b = false) :
    Delimited (b :: rest) :=
  stops_cons.2 h

/-- What stands between two brackets, and the brackets. -/
theorem add_length_bracketed (p : ℕ) (b c : UInt8) (inner : List UInt8) :
    p + 1 + inner.length + 1 = p + (b :: inner ++ [c]).length := by
  rw [List.length_append, List.length_cons, List.length_singleton]
  omega

/-- A value is **read before** some bytes if the reader gets to them with its meaning, unless one of
its constructs is refused. -/
def Tree.IsReadBefore (o : Options) (t : Tree .value) (rest : List UInt8) : Prop :=
  ∀ (stack : List Frame) (p : ℕ), run o ⟨⟨p, t.text ++ rest⟩, stack, .value⟩ =
    refuse o (t.constructs stack.length p [])
      (run o ⟨⟨p + t.text.length, rest⟩, stack, .after t.meaning⟩)

/-- A string is read whatever follows. -/
theorem isReadBefore_string (ss : List Spelling) (rest : List UInt8) :
    (Tree.string ss).IsReadBefore o rest :=
  fun _ _ => run_of_step (step_string ss)

/-- An empty array is read whatever follows. -/
theorem isReadBefore_emptyArray (space : Space) (rest : List UInt8) :
    (Tree.emptyArray space).IsReadBefore o rest := by
  intro stack p
  have hlen := add_length_bracketed p 0x5b 0x5d space.text
  rw [Tree.text, List.append_assoc, List.cons_append, List.singleton_append,
    run_of_step step_openArray, skipSpace_space_cons _ _ _ rfl, Cursor.peek?_cons, if_pos rfl,
    Cursor.advance_one_cons, hlen]
  rfl

/-- An array is read whatever follows if its items are read. -/
theorem isReadBefore_array {items : Tree .items} (h : items.IsRead o) (rest : List UInt8) :
    (Tree.array items).IsReadBefore o rest := by
  intro stack p
  have hlen := add_length_bracketed p 0x5b 0x5d items.text
  rw [Tree.text, List.append_assoc, List.cons_append, List.singleton_append,
    run_of_step step_openArray, if_neg (items.peek?_skipSpace_ne ..).1, run_skipSpace,
    h [] stack (p + 1) rest, hlen, ← refuse_append]
  rfl

/-- An empty object is read whatever follows. -/
theorem isReadBefore_emptyObject (space : Space) (rest : List UInt8) :
    (Tree.emptyObject space).IsReadBefore o rest := by
  intro stack p
  have hlen := add_length_bracketed p 0x7b 0x7d space.text
  rw [Tree.text, List.append_assoc, List.cons_append, List.singleton_append,
    run_of_step step_openObject, skipSpace_space_cons _ _ _ rfl, Cursor.peek?_cons, if_pos rfl,
    Cursor.advance_one_cons, hlen]
  rfl

/-- An object is read whatever follows if its members are read. -/
theorem isReadBefore_object {members : Tree .members} (h : members.IsRead o)
    (rest : List UInt8) : (Tree.object members).IsReadBefore o rest := by
  intro stack p
  have hseen : KeysSeen o [] [] := ⟨fun key => Iff.rfl, fun _ key h => absurd h List.not_mem_nil⟩
  have hlen := add_length_bracketed p 0x7b 0x7d members.text
  rw [Tree.text, List.append_assoc, List.cons_append, List.singleton_append,
    run_of_step step_openObject, if_neg (members.peek?_skipSpace_ne ..).2, run_skipSpace,
    h [] [] stack (p + 1) rest hseen, hlen, ← refuse_append]
  rfl

/-- A member and those behind it are read if its value and they are. The key counts as seen for the
others, but only if it has passed the options. -/
theorem isRead_member (label : Label) {element : Tree .element} {others : Tree .members}
    (helement : element.IsRead o) (hothers : others.IsRead o) :
    (Tree.member label element others).IsRead o := by
  intro members seen stack p rest hseen
  have hlen : p + label.text.length + 1 + element.text.length + 1 + others.text.length + 1 =
      p + (Tree.member label element others).text.length + 1 := by
    simp only [Tree.text, List.length_append, List.length_cons]
    omega
  have htext : (Tree.member label element others).text ++ 0x7d :: rest =
      label.text ++ 0x3a :: (element.text ++ 0x2c :: (others.text ++ 0x7d :: rest)) := by
    simp only [Tree.text, List.append_assoc, List.cons_append]
  rw [htext, run_of_step (step_label label hseen), Tree.constructs, List.append_assoc,
    refuse_append]
  by_cases hpass : ∀ c ∈ label.constructs p seen, c.refusal? o = none
  · rw [helement _ _ _ (delimited_cons rfl), run_of_more step_comma_object,
      hothers _ _ _ _ _ (hseen.insert hpass _), hlen, refuse_append]
    rfl
  · obtain ⟨f, hf⟩ | hnone := refuse_cases o (label.constructs p seen)
    · rw [hf, hf]
    · exact absurd (refuse_eq_ok_iff.1 (hnone (.ok ()))) hpass

/-- **A tree is read**, for every part of the grammar and whatever the options are. -/
theorem run_tree {part : Part} (t : Tree part) : t.IsRead o := by
  induction t with
  | word w =>
      intro stack p rest hrest
      exact run_of_more (step_word w hrest.stops_isLetter)
  | number n =>
      intro stack p rest hrest
      exact run_of_more (step_number n (hrest.stops_continues n.numeral))
  | string ss => exact fun stack p rest _ => isReadBefore_string ss rest stack p
  | emptyArray space => exact fun stack p rest _ => isReadBefore_emptyArray space rest stack p
  | array items ih => exact fun stack p rest _ => isReadBefore_array ih rest stack p
  | emptyObject space => exact fun stack p rest _ => isReadBefore_emptyObject space rest stack p
  | object members ih => exact fun stack p rest _ => isReadBefore_object ih rest stack p
  | padded before value after ih =>
      intro stack p rest hrest
      have hlen : p + before.text.length + value.text.length + after.text.length =
          p + (Tree.padded before value after).text.length := by
        simp only [Tree.text, List.length_append]
        omega
      rw [Tree.text, List.append_assoc, List.append_assoc, run_space,
        ih stack _ _ (hrest.space_append after), run_space, hlen]
      rfl
  | lastItem first ih =>
      intro items stack p rest
      rw [Tree.text, ih _ p _ (delimited_cons rfl), run_of_more step_closeArray,
        List.reverse_cons]
      rfl
  | item first others ih ihs =>
      intro items stack p rest
      have hlen : p + first.text.length + 1 + others.text.length + 1 =
          p + (Tree.item first others).text.length + 1 := by
        simp only [Tree.text, List.length_append, List.length_cons]
        omega
      rw [Tree.text, List.append_assoc, List.cons_append, ih _ p _ (delimited_cons rfl),
        run_of_more step_comma_array, ihs, hlen, ← refuse_append, List.reverse_cons,
        List.append_assoc]
      rfl
  | lastMember label element ih =>
      intro members seen stack p rest hseen
      have hlen : p + label.text.length + 1 + element.text.length + 1 =
          p + (Tree.lastMember label element).text.length + 1 := by
        simp only [Tree.text, List.length_append, List.length_cons]
        omega
      rw [Tree.text, List.append_assoc, List.cons_append, run_of_step (step_label label hseen),
        ih _ _ _ (delimited_cons rfl), run_of_more step_closeObject, hlen, ← refuse_append]
      rfl
  | member label element others ih ihs => exact isRead_member label ih ihs

/-- **A document is read as its meaning**, unless a construct of it is refused; then the first one
that is refused is the failure. -/
theorem parse_text (o : Options) (d : Document) :
    parse o d.text = refuse o (d.constructs 0 0 []) (.ok d.meaning) := by
  have h := run_tree (o := o) d [] 0 [] (stops_nil _)
  rw [List.append_nil] at h
  have hdone : run o ⟨⟨0 + d.text.length, []⟩, [], .after d.meaning⟩ = .ok d.meaning :=
    run_of_done rfl
  rw [parse, State.initial, Cursor.start, h, hdone]
  rfl

end StrictJson.Syntax
