import StrictJson.Proofs.Syntax.Move

/-!
# Accepted Texts

Whatever the reader accepts is the text of a tree, and the value is its meaning. The proof goes from
the end of a run to its beginning. `Finishes` says of some bytes that they take what is open to the
end of the document; the last step leaves nothing open, and every step before it puts its token in
front of bytes that finish the state after it.

## Main definitions

* `Finishes`: bytes that finish the open containers after a value.
* `State.Finishes`: bytes that finish a state.

## Main results

* `finishes_of_move`: what one move preserves, seen from its end.
* `exists_document_of_parse`: an accepted text is that of a document with the value as its meaning.
-/

namespace StrictJson.Syntax

variable {o : Options}

/-! ### Finishing what is open -/

/-- The bytes **finish** a document with the value `w`, given the containers that are open and a
value that has just been read inside them. -/
inductive Finishes (w : Value) : List Frame → Value → List UInt8 → Prop
  /-- Nothing is open. -/
  | document (space : Space) : Finishes w [] w space.text
  /-- The value is the last item of its array. -/
  | lastItem {items : List Value} {outer : List Frame} {v : Value} {rest : List UInt8}
      (after : Space) : Finishes w outer (.array (v :: items).reverse) rest →
      Finishes w (.array items :: outer) v (after.text ++ 0x5d :: rest)
  /-- More items follow. -/
  | item {items : List Value} {outer : List Frame} {v : Value} {rest : List UInt8}
      (after : Space) (others : Tree .items) :
      Finishes w outer (.array ((v :: items).reverse ++ others.meaning)) rest →
      Finishes w (.array items :: outer) v
        (after.text ++ 0x2c :: (others.text ++ 0x5d :: rest))
  /-- The value is that of the last member of its object. -/
  | lastMember {members : List (String × Value)} {key : String} {outer : List Frame} {v : Value}
      {rest : List UInt8} (after : Space) :
      Finishes w outer (.object (Members.insert key v members)) rest →
      Finishes w (.object members key :: outer) v (after.text ++ 0x7d :: rest)
  /-- More members follow. -/
  | member {members : List (String × Value)} {key : String} {outer : List Frame} {v : Value}
      {rest : List UInt8} (after : Space) (others : Tree .members) :
      Finishes w outer (.object (Members.extend (Members.insert key v members) others.meaning))
        rest →
      Finishes w (.object members key :: outer) v
        (after.text ++ 0x2c :: (others.text ++ 0x7d :: rest))

/-- What a state still has to read **finishes** the document with the value `w`. -/
def State.Finishes (w : Value) (s : State) : Prop :=
  match s.goal with
  | .value => ∃ (before : Space) (t : Tree .value) (rest : List UInt8),
      s.cursor.rest = before.text ++ (t.text ++ rest) ∧ Syntax.Finishes w s.stack t.meaning rest
  | .key members => ∃ (t : Tree .members) (rest : List UInt8),
      s.cursor.rest = t.text ++ 0x7d :: rest ∧
        Syntax.Finishes w s.stack (.object (Members.extend members t.meaning)) rest
  | .after v => Syntax.Finishes w s.stack v s.cursor.rest

/-! ### White space in front -/

/-- White space may stand in front of what finishes a value. -/
theorem Finishes.space_append {w v : Value} {stack : List Frame} {rest : List UInt8}
    (h : Finishes w stack v rest) (space : Space) : Finishes w stack v (space.text ++ rest) := by
  cases h with
  | document after => exact .document (space.append after)
  | lastItem after h =>
      rw [← List.append_assoc]
      exact .lastItem (space.append after) h
  | item after others h =>
      rw [← List.append_assoc]
      exact .item (space.append after) others h
  | lastMember after h =>
      rw [← List.append_assoc]
      exact .lastMember (space.append after) h
  | member after others h =>
      rw [← List.append_assoc]
      exact .member (space.append after) others h

/-- White space may stand in front of members. -/
theorem Tree.exists_space_append (space : Space) (t : Tree .members) :
    ∃ t' : Tree .members, t'.text = space.text ++ t.text ∧ t'.meaning = t.meaning := by
  cases t with
  | lastMember label element =>
      refine ⟨.lastMember { label with before := space.append label.before } element, ?_, rfl⟩
      simp only [text, Label.text, Space.append, List.append_assoc]
  | member label element others =>
      refine ⟨.member { label with before := space.append label.before } element others, ?_, rfl⟩
      simp only [text, Label.text, Space.append, List.append_assoc]

section

variable {w : Value} {stack outer : List Frame} {goal : Goal} {p q : ℕ} {rest : List UInt8}

/-- White space may stand in front of what finishes a state. -/
theorem State.Finishes.space_append (h : State.Finishes w ⟨⟨q, rest⟩, stack, goal⟩)
    (space : Space) : State.Finishes w ⟨⟨p, space.text ++ rest⟩, stack, goal⟩ := by
  cases goal with
  | value =>
      obtain ⟨before, t, rest, rfl, hfin⟩ := h
      exact ⟨space.append before, t, rest, (List.append_assoc ..).symm, hfin⟩
  | key members =>
      obtain ⟨t, rest, rfl, hfin⟩ := h
      obtain ⟨t', htext, hmeaning⟩ := t.exists_space_append space
      refine ⟨t', rest, ?_, hmeaning ▸ hfin⟩
      rw [htext, List.append_assoc]
  | after v => exact Syntax.Finishes.space_append h space

/-! ### Steps -/

/-- A value inside an array that goes on to finish the document is the first of some items. -/
theorem exists_items {items : List Value}
    (h : State.Finishes w ⟨⟨p, rest⟩, .array items :: outer, .value⟩) :
    ∃ (t : Tree .items) (rest' : List UInt8), rest = t.text ++ 0x5d :: rest' ∧
      Finishes w outer (.array (items.reverse ++ t.meaning)) rest' := by
  obtain ⟨before, t, rest, rfl, hfin⟩ := h
  cases hfin with
  | lastItem after hfin =>
      rename_i rest
      refine ⟨.lastItem (.padded before t after), rest, ?_, ?_⟩
      · rw [Tree.text, Tree.text, List.append_assoc, List.append_assoc]
      · rwa [List.reverse_cons] at hfin
  | item after others hfin =>
      rename_i rest
      refine ⟨.item (.padded before t after) others, rest, ?_, ?_⟩
      · rw [Tree.text, Tree.text]
        simp only [List.append_assoc, List.cons_append]
      · rwa [List.reverse_cons, List.append_assoc] at hfin

/-- A label whose value goes on to finish the document is the first of some members. -/
theorem exists_members {members : List (String × Value)} (label : Label)
    (h : State.Finishes w ⟨⟨p, rest⟩, .object members label.string :: outer, .value⟩) :
    ∃ (t : Tree .members) (rest' : List UInt8),
      label.text ++ 0x3a :: rest = t.text ++ 0x7d :: rest' ∧
      Finishes w outer (.object (Members.extend members t.meaning)) rest' := by
  obtain ⟨before, t, rest, rfl, hfin⟩ := h
  cases hfin with
  | lastMember after hfin =>
      rename_i rest
      refine ⟨.lastMember label (.padded before t after), rest, ?_, hfin⟩
      rw [Tree.text, Tree.text]
      simp only [List.append_assoc, List.cons_append]
  | member after others hfin =>
      rename_i rest
      refine ⟨.member label (.padded before t after) others, rest, ?_, hfin⟩
      rw [Tree.text, Tree.text]
      simp only [List.append_assoc, List.cons_append]

/-- **A move puts its token in front** of what finishes the state after it. -/
theorem finishes_of_move {stack' : List Frame} {goal' : Goal} {token : List UInt8}
    {stops : UInt8 → Bool} (hmove : Move o stack goal token stops stack' goal')
    (h : State.Finishes w ⟨⟨q, rest⟩, stack', goal'⟩) :
    State.Finishes w ⟨⟨p, token ++ rest⟩, stack, goal⟩ := by
  cases hmove with
  | word word => exact ⟨.none, .word word, rest, rfl, h⟩
  | number n => exact ⟨.none, .number n, rest, rfl, h⟩
  | string ss hadmits => exact ⟨.none, .string ss, rest, rfl, h⟩
  | emptyArray space hdepth => exact ⟨.none, .emptyArray space, rest, rfl, h⟩
  | openArray space hdepth =>
      obtain ⟨t, rest', htext, hfin⟩ := exists_items (h.space_append (p := q) space)
      refine ⟨.none, .array t, rest', ?_, hfin⟩
      simp only [Space.none, Tree.text, htext, List.cons_append, List.append_assoc,
        List.nil_append]
  | emptyObject space hdepth => exact ⟨.none, .emptyObject space, rest, rfl, h⟩
  | openObject space hdepth =>
      obtain ⟨t, rest', htext, hfin⟩ := h.space_append (p := q) space
      refine ⟨.none, .object t, rest', ?_, hfin⟩
      simp only at htext
      simp only [Space.none, Tree.text, htext, List.cons_append, List.append_assoc,
        List.nil_append]
  | key ss after hadmits hfresh =>
      obtain ⟨t, rest', htext, hfin⟩ := exists_members ⟨.none, ss, after⟩ h
      refine ⟨t, rest', ?_, hfin⟩
      rw [← htext, Label.text]
      simp only [Space.none, List.append_assoc, List.nil_append, List.singleton_append]
  | nextItem =>
      obtain ⟨t, rest', rfl, hfin⟩ := exists_items h
      exact .item .none t hfin
  | closeArray => exact .lastItem .none h
  | nextMember =>
      obtain ⟨t, rest', rfl, hfin⟩ := h
      exact .member .none t hfin
  | closeObject => exact .lastMember .none h

/-- A step that goes on finishes its state if it leads to one that is finished. -/
theorem finishes_of_step {s next : State} (h : step o s = .ok (.more next))
    (hnext : next.Finishes w) : s.Finishes w := by
  obtain ⟨token, stops, hmove, -, htoken, -⟩ := step_eq_more_iff.1 h
  obtain ⟨space, hspace, -⟩ := exists_space s.cursor
  have hfin : State.Finishes w ⟨⟨0, token ++ next.cursor.rest⟩, s.stack, s.goal⟩ :=
    finishes_of_move hmove hnext
  have hfin' := hfin.space_append (p := s.cursor.position) space
  rwa [← htoken, ← hspace] at hfin'

/-- A run never ends at the start of a value. -/
theorem startValue_ne_done {c : Cursor} : startValue o stack c ≠ .ok (.done w) := by
  intro h
  rw [startValue] at h
  split at h
  · simp at h
  · split_ifs at h with hbrace hbracket
    · rw [openObject] at h
      split at h
      · simp at h
      · simp only at h
        split at h <;> simp at h
    · rw [openArray] at h
      split at h
      · simp at h
      · simp only at h
        split at h <;> simp at h
    all_goals
      rw [scalarRead.eq_def] at h
      split at h <;> simp at h

/-- A run never ends at a key. -/
theorem readKey_ne_done {members : List (String × Value)} {c : Cursor} :
    readKey o stack members c ≠ .ok (.done w) := by
  intro h
  rw [readKey] at h
  simp only at h
  repeat' split at h
  all_goals simp at h

/-- The last step leaves nothing open and nothing but white space unread. -/
theorem exists_space_of_done {s : State} (h : step o s = .ok (.done w)) :
    s.stack = [] ∧ s.goal = .after w ∧ ∃ space : Space, s.cursor.rest = space.text := by
  obtain ⟨space, hspace, -⟩ := exists_space s.cursor
  obtain ⟨cursor, stack, goal⟩ := s
  rw [step] at h
  cases goal with
  | value => exact absurd h startValue_ne_done
  | key members => exact absurd h readKey_ne_done
  | after v =>
      simp only [finishValue.eq_def] at h
      split at h
      · split at h
        · next hend =>
          obtain rfl := Outcome.done.inj (Except.ok.inj h)
          have hnil : cursor.skipSpace.rest = [] := List.head?_eq_none_iff.1 hend
          rw [hnil, List.append_nil] at hspace
          exact ⟨rfl, rfl, space, hspace⟩
        · simp at h
      all_goals
        split_ifs at h
        all_goals simp at h

/-- The last step finishes its state. -/
theorem finishes_of_done {s : State} (h : step o s = .ok (.done w)) : s.Finishes w := by
  obtain ⟨hstack, hgoal, space, hspace⟩ := exists_space_of_done h
  rw [State.Finishes, hstack, hgoal, hspace]
  exact .document space

end

/-! ### Runs -/

/-- **A run that succeeds finishes its state.** -/
theorem finishes_of_run {w : Value} {s : State} (h : run o s = .ok w) : s.Finishes w := by
  fun_induction run o s with
  | case1 s f hf => simp at h
  | case2 s v hv =>
      obtain rfl := Except.ok.inj h
      exact finishes_of_done hv
  | case3 s next hnext ih => exact finishes_of_step hnext (ih h)

/-- **An accepted text is that of a document**, and the value is its meaning. -/
theorem exists_document_of_parse {input : List UInt8} {v : Value} (h : parse o input = .ok v) :
    ∃ d : Document, d.text = input ∧ d.meaning = v := by
  obtain ⟨before, t, rest, htext, hfin⟩ := finishes_of_run h
  cases hfin with
  | document after =>
      refine ⟨.padded before t after, ?_, rfl⟩
      rw [Tree.text, List.append_assoc]
      exact htext.symm

end StrictJson.Syntax
