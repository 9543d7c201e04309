import Mathlib.Data.Set.Finite.Range
import StrictJson.Proofs.Syntax.Hindrance
import StrictJson.Proofs.Syntax.Reach

/-!
# More Input

What an error says about input that is longer or shorter. A run that fails gets to its last step
whatever is read there, so it is enough to look at that step.

If the input ends too early then more input helps. Whatever is open can be closed: where a value has
to follow `null` will do, where a key has to follow there is a key that the object does not have,
and then only closing brackets are missing. If something follows the value of the document then the
input before it is a document. And what the options refuse they refuse on what has been read to its
end, so nothing that is added later makes up for it.

## Main definitions

* `closing`: the brackets that close what is open.

## Main results

* `exists_completion`: an input that ends too early can be completed.
* `parse_error_more`: what an error says about longer and shorter input.
-/

namespace StrictJson.Syntax

variable {o : Options}

/-! ### Closing what is open -/

/-- The brackets that **close** the open containers, the innermost first. -/
def closing : List Frame → List UInt8
  | [] => []
  | .array _ :: outer => 0x5d :: closing outer
  | .object _ _ :: outer => 0x7d :: closing outer

/-- Brackets are delimiters. -/
theorem delimited_closing (stack : List Frame) : Delimited (closing stack) := by
  cases stack with
  | nil => exact stops_nil _
  | cons frame outer => cases frame <;> exact delimited_cons rfl

/-- Behind a value the closing brackets **end the document**. -/
theorem exists_run_closing (o : Options) (stack : List Frame) (v : Value) (p : ℕ) :
    ∃ w, run o ⟨⟨p, closing stack⟩, stack, .after v⟩ = .ok w := by
  induction stack generalizing v p with
  | nil => exact ⟨v, run_of_done rfl⟩
  | cons frame outer ih =>
      cases frame with
      | array items =>
          rw [closing, run_of_more step_closeArray]
          exact ih _ _
      | object members key =>
          rw [closing, run_of_more step_closeObject]
          exact ih _ _

/-- Where a value has to follow, null and the closing brackets end the document. -/
theorem exists_run_null (o : Options) (stack : List Frame) (p : ℕ) :
    ∃ w, run o ⟨⟨p, Word.null.text ++ closing stack⟩, stack, .value⟩ = .ok w := by
  rw [run_of_more (step_word .null (delimited_closing stack).stops_isLetter)]
  exact exists_run_closing o stack _ _

/-! ### Fresh keys -/

/-- A letter as it is. -/
def letterSpelling : Spelling :=
  ⟨String.utf8EncodeChar 'a', 'a', .plain (by decide) (by decide) (by decide)⟩

/-- A row of one letter. -/
def letters (n : ℕ) : List Spelling :=
  List.replicate n letterSpelling

theorem spelledString_letters (n : ℕ) :
    spelledString (letters n) = String.ofList (List.replicate n 'a') := by
  rw [spelledString, letters, List.map_replicate]
  rfl

/-- Rows of letters have no character that could be refused. -/
theorem admitsText_letters (o : Options) (n : ℕ) :
    o.AdmitsText (spelledString (letters n)) := by
  intro _ hmem
  rw [spelledString_letters, String.toList_ofList] at hmem
  exact absurd (List.eq_of_mem_replicate hmem) (by decide)

/-- Every object **lacks** one of the rows of letters as a key. -/
theorem exists_letters_not_mem (members : List (String × Value)) :
    ∃ n, Members.contains (spelledString (letters n)) members = false := by
  have hinj : Function.Injective fun n => spelledString (letters n) := by
    intro m n h
    simp only [spelledString_letters, String.ofList_inj] at h
    simpa using congrArg List.length h
  obtain ⟨_, ⟨n, rfl⟩, hn⟩ := (Set.infinite_range_of_injective hinj).exists_notMem_finset
    (members.map Prod.fst).toFinset
  rw [List.mem_toFinset, ← Members.contains_iff] at hn
  exact ⟨n, Bool.eq_false_iff.2 hn⟩

/-- Behind a key, a colon, null and the closing brackets end the document. -/
theorem exists_run_colon {ss : List Spelling} {members : List (String × Value)} (after : Space)
    (hadmits : o.AdmitsText (spelledString ss))
    (hfresh : ¬ (o.rejectDuplicates = true ∧ Members.contains (spelledString ss) members = true))
    (stack : List Frame) (p : ℕ) :
    ∃ w, run o ⟨⟨p, quotedText ss ++ (after.text ++ [0x3a]) ++ (Word.null.text ++
      closing (.object members (spelledString ss) :: stack))⟩, stack, .key members⟩ = .ok w := by
  rw [run_of_more (step_of_move (.key ss after hadmits hfresh) fun _ _ => rfl)]
  exact exists_run_null o _ _

/-! ### Completions -/

section

variable {stack : List Frame} {goal : Goal} {bytes : List UInt8} {p : ℕ}

/-- Bytes can be added to others if the goal admits them where there are no others. -/
theorem Goal.replaces_self_append {more : List UInt8}
    (h : bytes = [] → ∀ b ∈ more.head?, goal.Admits b) :
    goal.Replaces bytes (bytes ++ more) := by
  cases bytes with
  | nil => exact fun b hb => .inr (h rfl b hb)
  | cons x xs => exact fun b hb => .inl hb

/-- **Where the input ends too early it can be completed**, and that is where it ends. -/
theorem exists_completion {wanted : Expectation} {q : ℕ}
    (h : Hindrance o p stack goal bytes ⟨.unexpected wanted none, q⟩) :
    q = p + bytes.length ∧ ∃ more w, goal.Replaces bytes (bytes ++ more) ∧
      run o ⟨⟨p, bytes ++ more⟩, stack, goal⟩ = .ok w := by
  cases h with
  | flaw hflaw => exact hflaw.elim
  | refused hrefusal hstep => exact hrefusal.elim
  | ended space hgoal =>
      refine ⟨rfl, ?_⟩
      cases goal with
      | value =>
          obtain ⟨w, hw⟩ := exists_run_null o stack (p + space.text.length)
          refine ⟨_, w, Goal.replaces_self_append fun _ b hb => ?_, by rw [run_space, hw]⟩
          obtain rfl := Option.some.inj hb
          exact ⟨by decide, by decide⟩
      | key members =>
          obtain ⟨n, hn⟩ := exists_letters_not_mem members
          have hfresh : ¬ (o.rejectDuplicates = true ∧
              Members.contains (spelledString (letters n)) members = true) := by simp [hn]
          obtain ⟨w, hw⟩ := exists_run_colon .none (admitsText_letters o n) hfresh stack
            (p + space.text.length)
          refine ⟨_, w, Goal.replaces_self_append fun _ b hb => ?_, by rw [run_space, hw]⟩
          obtain rfl := Option.some.inj hb
          exact ⟨by decide, by decide⟩
      | after v =>
          obtain ⟨w, hw⟩ := exists_run_closing o stack v (p + space.text.length)
          refine ⟨_, w, Goal.replaces_self_append fun _ b hb => ?_, by rw [run_space, hw]⟩
          exact delimited_closing stack b hb
  | endedAtColon before ss after hadmits hfresh =>
      rename_i members
      refine ⟨rfl,
        0x3a :: (Word.null.text ++ closing (.object members (spelledString ss) :: stack)), ?_⟩
      obtain ⟨w, hw⟩ := exists_run_colon after hadmits hfresh stack (p + before.text.length)
      refine ⟨w, Goal.replaces_self_append ?_, ?_⟩
      · intro hnil
        simp [quotedText] at hnil
      · rw [List.append_assoc, run_space]
        simpa only [List.append_assoc, List.singleton_append] using hw

/-! ### Where something follows, and what is refused -/

/-- Where something follows the value of the document, **the document ends before it**. -/
theorem run_of_trailing {b : UInt8} {q : ℕ}
    (h : Hindrance o p stack goal bytes ⟨.trailing b, q⟩) :
    ∃ (space : Space) (rest : List UInt8) (w : Value), bytes = space.text ++ b :: rest ∧
      isSpace b = false ∧ q = p + space.text.length ∧
      run o ⟨⟨p, space.text⟩, stack, goal⟩ = .ok w := by
  cases h with
  | flaw hflaw => exact hflaw.elim
  | refused hrefusal hstep => exact hrefusal.elim
  | trailing space rest hb =>
      rename_i v
      exact ⟨space, rest, v, rfl, hb, rfl, run_blank space p v⟩

/-- The faults that more input **does not mend**: something follows the document, or the options
refuse what is there. -/
def Fault.IsFinal (f : Fault) : Prop :=
  f.IsRefusal ∨ ∃ b, f = .trailing b

/-- Where nothing is left a step fails for want of something. -/
theorem exists_unexpected_of_step_nil {f : Failure}
    (h : step o ⟨⟨p, []⟩, stack, goal⟩ = .error f) :
    ∃ wanted, f = ⟨.unexpected wanted none, p⟩ := by
  cases goal with
  | value => exact ⟨.value, (Except.error.inj h).symm⟩
  | key members => exact ⟨.key, (Except.error.inj h).symm⟩
  | after v =>
      cases stack with
      | nil => exact absurd h (by simp [step, finishValue, Cursor.skipSpace, Cursor.skipWhile,
          Cursor.advance, Cursor.peek?])
      | cons frame outer =>
          cases frame with
          | array items => exact ⟨.arrayEnd, (Except.error.inj h).symm⟩
          | object members key => exact ⟨.objectEnd, (Except.error.inj h).symm⟩

/-- A byte behind the value of the document fails whatever follows it. -/
theorem step_trailing {v : Value} (space : Space) {b : UInt8} (hb : isSpace b = false)
    (rest : List UInt8) :
    step o ⟨⟨p, space.text ++ b :: rest⟩, [], .after v⟩ =
      .error ⟨.trailing b, p + space.text.length⟩ := by
  rw [step_space, step, Cursor.skipSpace_of_stops (stops_cons.2 hb)]
  rfl

/-- No flaw of a token is final: more input can make another token of it. -/
theorem Fault.IsFlaw.not_isFinal {f : Fault} (h : f.IsFlaw) : ¬ f.IsFinal := by
  rintro (hrefusal | ⟨b, rfl⟩)
  · cases f with
    | tooDeep | duplicateKey | nul => exact h
    | _ => exact hrefusal
  · exact h

/-- What is final **stays so whatever is added**. -/
theorem step_append_of_isFinal {f : Failure} (h : Hindrance o p stack goal bytes f)
    (hf : f.fault.IsFinal) (more : List UInt8) :
    step o ⟨⟨p, bytes ++ more⟩, stack, goal⟩ = .error f := by
  cases h with
  | flaw hflaw => exact absurd hf hflaw.not_isFinal
  | misplaced | ended space hgoal | endedAtColon before ss after hadmits hfresh =>
      simp [Fault.IsFinal, Fault.IsRefusal] at hf
  | trailing space rest hb =>
      rw [List.append_assoc, List.cons_append]
      exact step_trailing space hb (rest ++ more)
  | refused hrefusal hstep => exact hstep more

end

/-! ### Codes -/

/-- The code for an input that ends too early is that of one fault. -/
theorem code_eq_premature_iff {f : Fault} :
    f.code = .prematureEndOfInput ↔ ∃ wanted, f = .unexpected wanted none := by
  cases f with
  | unexpected wanted found => cases found <;> simp [Fault.code]
  | nul role => cases role <;> simp [Fault.code]
  | _ => simp [Fault.code]

/-- The code for what follows a document is that of one fault. -/
theorem code_eq_endExpected_iff {f : Fault} :
    f.code = .endOfInputExpected ↔ ∃ b, f = .trailing b := by
  cases f with
  | unexpected wanted found => cases found <;> simp [Fault.code]
  | nul role => cases role <;> simp [Fault.code]
  | _ => simp [Fault.code]

/-- The codes of what more input does not mend. -/
theorem isFinal_iff {f : Fault} :
    f.IsFinal ↔ f.code ∈ [ErrorCode.endOfInputExpected, .stackOverflow, .duplicateKey,
      .nullCharacter, .nullByteInKey] := by
  cases f with
  | unexpected wanted found => cases found <;> simp [Fault.IsFinal, Fault.IsRefusal, Fault.code]
  | nul role => cases role <;> simp [Fault.IsFinal, Fault.IsRefusal, Fault.code]
  | _ => simp [Fault.IsFinal, Fault.IsRefusal, Fault.code]

/-! ### Documents -/

/-- **An error says what more input can do.**

If the input ends too early then the error is at its end, and something can be added to make it a
document. If something follows the document then the error is at the first byte of it that is no
white space, and the input before that byte is a document. Nothing that is added mends a document
that has something behind it, or that the options refuse: the error stays the same. -/
theorem parse_error_more (o : Options) (input : List UInt8) (f : Failure)
    (h : parse o input = .error f) :
    (f.toError.code = .prematureEndOfInput →
      f.toError.offset = some input.length ∧ ∃ more v, parse o (input ++ more) = .ok v) ∧
    (f.toError.code = .endOfInputExpected → ∃ k b v, f.toError.offset = some k ∧
      k < input.length ∧ input[k]? = some b ∧ isSpace b = false ∧
      parse o (input.take k) = .ok v) ∧
    (f.toError.code ∈ [ErrorCode.endOfInputExpected, .stackOverflow, .duplicateKey,
        .nullCharacter, .nullByteInKey] →
      ∀ more, parse o (input ++ more) = .error f) := by
  obtain ⟨text, rest, stack, goal, hinput, hstep, hlast⟩ := exists_last_of_run h
  have hparse : ∀ bytes, parse o bytes = run o ⟨⟨0, bytes⟩, [], .value⟩ := fun _ => rfl
  simp only [State.initial, Cursor.start, Nat.zero_add] at hinput hstep hlast
  have hreason := hindrance_of_step hstep
  subst hinput
  obtain ⟨fault, q⟩ := f
  refine ⟨fun hcode => ?_, fun hcode => ?_, fun hcode more => ?_⟩
  · obtain ⟨wanted, rfl⟩ := code_eq_premature_iff.1 hcode
    obtain ⟨rfl, more, w, hmore, hw⟩ := exists_completion hreason
    refine ⟨congrArg some List.length_append.symm, more, w, ?_⟩
    rw [hparse, List.append_assoc, (hlast _ hmore).2, hw]
  · obtain ⟨b, rfl⟩ := code_eq_endExpected_iff.1 hcode
    obtain ⟨space, tail, w, rfl, hb, rfl, hw⟩ := run_of_trailing hreason
    have hspace : goal.Replaces (space.text ++ b :: tail) space.text := by
      intro x hx
      exact .inl (List.mem_head?_append_of_mem_head? hx)
    have htake : (text ++ (space.text ++ b :: tail)).take (text.length + space.text.length) =
        text ++ space.text := by
      rw [← List.append_assoc]
      exact List.take_left' List.length_append
    have hget : (text ++ (space.text ++ b :: tail))[text.length + space.text.length]? = some b := by
      simp
    refine ⟨_, b, w, rfl, (List.getElem?_eq_some_iff.1 hget).1, hget, hb, ?_⟩
    rw [htake, hparse, (hlast _ hspace).2, hw]
  · have hfinal := isFinal_iff.2 hcode
    have hmore : goal.Replaces rest (rest ++ more) := by
      refine Goal.replaces_self_append fun hnil => ?_
      obtain ⟨wanted, hwanted⟩ := exists_unexpected_of_step_nil (hnil ▸ hstep)
      obtain rfl := (Failure.mk.inj hwanted).1
      simp [Fault.IsFinal, Fault.IsRefusal] at hfinal
    rw [hparse, List.append_assoc, (hlast _ hmore).2, run_eq,
      step_append_of_isFinal hreason hfinal]

/-- The text `[null` ends too early and can be completed, and nothing helps the text `null,`. -/
theorem parse_error_more_null :
    parse {} [0x5b, 0x6e, 0x75, 0x6c, 0x6c] = .error ⟨.unexpected .arrayEnd none, 5⟩ ∧
      (∃ more v, parse {} ([0x5b, 0x6e, 0x75, 0x6c, 0x6c] ++ more) = .ok v) ∧
      parse {} [0x6e, 0x75, 0x6c, 0x6c, 0x2c] = .error ⟨.trailing 0x2c, 4⟩ ∧
      ∀ more, parse {} ([0x6e, 0x75, 0x6c, 0x6c, 0x2c] ++ more) = .error ⟨.trailing 0x2c, 4⟩ := by
  have hopen : parse {} [0x5b, 0x6e, 0x75, 0x6c, 0x6c] =
      run {} ⟨⟨1, [0x6e, 0x75, 0x6c, 0x6c]⟩, [.array []], .value⟩ :=
    run_of_more (step_of_move (p := 0) (.openArray .none (by decide)) (stops_cons.2 rfl))
  have hnull : run {} ⟨⟨1, [0x6e, 0x75, 0x6c, 0x6c]⟩, [.array []], .value⟩ =
      run {} ⟨⟨5, []⟩, [.array []], .after .null⟩ :=
    run_of_more (step_of_move (p := 1) (.word .null) (stops_nil _))
  have hearly : parse {} [0x5b, 0x6e, 0x75, 0x6c, 0x6c] =
      .error ⟨.unexpected .arrayEnd none, 5⟩ := by
    rw [hopen, hnull, run_eq]
    rfl
  have hcomma : parse {} [0x6e, 0x75, 0x6c, 0x6c, 0x2c] =
      run {} ⟨⟨4, [0x2c]⟩, [], .after .null⟩ :=
    run_of_more (step_of_move (p := 0) (.word .null) (stops_cons.2 rfl))
  have htrailing : parse {} [0x6e, 0x75, 0x6c, 0x6c, 0x2c] = .error ⟨.trailing 0x2c, 4⟩ := by
    rw [hcomma, run_eq]
    rfl
  obtain ⟨hcompletion, -, -⟩ := parse_error_more _ _ _ hearly
  obtain ⟨-, -, hfinal⟩ := parse_error_more _ _ _ htrailing
  exact ⟨hearly, (hcompletion rfl).2, htrailing, hfinal (by decide)⟩

end StrictJson.Syntax
