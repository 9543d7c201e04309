import StrictJson.Proofs.Syntax.Grammar
import StrictJson.Proofs.Syntax.Nesting
import StrictJson.Proofs.Syntax.Offence

/-!
# Options Only Restrict

Two statements about readers with different options. A text that is accepted without any refusals is
accepted under other options exactly if it has no offence, and if it has one then the first one is
the failure. And on any text at all, also on one that is no document, stricter options give the same
result or a failure that is **owed** to them: one that only their choice can bring about. The second
statement is a simulation, step by step, of one reader by the other.

## Main definitions

* `Options.Owes`, `Restricts`

## Main results

* `step_restricts`, `run_restricts`: a stricter reader does the same or fails by its own choice.
* `parse_restricted`: both statements.
-/

namespace StrictJson.Syntax

variable {o o' : Options} {α : Type}

/-! ### Failures by choice -/

/-- The fault is **owed** to the options `o`: they refuse where `o'` does not. -/
inductive Options.Owes (o o' : Options) : Fault → Prop
  /-- Fewer containers may be open. -/
  | tooDeep : o.maxDepth < o'.maxDepth → Owes o o' (.tooDeep o.maxDepth)
  /-- Keys must be distinct. -/
  | duplicateKey {key : String} : o.rejectDuplicates = true → o'.rejectDuplicates = false →
      Owes o o' (.duplicateKey key)
  /-- The character of number zero is not allowed. -/
  | nul {role : Role} : o.allowNul = false → o'.allowNul = true → Owes o o' (.nul role)

/-- The result `r` **restricts** `r'`: it is the same or a failure that is owed to `o`. -/
def Restricts (o o' : Options) (r r' : Except Failure α) : Prop :=
  r = r' ∨ ∃ f, r = .error f ∧ o.Owes o' f.fault

theorem Restricts.refl (r : Except Failure α) : Restricts o o' r r := .inl rfl

/-- What comes after a result keeps the restriction. -/
theorem Restricts.map {β : Type} {r r' : Except Failure α} (h : Restricts o o' r r') (f : α → β) :
    Restricts o o' (r.map f) (r'.map f) := by
  obtain rfl | ⟨e, rfl, he⟩ := h
  · exact .inl rfl
  · exact .inr ⟨e, rfl, he⟩

/-! ### Strings -/

theorem readNumericEscape_restricts (h : o.Stricter o') (role : Role) (c : Cursor) :
    Restricts o o' (readNumericEscape o role c) (readNumericEscape o' role c) := by
  rw [readNumericEscape, readNumericEscape]
  split
  · exact .refl _
  · next unit hu =>
    split_ifs with hhigh hlow hnul hnul' hnul'
    · exact .refl _
    · exact .refl _
    · exact .refl _
    · refine .inr ⟨_, rfl, .nul hnul.2 ?_⟩
      by_contra hallow
      exact hnul' ⟨hnul.1, Bool.eq_false_iff.2 hallow⟩
    · refine absurd ⟨hnul'.1, ?_⟩ hnul
      by_contra hallow
      have := h.allowNul (by simpa using hallow)
      exact Bool.false_ne_true (hnul'.2.symm.trans this)
    · exact .refl _

theorem readElement_restricts (h : o.Stricter o') (context : StringContext) (c : Cursor) :
    Restricts o o' (readElement o context c) (readElement o' context c) := by
  have hescape : Restricts o o' (readEscape o context c) (readEscape o' context c) := by
    rw [readEscape, readEscape]
    split
    · exact .refl _
    · split
      · exact .refl _
      · split_ifs
        · exact readNumericEscape_restricts h ..
        · exact .refl _
  rw [readElement, readElement]
  split
  · exact .refl _
  · split_ifs
    · exact .refl _
    · exact hescape.map _
    · exact .refl _
    · exact .refl _

theorem readElements_restricts (h : o.Stricter o') (context : StringContext) (c : Cursor) :
    Restricts o o' (readElements o context c) (readElements o' context c) := by
  induction hn : c.rest.length using Nat.strong_induction_on generalizing c with
  | _ n ih =>
      rw [readElements_eq, readElements_eq o']
      obtain heq | ⟨f, hf, howed⟩ := readElement_restricts h context c
      · rw [heq]
        split
        · exact .refl _
        · exact .refl _
        · next char next hnext =>
          exact (ih _ (hn ▸ readElement_progress hnext) next rfl).map _
      · rw [hf]
        exact .inr ⟨f, rfl, howed⟩

theorem readString_restricts (h : o.Stricter o') (role : Role) (c : Cursor) :
    Restricts o o' (readString o role c) (readString o' role c) := by
  rw [readString, readString]
  obtain heq | ⟨f, hf, howed⟩ := readElements_restricts h ⟨role, c.position⟩ (c.advance 1)
  · rw [heq]
    exact .refl _
  · rw [hf]
    exact .inr ⟨f, rfl, howed⟩

/-! ### Steps -/

theorem checkDepth_restricts (h : o.Stricter o') (stack : List Frame) (c : Cursor) :
    Restricts o o' (checkDepth o stack c) (checkDepth o' stack c) := by
  have hdepth := h.maxDepth
  rw [checkDepth, checkDepth]
  split_ifs with hlt hlt' hlt'
  · exact .refl _
  · omega
  · exact .inr ⟨_, rfl, .tooDeep (by omega)⟩
  · rcases eq_or_lt_of_le hdepth with heq | hdepth
    · rw [heq]
      exact .refl _
    · exact .inr ⟨_, rfl, .tooDeep hdepth⟩

theorem openObject_restricts (h : o.Stricter o') (stack : List Frame) (c : Cursor) :
    Restricts o o' (openObject o stack c) (openObject o' stack c) := by
  rw [openObject, openObject]
  obtain heq | ⟨f, hf, howed⟩ := checkDepth_restricts h stack c
  · rw [heq]
    exact .refl _
  · rw [hf]
    exact .inr ⟨f, rfl, howed⟩

theorem openArray_restricts (h : o.Stricter o') (stack : List Frame) (c : Cursor) :
    Restricts o o' (openArray o stack c) (openArray o' stack c) := by
  rw [openArray, openArray]
  obtain heq | ⟨f, hf, howed⟩ := checkDepth_restricts h stack c
  · rw [heq]
    exact .refl _
  · rw [hf]
    exact .inr ⟨f, rfl, howed⟩

theorem startValue_restricts (h : o.Stricter o') (stack : List Frame) (c : Cursor) :
    Restricts o o' (startValue o stack c) (startValue o' stack c) := by
  rw [startValue, startValue]
  split
  · exact .refl _
  · split_ifs
    · exact openObject_restricts h ..
    · exact openArray_restricts h ..
    · obtain heq | ⟨f, hf, howed⟩ := readString_restricts h .value c
      · rw [heq]
        exact .refl _
      · rw [hf]
        exact .inr ⟨f, rfl, howed⟩
    · exact .refl _
    · exact .refl _
    · exact .refl _

theorem readKey_restricts (h : o.Stricter o') (stack : List Frame)
    (members : List (String × Value)) (c : Cursor) :
    Restricts o o' (readKey o stack members c) (readKey o' stack members c) := by
  rw [readKey, readKey]
  split_ifs
  · obtain heq | ⟨f, hf, howed⟩ := readString_restricts h .key c
    · rw [heq]
      split
      · exact .refl _
      · next key next hkey =>
        split_ifs with hdup hdup' hdup'
        · exact .refl _
        · refine .inr ⟨_, rfl, .duplicateKey hdup.1 (Bool.eq_false_iff.2 fun ho' => ?_)⟩
          exact hdup' ⟨ho', hdup.2⟩
        · exact absurd ⟨h.rejectDuplicates hdup'.1, hdup'.2⟩ hdup
        · exact .refl _
    · rw [hf]
      exact .inr ⟨f, rfl, howed⟩
  · exact .refl _

/-- **A step of the stricter reader** is a step of the other one or fails by its own choice. -/
theorem step_restricts (h : o.Stricter o') (s : State) :
    Restricts o o' (step o s) (step o' s) := by
  obtain ⟨cursor, stack, goal⟩ := s
  rw [step, step]
  cases goal with
  | value => exact startValue_restricts h ..
  | key members => exact readKey_restricts h ..
  | after v => exact .refl _

/-! ### Runs -/

/-- **A run of the stricter reader** ends as that of the other one or fails by its own choice. -/
theorem run_restricts (h : o.Stricter o') (s : State) : Restricts o o' (run o s) (run o' s) := by
  induction hn : s.cursor.rest.length using Nat.strong_induction_on generalizing s with
  | _ n ih =>
      rw [run_eq, run_eq o']
      obtain heq | ⟨f, hf, howed⟩ := step_restricts h s
      · rw [heq]
        split
        · exact .refl _
        · exact .refl _
        · next next hnext => exact ih _ (hn ▸ step_progress hnext) next rfl
      · rw [hf]
        exact .inr ⟨f, rfl, howed⟩

/-- A document is read as its meaning exactly if it is not nested too deep, repeats a key only where
that is allowed and escapes the character of number zero only where that is allowed. -/
theorem parse_text_eq_ok_iff {o : Options} {d : Document} :
    parse o d.text = .ok d.meaning ↔ nesting d.text ≤ o.maxDepth ∧
      (o.rejectDuplicates = true → d.KeysDistinct) ∧ (o.allowNul = false → d.NulFree) := by
  rw [parse_text, refuse_eq_ok_iff, Tree.forall_refusal?_eq_none_iff, nesting_text]

/-- **Options only restrict, and exactly by their stated conditions.**

If lax options accept a text with the value `v`, then the text is a document, and any options accept
it with the same value exactly if it is not nested deeper than they allow, if no object in it
repeats a key unless they allow that, and if no escape in it spells the character of number zero
unless they allow that. Otherwise the failure is the one at the first offence.

On every text, options that refuse at least as much as others give the same result or a failure that
only their additional refusals explain. -/
theorem parse_restricted (o : Options) (input : List UInt8) :
    (∀ (lax : Options) (v : Value), lax.Lax input.length → parse lax input = .ok v →
      (∃ d : Document, d.text = input) ∧ ∀ d : Document, d.text = input → d.meaning = v ∧
        (parse o input = .ok v ↔ nesting input ≤ o.maxDepth ∧
          (o.rejectDuplicates = true → d.KeysDistinct) ∧ (o.allowNul = false → d.NulFree)) ∧
        (parse o input ≠ .ok v → ∃ f, parse o input = .error f ∧ IsFirstOffence o d f)) ∧
    ∀ o' : Options, o.Stricter o' → parse o input = parse o' input ∨
      ∃ f, parse o input = .error f ∧ o.Owes o' f.fault := by
  refine ⟨fun lax v hlax hv => ?_, fun o' h => run_restricts h (.initial input)⟩
  obtain ⟨d, hd, -⟩ := exists_document_of_parse hv
  refine ⟨⟨d, hd⟩, ?_⟩
  rintro d rfl
  obtain rfl : d.meaning = v := Except.ok.inj (hlax.parse_text.symm.trans hv)
  refine ⟨rfl, parse_text_eq_ok_iff, fun hne => ?_⟩
  rw [parse_text] at hne ⊢
  obtain ⟨f, hf⟩ | hnone := refuse_cases o (d.constructs 0 0 [])
  · exact ⟨f, hf _, isFirstOffence_of_refuse_eq_error (hf (.ok d.meaning))⟩
  · exact absurd (hnone _) hne

/-- The text `[]` is refused at its bracket by options that allow no container. -/
theorem parse_restricted_emptyArray :
    (⟨2, false, true⟩ : Options).Lax 2 ∧
      parse ⟨2, false, true⟩ [0x5b, 0x5d] = .ok (.array []) ∧
      (⟨0, false, true⟩ : Options).Stricter ⟨2, false, true⟩ ∧
      parse ⟨0, false, true⟩ [0x5b, 0x5d] = .error ⟨.tooDeep 0, 0⟩ := by
  have hlax : (⟨2, false, true⟩ : Options).Lax 2 := ⟨le_refl 2, rfl, rfl⟩
  have hstricter : (⟨0, false, true⟩ : Options).Stricter ⟨2, false, true⟩ := ⟨by decide, id, id⟩
  let d : Document := .padded .none (.emptyArray .none) .none
  have hparse : parse ⟨2, false, true⟩ [0x5b, 0x5d] = .ok (.array []) :=
    Options.Lax.parse_text (d := d) hlax
  refine ⟨hlax, hparse, hstricter, ?_⟩
  obtain ⟨hfirst, hsecond⟩ := parse_restricted ⟨0, false, true⟩ [0x5b, 0x5d]
  obtain heq | ⟨f, hf, -⟩ := hsecond _ hstricter
  · have hdeep := (((hfirst _ _ hlax hparse).2 d rfl).2.1.1 (heq.trans hparse)).1
    exact absurd hdeep (by decide)
  · obtain ⟨g, hg, construct, hmem, hoffends, -⟩ :=
      ((hfirst _ _ hlax hparse).2 d rfl).2.2 (by simp [hf])
    obtain rfl : construct = .bracket 0 0 := List.mem_singleton.1 hmem
    cases hoffends
    exact hg

end StrictJson.Syntax
