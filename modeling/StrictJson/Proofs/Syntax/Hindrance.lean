import StrictJson.Proofs.Syntax.Move

/-!
# Hindrances

What a step of the reader can fail for, said once for all steps that fail. The input may end where
something has to follow, or something else may stand there, and a token may be spelled wrong. Behind
a value that was wanted alone something may follow. And what is there may be refused by the options,
which they decide on what has been read to its end: a bracket, a key, or an escape.

## Main definitions

* `Fault.IsFlaw`: the faults in the spelling of a token.
* `Hindrance`: the reasons why a step fails.

## Main results

* `hindrance_of_step`: a step that fails has one of these reasons.
-/

namespace StrictJson.Syntax

variable {o : Options}

/-! ### Flaws of tokens -/

/-- The **flaws** of a token: what can be wrong with its spelling. -/
def Fault.IsFlaw : Fault → Prop
  | .unexpected .. | .trailing _ | .tooDeep _ | .duplicateKey _ | .nul _ => False
  | _ => True

/-- The faults by which the options **refuse** something. -/
def Fault.IsRefusal : Fault → Prop
  | .tooDeep _ | .duplicateKey _ | .nul _ => True
  | _ => False

theorem isFlaw_of_scanWhole {bytes : List UInt8} {f : Fault}
    (h : Numeral.scanWhole bytes = .error f) : f.IsFlaw := by
  rw [Numeral.scanWhole] at h
  split at h
  · exact Except.error.inj h ▸ trivial
  · exact Except.error.inj h ▸ trivial
  · simp at h

theorem isFlaw_of_scanFraction {bytes : List UInt8} {f : Fault}
    (h : Numeral.scanFraction bytes = .error f) : f.IsFlaw := by
  rw [Numeral.scanFraction.eq_def] at h
  split at h
  · split at h
    · exact Except.error.inj h ▸ trivial
    · simp at h
  · simp at h

theorem isFlaw_of_scanExponent {bytes : List UInt8} {f : Fault}
    (h : Numeral.scanExponent bytes = .error f) : f.IsFlaw := by
  rw [Numeral.scanExponent.eq_def] at h
  split at h
  · simp at h
  · split_ifs at h
    simp only at h
    split at h
    · exact Except.error.inj h ▸ trivial
    · simp at h

/-- A numeral that is not scanned has a flaw. -/
theorem isFlaw_of_scan {bytes : List UInt8} {f : Fault} (h : Numeral.scan bytes = .error f) :
    f.IsFlaw := by
  simp only [Numeral.scan] at h
  split at h
  · next g hg => exact isFlaw_of_scanWhole (Except.error.inj h ▸ hg)
  · split at h
    · next g hg => exact isFlaw_of_scanFraction (Except.error.inj h ▸ hg)
    · split at h
      · next g hg => exact isFlaw_of_scanExponent (Except.error.inj h ▸ hg)
      · simp at h

/-- A number that is not read has a flaw. -/
theorem isFlaw_of_readNumber {c : Cursor} {f : Failure} (h : readNumber c = .error f) :
    f.fault.IsFlaw := by
  rw [readNumber] at h
  split at h
  · next g hg =>
    obtain rfl := Except.error.inj h
    exact isFlaw_of_scan hg
  · split at h
    · simp at h
    · obtain rfl := Except.error.inj h
      trivial

/-- A word that is not read has a flaw. -/
theorem isFlaw_of_readWord {c : Cursor} {f : Failure} (h : readWord c = .error f) :
    f.fault.IsFlaw := by
  simp only [readWord] at h
  split at h
  · simp at h
  · obtain rfl := Except.error.inj h
    trivial

/-! ### Strings -/

/-- Four digits that are not read have a flaw. -/
theorem isFlaw_of_readUnit {c : Cursor} {f : Failure} (h : readUnit c = .error f) :
    f.fault.IsFlaw := by
  simp only [readUnit] at h
  split_ifs at h
  · obtain rfl := Except.error.inj h
    trivial
  · split at h
    · simp at h
    · obtain rfl := Except.error.inj h
      trivial

/-- An escape that is not read has a flaw, or it is that of the character of number zero. -/
theorem isFlaw_or_nul_of_readNumericEscape {role : Role} {c : Cursor} {bytes : List UInt8}
    {f : Failure} (hc : c.rest = 0x5c :: 0x75 :: bytes)
    (h : readNumericEscape o role c = .error f) :
    f.fault.IsFlaw ∨ ∃ rest, c.rest = nulEscape ++ rest := by
  rw [readNumericEscape] at h
  split at h
  · next g hg => exact .inl (Except.error.inj h ▸ isFlaw_of_readUnit hg)
  · next unit hunit =>
    split_ifs at h with hhigh hlow hnul
    · refine .inl ?_
      rw [readLowHalf] at h
      split at h
      · split at h
        · next g hg => exact Except.error.inj h ▸ isFlaw_of_readUnit hg
        · split_ifs at h
          exact Except.error.inj h ▸ trivial
      · exact Except.error.inj h ▸ trivial
    · exact .inl (Except.error.inj h ▸ trivial)
    · obtain ⟨digits, hdigits, hrest⟩ := spellsUnit_of_readUnit hunit
      have hspells : Spells (0x5c :: 0x75 :: digits) '\x00' := by
        have := Spells.unit hdigits (by omega)
        rwa [hnul.1] at this
      refine .inr ⟨((c.advance 2).advance 4).rest, ?_⟩
      rw [← spells_nul_iff.1 hspells, List.cons_append, List.cons_append, ← hrest,
        Cursor.rest_advance, hc]
      rfl

/-- An element that is not read has a flaw, or it is the escape of the character of number zero. -/
theorem isFlaw_or_nul_of_readElement {context : StringContext} {c : Cursor} {f : Failure}
    (h : readElement o context c = .error f) :
    f.fault.IsFlaw ∨ ∃ rest, c.rest = nulEscape ++ rest := by
  rw [readElement] at h
  split at h
  · exact .inl (Except.error.inj h ▸ trivial)
  · next b hb =>
    split_ifs at h with hmark hback hcontrol
    · cases hescape : readEscape o context c with
      | ok r => simp [hescape, Except.map] at h
      | error g =>
          rw [hescape] at h
          obtain rfl := Except.error.inj h
          rw [readEscape] at hescape
          split at hescape
          · exact .inl (Except.error.inj hescape ▸ trivial)
          · next letter hletter =>
            split at hescape
            · simp at hescape
            · split_ifs at hescape with hu
              · have hcons := Cursor.rest_eq_cons_of_peek? hb
                rw [hback, Cursor.rest_eq_cons_of_peek? hletter, hu] at hcons
                exact isFlaw_or_nul_of_readNumericEscape hcons hescape
              · exact .inl (Except.error.inj hescape ▸ trivial)
    · exact .inl (Except.error.inj h ▸ trivial)
    · split at h
      · simp at h
      · exact .inl (Except.error.inj h ▸ trivial)

/-- A spelling is refused or read, **whatever follows it**. -/
theorem readElement_cases (o : Options) (context : StringContext) (s : Spelling) (p : ℕ) :
    (∀ bytes, readElement o context ⟨p, s.text ++ bytes⟩ = .error ⟨.nul context.role, p⟩) ∨
      ∀ bytes, readElement o context ⟨p, s.text ++ bytes⟩ =
        .ok (some s.char, ⟨p + s.text.length, bytes⟩) := by
  simp only [readElement_append, Spelling.constructs]
  split_ifs with hnul
  · cases hallow : o.allowNul with
    | true => exact .inr fun bytes => by simp [refuse, Construct.refusal?, hallow]
    | false => exact .inl fun bytes => by simp [refuse, Construct.refusal?, hallow]
  · exact .inr fun bytes => rfl

/-- A character that is read is spelled between the cursors, and it is read **whatever follows**. -/
theorem exists_between_of_readElement {context : StringContext} {c next : Cursor} {char : Char}
    (h : readElement o context c = .ok (some char, next)) :
    ∃ s : Spelling, c.Between s.text next ∧
      ∀ bytes, readElement o context ⟨c.position, s.text ++ bytes⟩ =
        .ok (some char, ⟨next.position, bytes⟩) := by
  obtain ⟨s, rfl, hrest⟩ := exists_of_readElement h
  have hcursor : c = ⟨c.position, s.text ++ next.rest⟩ := by rw [← hrest]
  rw [hcursor] at h
  obtain hrefused | hread := readElement_cases o context s c.position
  · simp [hrefused] at h
  · rw [hread] at h
    have hnext := (Prod.mk.inj (Except.ok.inj h)).2
    exact ⟨s, ⟨hrest, by rw [← hnext]⟩, by rwa [← hnext]⟩

/-- Elements that are not read have a flaw, or the character of number zero is refused and **what
follows makes no difference**. -/
theorem isFlaw_or_forall_readElements {context : StringContext} {c : Cursor} {f : Failure}
    (h : readElements o context c = .error f) :
    f.fault.IsFlaw ∨ f.fault = .nul context.role ∧
      ∀ more, readElements o context ⟨c.position, c.rest ++ more⟩ = .error f := by
  fun_induction readElements o context c with
  | case1 c g hg =>
      obtain rfl := Except.error.inj h
      obtain hflaw | ⟨rest, hrest⟩ := isFlaw_or_nul_of_readElement hg
      · exact .inl hflaw
      · have hcursor : c = ⟨c.position, nulEscape ++ rest⟩ := by rw [← hrest]
        rw [hcursor] at hg
        obtain hrefused | hread := readElement_cases o context
          ⟨nulEscape, '\x00', spells_nul_iff.2 rfl⟩ c.position
        · rw [hrefused] at hg
          obtain rfl := Except.error.inj hg
          refine .inr ⟨rfl, fun more => ?_⟩
          rw [hrest, List.append_assoc, readElements_eq, hrefused]
        · simp [hread] at hg
  | case2 c next hnext => simp at h
  | case3 c char next hnext g hg ih =>
      obtain rfl := Except.error.inj h
      obtain hflaw | ⟨hnul, hstable⟩ := ih hg
      · exact .inl hflaw
      · refine .inr ⟨hnul, fun more => ?_⟩
        obtain ⟨s, hs, hread⟩ := exists_between_of_readElement hnext
        rw [hs.rest_eq, List.append_assoc, readElements_eq, hread]
        simp only [hstable more, Except.map]
  | case4 c char next hnext chars final hfinal ih => simp at h

/-- A string that is not read has a flaw, or the character of number zero is refused and what
follows makes no difference. -/
theorem isFlaw_or_forall_readString {role : Role} {c : Cursor} {f : Failure}
    (hc : c.peek? = some 0x22) (h : readString o role c = .error f) :
    f.fault.IsFlaw ∨ f.fault = .nul role ∧
      ∀ more, readString o role ⟨c.position, c.rest ++ more⟩ = .error f := by
  have hcons := Cursor.rest_eq_cons_of_peek? hc
  rw [readString] at h
  split at h
  · next g hg =>
    obtain rfl := Except.error.inj h
    obtain hflaw | ⟨hnul, hstable⟩ := isFlaw_or_forall_readElements hg
    · exact .inl hflaw
    · refine .inr ⟨hnul, fun more => ?_⟩
      have hread := hstable more
      rw [readString, hcons, List.cons_append, Cursor.advance_one_cons]
      rw [Cursor.position_advance] at hread
      rw [hread]
  · simp at h

/-! ### Steps that fail -/

/-- The **reasons** why a step fails, with the position, the open containers, the goal and the
bytes, and the failure that they lead to. -/
inductive Hindrance (o : Options) (p : ℕ) :
    List Frame → Goal → List UInt8 → Failure → Prop
  /-- A token is spelled wrong. -/
  | flaw {stack : List Frame} {goal : Goal} {bytes : List UInt8} {f : Failure} :
      f.fault.IsFlaw → Hindrance o p stack goal bytes f
  /-- Something else stands where something has to follow. -/
  | misplaced {stack : List Frame} {goal : Goal} {bytes : List UInt8} {wanted : Expectation}
      {b : UInt8} {q : ℕ} : Hindrance o p stack goal bytes ⟨.unexpected wanted (some b), q⟩
  /-- The input ends where something has to follow. -/
  | ended {stack : List Frame} {goal : Goal} {wanted : Expectation} (space : Space) :
      (∀ v, goal = .after v → stack ≠ []) →
      Hindrance o p stack goal space.text ⟨.unexpected wanted none, p + space.text.length⟩
  /-- The input ends where a colon has to follow a key. -/
  | endedAtColon {stack : List Frame} {members : List (String × Value)} (before : Space)
      (ss : List Spelling) (after : Space) : o.AdmitsText (spelledString ss) →
      ¬ (o.rejectDuplicates = true ∧ Members.contains (spelledString ss) members = true) →
      Hindrance o p stack (.key members) (before.text ++ (quotedText ss ++ after.text))
        ⟨.unexpected .colon none,
          p + (before.text ++ (quotedText ss ++ after.text)).length⟩
  /-- Something follows the value of the document. -/
  | trailing {v : Value} (space : Space) {b : UInt8} (bytes : List UInt8) : isSpace b = false →
      Hindrance o p [] (.after v) (space.text ++ b :: bytes)
        ⟨.trailing b, p + space.text.length⟩
  /-- The options refuse something that has been read to its end. -/
  | refused {stack : List Frame} {goal : Goal} {bytes : List UInt8} {f : Failure} :
      f.fault.IsRefusal → (∀ more, step o ⟨⟨p, bytes ++ more⟩, stack, goal⟩ = .error f) →
      Hindrance o p stack goal bytes f

section

variable {stack : List Frame} {goal : Goal} {bytes : List UInt8} {p : ℕ} {f : Failure}

/-- White space may stand in front of the reason. -/
theorem Hindrance.space_append (space : Space)
    (h : Hindrance o (p + space.text.length) stack goal bytes f) :
    Hindrance o p stack goal (space.text ++ bytes) f := by
  cases h with
  | flaw hflaw => exact .flaw hflaw
  | misplaced => exact .misplaced
  | ended after hgoal =>
      rw [Nat.add_assoc, ← List.length_append]
      exact .ended (space.append after) hgoal
  | endedAtColon before ss after hadmits hfresh =>
      rw [Nat.add_assoc, ← List.length_append, ← List.append_assoc]
      exact .endedAtColon (space.append before) ss after hadmits hfresh
  | trailing after bytes hb =>
      rw [Nat.add_assoc, ← List.length_append, ← List.append_assoc]
      exact .trailing (space.append after) bytes hb
  | refused hrefusal hstep =>
      refine .refused hrefusal fun more => ?_
      rw [List.append_assoc, step_space, hstep more]

/-- What is not wanted at a cursor is a byte, or the end of the input. -/
theorem unexpected_cases (c : Cursor) (wanted : Expectation) :
    (∃ b, c.unexpected wanted = ⟨.unexpected wanted (some b), c.position⟩) ∨
      c.rest = [] ∧ c.unexpected wanted = ⟨.unexpected wanted none, c.position⟩ := by
  rw [Cursor.unexpected]
  cases hpeek : c.peek? with
  | some b => exact .inl ⟨b, rfl⟩
  | none => exact .inr ⟨List.head?_eq_none_iff.1 hpeek, rfl⟩

/-- What stands at a cursor is not what is wanted, or the input ends there. -/
theorem hindrance_unexpected {c : Cursor} (wanted : Expectation)
    (hgoal : ∀ v, goal = .after v → stack ≠ []) :
    Hindrance o c.position stack goal c.rest (c.unexpected wanted) := by
  obtain ⟨b, hfound⟩ | ⟨hnil, hended⟩ := unexpected_cases c wanted
  · rw [hfound]
    exact .misplaced
  · rw [hended, hnil]
    exact .ended .none hgoal

/-- A bracket that opens too many containers is refused. -/
theorem refuse_bracket_of_not {α : Type} {r : Except Failure α}
    (h : ¬ stack.length < o.maxDepth) :
    refuse o [.bracket stack.length p] r = .error ⟨.tooDeep o.maxDepth, p⟩ := by
  rw [refuse, List.findSome?_cons, Construct.refusal?, if_neg h]

/-- Why an array is not opened. -/
theorem hindrance_of_openArray {c : Cursor} (hc : c.peek? = some 0x5b)
    (h : openArray o stack c = .error f) : Hindrance o c.position stack .value c.rest f := by
  rw [openArray, checkDepth] at h
  split_ifs at h with hdepth
  · simp only at h
    split_ifs at h
  · obtain rfl := Except.error.inj h
    refine .refused trivial fun more => ?_
    rw [Cursor.rest_eq_cons_of_peek? hc, List.cons_append, step_openArray,
      refuse_bracket_of_not hdepth]

/-- Why an object is not opened. -/
theorem hindrance_of_openObject {c : Cursor} (hc : c.peek? = some 0x7b)
    (h : openObject o stack c = .error f) : Hindrance o c.position stack .value c.rest f := by
  rw [openObject, checkDepth] at h
  split_ifs at h with hdepth
  · simp only at h
    split_ifs at h
  · obtain rfl := Except.error.inj h
    refine .refused trivial fun more => ?_
    rw [Cursor.rest_eq_cons_of_peek? hc, List.cons_append, step_openObject,
      refuse_bracket_of_not hdepth]

/-- A string that is not read is a reason, if the step fails where the string does. -/
theorem hindrance_of_readString {role : Role} {c : Cursor} (hc : c.peek? = some 0x22)
    (h : readString o role c = .error f)
    (hstep : ∀ rest, readString o role ⟨c.position, 0x22 :: rest⟩ = .error f →
      step o ⟨⟨c.position, 0x22 :: rest⟩, stack, goal⟩ = .error f) :
    Hindrance o c.position stack goal c.rest f := by
  obtain hflaw | ⟨hnul, hstable⟩ := isFlaw_or_forall_readString hc h
  · exact .flaw hflaw
  · refine .refused (hnul ▸ trivial) fun more => ?_
    have hread := hstable more
    rw [Cursor.rest_eq_cons_of_peek? hc, List.cons_append] at hread ⊢
    exact hstep _ hread

/-- A scalar that is not read is the failure. -/
theorem eq_error_of_scalarRead {r : Except Failure (Value × Cursor)}
    (h : scalarRead stack r = .error f) : r = .error f := by
  cases r with
  | error e => exact congrArg Except.error (Except.error.inj h)
  | ok p => simp [scalarRead] at h

/-- Why a value is not started. -/
theorem hindrance_of_startValue {c : Cursor} (h : startValue o stack c = .error f) :
    Hindrance o c.position stack .value c.rest f := by
  rw [startValue] at h
  split at h
  · obtain rfl := Except.error.inj h
    exact hindrance_unexpected .value (by simp)
  · next b hb =>
    split_ifs at h with hbrace hbracket hmark hletter hdigit
    · exact hindrance_of_openObject (hbrace ▸ hb) h
    · exact hindrance_of_openArray (hbracket ▸ hb) h
    · have hread := eq_error_of_scalarRead h
      cases hs : readString o .value c with
      | ok r => simp [hs, Except.map] at hread
      | error g =>
          rw [hs] at hread
          obtain rfl := Except.error.inj hread
          refine hindrance_of_readString (hmark ▸ hb) hs fun rest hrest => ?_
          rw [step_mark_value, hrest]
          rfl
    · exact .flaw (isFlaw_of_readWord (eq_error_of_scalarRead h))
    · exact .flaw (isFlaw_of_readNumber (eq_error_of_scalarRead h))
    · obtain rfl := Except.error.inj h
      exact hindrance_unexpected .value (by simp)

/-- What follows a key is no colon, or the input ends there. -/
theorem hindrance_at_colon {members : List (String × Value)} {c next : Cursor}
    {ss : List Spelling} (hadmits : o.AdmitsText (spelledString ss))
    (hfresh : ¬ (o.rejectDuplicates = true ∧ Members.contains (spelledString ss) members = true))
    (hrest : c.rest = quotedText ss ++ next.rest)
    (hposition : next.position = c.position + (quotedText ss).length) :
    Hindrance o c.position stack (.key members) c.rest (next.skipSpace.unexpected .colon) := by
  obtain ⟨after, hrest', hposition', -⟩ := exists_space next
  obtain ⟨b, hfound⟩ | ⟨hnil, hended⟩ := unexpected_cases next.skipSpace .colon
  · rw [hfound]
    exact .misplaced
  · have hend : next.skipSpace.position =
        c.position + (quotedText ss ++ after.text).length := by
      rw [List.length_append]
      omega
    rw [hnil, List.append_nil] at hrest'
    rw [hended, hend, hrest, hrest']
    exact .endedAtColon .none ss after hadmits hfresh

/-- Why a key and its colon are not read. A repeated key is refused before the colon is looked
for. -/
theorem hindrance_of_readKey {members : List (String × Value)} {c : Cursor}
    (h : readKey o stack members c = .error f) :
    Hindrance o c.position stack (.key members) c.rest f := by
  rw [readKey] at h
  split_ifs at h with hmark
  · split at h
    · next g hs =>
      obtain rfl := Except.error.inj h
      refine hindrance_of_readString hmark hs fun rest hrest => ?_
      rw [step_mark_key, readKey, Cursor.peek?_cons, if_pos rfl, hrest]
    · next key next hs =>
      obtain ⟨ss, rfl, hadmits, hrest, hposition⟩ := exists_admits_of_readString hmark hs
      simp only at h
      split_ifs at h with hdup hcolon
      · obtain rfl := Except.error.inj h
        refine .refused trivial fun more => ?_
        rw [hrest, List.append_assoc, step_key_of_admits hadmits, if_pos hdup]
      · obtain rfl := Except.error.inj h
        exact hindrance_at_colon hadmits hdup hrest hposition
  · obtain rfl := Except.error.inj h
    exact hindrance_unexpected .key (by simp)

/-- Why the reader does not go on after a value. -/
theorem hindrance_of_finishValue {v : Value} {c : Cursor} (hspace : Stops isSpace c.rest)
    (h : finishValue stack v c = .error f) :
    Hindrance o c.position stack (.after v) c.rest f := by
  rw [finishValue.eq_def] at h
  split at h
  · split at h
    · simp at h
    · next b hb =>
      obtain rfl := Except.error.inj h
      rw [Cursor.rest_eq_cons_of_peek? hb]
      exact .trailing .none _ (hspace b hb)
  · split_ifs at h
    obtain rfl := Except.error.inj h
    exact hindrance_unexpected .arrayEnd fun _ _ => List.cons_ne_nil _ _
  · simp only at h
    split_ifs at h
    obtain rfl := Except.error.inj h
    exact hindrance_unexpected .objectEnd fun _ _ => List.cons_ne_nil _ _

/-- **A step that fails is hindered.** -/
theorem hindrance_of_step (h : step o ⟨⟨p, bytes⟩, stack, goal⟩ = .error f) :
    Hindrance o p stack goal bytes f := by
  obtain ⟨space, hrest, hposition, hspace⟩ := exists_space ⟨p, bytes⟩
  simp only at hrest hposition
  rw [hrest]
  refine Hindrance.space_append space ?_
  rw [← hposition]
  rw [step] at h
  cases goal with
  | value => exact hindrance_of_startValue h
  | key members => exact hindrance_of_readKey h
  | after v => exact hindrance_of_finishValue hspace h

end

end StrictJson.Syntax
