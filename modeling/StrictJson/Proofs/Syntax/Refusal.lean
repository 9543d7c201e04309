import StrictJson.Syntax.Document

/-!
# What the Options Refuse

The options know three kinds of **constructs** that a text may hold and that they can refuse: a
bracket that opens a container, a key that an object repeats, and an escape for the character of
number zero. `Construct.refusal?` is the whole of their influence. A reader meets the constructs of
a text one after the other and fails at the first one that is refused, so `refuse` puts a row of
constructs in front of a result.

## Main definitions

* `Construct`, `Construct.offset`, `Construct.refusal?`, `Construct.code`
* `refuse`: the failure at the first construct that is refused, or else a result.
* `Options.Stricter`: to refuse at least as much.

## Main results

* `refuse_append`: constructs that are met later matter only if none is refused before them.
* `refuse_eq_ok_iff`: a result stands if nothing is refused.
-/

namespace StrictJson.Syntax

/-- A **construct** of a text that the options may refuse, with the byte where it stands. -/
inductive Construct where
  /-- A bracket that opens a container, with the number of containers around it. -/
  | bracket (outer : Nat) (offset : Nat)
  /-- A key that stands before in the same object, at its opening quotation mark. -/
  | repeatedKey (key : String) (offset : Nat)
  /-- An escape for the character of number zero, at its backslash. -/
  | nul (role : Role) (offset : Nat)

/-- The byte where a construct stands. -/
def Construct.offset : Construct → Nat
  | bracket _ offset | repeatedKey _ offset | nul _ offset => offset

/-- The failure by which the options **refuse** a construct. -/
def Construct.refusal? (o : Options) : Construct → Option Failure
  | bracket outer offset =>
    if outer < o.maxDepth then none else some ⟨.tooDeep o.maxDepth, offset⟩
  | repeatedKey key offset =>
    if o.rejectDuplicates then some ⟨.duplicateKey key, offset⟩ else none
  | nul role offset => if o.allowNul then none else some ⟨.nul role, offset⟩

/-- A construct is refused where it stands. -/
theorem Construct.offset_refusal? {o : Options} {construct : Construct} {f : Failure}
    (h : construct.refusal? o = some f) : f.offset = construct.offset := by
  cases construct <;> rw [refusal?] at h <;> split at h <;> cases h <;> rfl

/-- The code of the error that names a construct. -/
def Construct.code : Construct → ErrorCode
  | bracket .. => .stackOverflow
  | repeatedKey .. => .duplicateKey
  | nul .key _ => .nullByteInKey
  | nul .value _ => .nullCharacter

/-- A refusal is reported under the code of the construct. -/
theorem Construct.code_refusal? {o : Options} {construct : Construct} {f : Failure}
    (h : construct.refusal? o = some f) : f.fault.code = construct.code := by
  cases construct with
  | bracket outer p | repeatedKey key p =>
      rw [refusal?] at h
      split at h <;> cases h
      rfl
  | nul role p =>
      rw [refusal?] at h
      split at h <;> cases h
      cases role <;> rfl

/-- Options that refuse **at least as much** as others, in each of the three choices. -/
structure Options.Stricter (o o' : Options) : Prop where
  maxDepth : o.maxDepth ≤ o'.maxDepth
  rejectDuplicates : o'.rejectDuplicates = true → o.rejectDuplicates = true
  allowNul : o.allowNul = true → o'.allowNul = true

/-! ### The first refusal -/

section

variable {α : Type} {o : Options} {constructs more : List Construct} {r : Except Failure α}

/-- The failure at the **first construct that is refused**, or the result if there is none. -/
def refuse (o : Options) (constructs : List Construct) (r : Except Failure α) :
    Except Failure α :=
  match constructs.findSome? (Construct.refusal? o) with
  | some f => .error f
  | none => r

@[simp] theorem refuse_nil : refuse o [] r = r := rfl

/-- Constructs that are met later matter only if none is refused before them. -/
theorem refuse_append :
    refuse o (constructs ++ more) r = refuse o constructs (refuse o more r) := by
  rw [refuse, refuse, List.findSome?_append]
  cases constructs.findSome? (Construct.refusal? o) <;> rfl

/-- Either a construct is refused, whatever the result, or every result stands. -/
theorem refuse_cases (o : Options) (constructs : List Construct) :
    (∃ f, ∀ {α : Type} (r : Except Failure α), refuse o constructs r = .error f) ∨
      ∀ {α : Type} (r : Except Failure α), refuse o constructs r = r := by
  simp only [refuse]
  cases constructs.findSome? (Construct.refusal? o) with
  | none => exact .inr fun r => rfl
  | some f => exact .inl ⟨f, fun r => rfl⟩

/-- If nothing is refused then the result stands. -/
theorem refuse_of_forall (h : ∀ c ∈ constructs, c.refusal? o = none) :
    refuse o constructs r = r := by
  rw [refuse, List.findSome?_eq_none_iff.2 h]

/-- **A result stands exactly if nothing is refused.** -/
theorem refuse_eq_ok_iff {a : α} :
    refuse o constructs (.ok a) = .ok a ↔ ∀ c ∈ constructs, c.refusal? o = none := by
  refine ⟨fun h => ?_, refuse_of_forall⟩
  rw [refuse] at h
  split at h
  · exact absurd h (by simp)
  · next hnone => exact List.findSome?_eq_none_iff.1 hnone

/-- A failure in front of a result is the first refusal. -/
theorem findSome?_of_refuse_eq_error {a : α} {f : Failure}
    (h : refuse o constructs (.ok a) = .error f) :
    constructs.findSome? (Construct.refusal? o) = some f := by
  rw [refuse] at h
  split at h
  · next g hg => rw [hg, Except.error.inj h]
  · exact absurd h (by simp)

end

end StrictJson.Syntax
