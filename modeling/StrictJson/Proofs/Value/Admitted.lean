import StrictJson.Proofs.Syntax.Acceptance
import StrictJson.Proofs.Syntax.Constructs
import StrictJson.Proofs.Value.Members
import StrictJson.Proofs.Value.Shape

/-!
# Values That Are Read

What a reader promises of the values that it builds. The options are about the text, where members
stand that a later one overwrites, and a value has forgotten them. So the promise is made for the
tree of the text, for each part of it, and a value inherits it: every number of a text is an integer
or a finite real, the members of an object are collected under distinct keys, a value is no deeper
than its tree, and its strings and keys are spelled by the tree.

## Main definitions

* `ReadInvariant`: a property that a value has because of how it is read.
* `Options.Admits`: what options promise of a value.

## Main results

* `Tree.every_meaning`: a property of this kind holds throughout what a tree denotes.
* `admits_of_parse`: a value that is read is one that the options admit.
-/

namespace StrictJson.Syntax

/-! ### Properties that come from reading -/

/-- A property `P` of values is an **invariant of reading** if it holds of whatever a text denotes,
when the strings and keys of the text are spelled by characters of which `S` holds. The property `K`
says what is then known of the strings and keys themselves. -/
structure ReadInvariant (S : Spelling → Prop) (K : String → Prop) (P : Value → Prop) : Prop where
  spelled : ∀ ss, (∀ s ∈ ss, S s) → K (spelledString ss)
  word : ∀ w : Word, P w.value
  number : ∀ n : NumberToken, P n.value
  string : ∀ s, K s → P (.string s)
  array : ∀ items, P (.array items)
  object : ∀ members, (∀ m ∈ members, K m.1) → P (.object (Members.ofPairs members))

/-- The property `P` holds of **every value of a meaning**, and `K` of the keys that stand directly
in it. -/
def Part.Every (K : String → Prop) (P : Value → Prop) : (part : Part) → part.Meaning → Prop
  | value, v | element, v => Value.Every P v
  | items, vs => ∀ v ∈ vs, Value.Every P v
  | members, ms => ∀ m ∈ ms, K m.1 ∧ Value.Every P m.2

/-- A number denotes an integer or a finite real. -/
theorem NumberToken.value_cases (n : NumberToken) :
    (∃ i, n.value = .integer i) ∨ ∃ x : Binary64, n.value = .real x ∧ x.isFinite = true := by
  obtain ⟨numeral, v, -, hdenotes⟩ := n
  cases hdenotes with
  | integer _ => exact .inl ⟨_, rfl⟩
  | real _ _ hnearest =>
      exact .inr ⟨_, rfl, Binary64.isFinite_ofParts numeral.negative hnearest.lt_infinity⟩

/-- **An invariant of reading holds throughout what a tree denotes.** -/
theorem Tree.every_meaning {S : Spelling → Prop} {K : String → Prop} {P : Value → Prop}
    (hP : ReadInvariant S K P) {part : Part} (t : Tree part) (ht : ∀ s ∈ t.spellings, S s) :
    part.Every K P t.meaning := by
  induction t with
  | word w =>
      have hw := hP.word w
      cases w <;> exact hw
  | number n =>
      have hn := hP.number n
      rw [meaning]
      rcases n.value_cases with ⟨i, hi⟩ | ⟨x, hx, -⟩
      · rw [hi] at hn ⊢
        exact hn
      · rw [hx] at hn ⊢
        exact hn
  | string ss => exact hP.string _ (hP.spelled ss ht)
  | emptyArray space =>
      refine Value.every_array_iff.2 ⟨hP.array [], List.forall_mem_nil _⟩
  | array items ih => exact Value.every_array_iff.2 ⟨hP.array _, ih ht⟩
  | emptyObject space =>
      refine Value.every_object_iff.2 ⟨hP.object [] (List.forall_mem_nil _), ?_⟩
      exact List.forall_mem_nil _
  | object members ih =>
      refine Value.every_object_iff.2 ⟨hP.object _ fun m hm => (ih ht m hm).1, fun m hm => ?_⟩
      exact (ih ht m (Members.mem_of_mem_ofPairs hm)).2
  | padded before value after ih => exact ih ht
  | lastItem first ih => exact List.forall_mem_singleton.2 (ih ht)
  | item first others ih ihs =>
      obtain ⟨hfirst, hothers⟩ := List.forall_mem_append.1 ht
      exact List.forall_mem_cons.2 ⟨ih hfirst, ihs hothers⟩
  | lastMember label element ih =>
      obtain ⟨hlabel, helement⟩ := List.forall_mem_append.1 ht
      exact List.forall_mem_singleton.2 ⟨hP.spelled _ hlabel, ih helement⟩
  | member label element others ih ihs =>
      obtain ⟨hfirst, hothers⟩ := List.forall_mem_append.1 ht
      obtain ⟨hlabel, helement⟩ := List.forall_mem_append.1 hfirst
      exact List.forall_mem_cons.2 ⟨⟨hP.spelled _ hlabel, ih helement⟩, ihs hothers⟩

/-! ### The invariants -/

/-- Reals are finite. -/
theorem readInvariant_finiteReal :
    ReadInvariant (fun _ => True) (fun _ => True) Value.FiniteReal where
  spelled _ _ := trivial
  word w := by cases w <;> trivial
  number n := by
    rcases n.value_cases with ⟨i, hi⟩ | ⟨x, hx, hfinite⟩
    · rw [hi]
      trivial
    · rw [hx]
      exact hfinite
  string _ _ := trivial
  array _ := trivial
  object _ _ := trivial

/-- The keys of an object are distinct, because its members are collected from pairs. -/
theorem readInvariant_distinctKeys :
    ReadInvariant (fun _ => True) (fun _ => True) Value.DistinctKeys where
  spelled _ _ := trivial
  word w := by cases w <;> trivial
  number n := by rcases n.value_cases with ⟨i, hi⟩ | ⟨x, hx, -⟩ <;> simp only [*] <;> trivial
  string _ _ := trivial
  array _ := trivial
  object members _ := Members.nodup_ofPairs members

/-- The character of number zero is in no string and no key if its escape is in none. -/
theorem readInvariant_nulFreeText :
    ReadInvariant (fun s => s.text ≠ nulEscape) (fun s => '\x00' ∉ s.toList)
      Value.NulFreeText where
  spelled ss hss := by
    rw [spelledString, String.toList_ofList, List.mem_map]
    rintro ⟨s, hs, hchar⟩
    exact hss s hs (s.char_eq_nul_iff.1 hchar)
  word w := by cases w <;> trivial
  number n := by rcases n.value_cases with ⟨i, hi⟩ | ⟨x, hx, -⟩ <;> simp only [*] <;> trivial
  string _ hs := hs
  array _ := trivial
  object members hmembers := fun m hm => hmembers m (Members.mem_of_mem_ofPairs hm)

/-! ### Depth -/

/-- The depth of a meaning. -/
def Part.depth : (part : Part) → part.Meaning → ℕ
  | value, v | element, v => Value.depth v
  | items, vs => Value.depthItems vs
  | members, ms => Value.depthMembers ms

/-- Members are no deeper than the pairs they are collected from. -/
theorem depthMembers_ofPairs_le (pairs : List (String × Value)) :
    Value.depthMembers (Members.ofPairs pairs) ≤ Value.depthMembers pairs := by
  have hpairs := Value.depthMembers_le_iff.1 (le_refl (Value.depthMembers pairs))
  exact Value.depthMembers_le_iff.2 fun m hm => hpairs m (Members.mem_of_mem_ofPairs hm)

/-- **A value is no deeper than its tree.** It may be less deep, because a member that is
overwritten counts for the tree alone. -/
theorem Tree.depth_meaning_le {part : Part} (t : Tree part) : part.depth t.meaning ≤ t.depth := by
  induction t with
  | word w => cases w <;> exact Nat.zero_le _
  | number n =>
      rw [meaning]
      rcases n.value_cases with ⟨i, hi⟩ | ⟨x, hx, -⟩
      · rw [hi]
        exact Nat.zero_le _
      · rw [hx]
        exact Nat.zero_le _
  | string ss => exact Nat.zero_le _
  | emptyArray space | emptyObject space => exact le_refl 1
  | array items ih => exact Nat.succ_le_succ ih
  | object members ih => exact Nat.succ_le_succ ((depthMembers_ofPairs_le _).trans ih)
  | padded before value after ih => exact ih
  | lastItem first ih => exact (Nat.max_zero _).trans_le ih
  | item first others ih ihs => exact max_le_max ih ihs
  | lastMember label element ih => exact (Nat.max_zero _).trans_le ih
  | member label element others ih ihs => exact max_le_max ih ihs

/-! ### What the options promise -/

/-- The options **admit** a value: it is one that a reader with these options may build. Whether
keys may be repeated makes no difference, since no value has a repeated key. -/
structure Options.Admits (o : Options) (v : Value) : Prop where
  finite : v.Finite
  keysDistinct : v.KeysDistinct
  depth : v.depth ≤ o.maxDepth
  nulFree : o.allowNul = false → v.NulFree

/-- The options admit the value of a document of which they refuse nothing. -/
theorem admits_meaning {o : Options} {d : Document}
    (h : ∀ c ∈ d.constructs 0 0 [], c.refusal? o = none) : o.Admits d.meaning := by
  obtain ⟨hdepth, -, hnul⟩ := Tree.forall_refusal?_eq_none_iff.1 h
  refine ⟨?_, ?_, d.depth_meaning_le.trans hdepth, fun ho => ?_⟩
  · exact d.every_meaning readInvariant_finiteReal fun _ _ => trivial
  · refine Value.keysDistinct_iff_every.2 ?_
    exact d.every_meaning readInvariant_distinctKeys fun _ _ => trivial
  · exact d.every_meaning readInvariant_nulFreeText (hnul ho)

/-- **A value that is read is one that the options admit.** -/
theorem admits_of_parse {o : Options} {input : List UInt8} {v : Value}
    (h : parse o input = .ok v) : o.Admits v := by
  obtain ⟨d, rfl, rfl⟩ := exists_document_of_parse h
  rw [parse_text] at h
  exact admits_meaning (refuse_eq_ok_iff.1 h)

end StrictJson.Syntax
