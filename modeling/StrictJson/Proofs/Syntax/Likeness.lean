import StrictJson.Proofs.Syntax.Reading
import StrictJson.Proofs.Value.Written
import StrictJson.Value.Serializer

/-!
# Texts That Are Read Alike

Two texts may differ in the spelling of their numbers and still be read alike. Options look at
brackets, keys and escapes only, and what they say of one does not depend on the byte where it
stands. So if two trees have the same brackets, keys and strings, and numbers of the same values,
then what is refused in one is refused in the other, for the same fault.

This is said of texts as they are made, from parts to the whole: whether two texts are those of
trees that are alike is settled by their parts.

## Main definitions

* `firstFault`: the fault of the first construct that is refused.
* `Tree.Alike`: trees with the same meaning and the same first fault.
* `ReadAlike`: two texts are those of values that are alike.

## Main results

* `Tree.Alike.parse`: documents that are alike are both read as one value, or refused for one fault.
* `ReadAlike.array`, `ReadAlike.object`: containers of texts that are read alike.
-/

namespace StrictJson.Syntax

/-! ### The first fault -/

variable {o : Options} {constructs more : List Construct}

/-- The fault of the **first construct that is refused**, if one is. -/
def firstFault (o : Options) (constructs : List Construct) : Option Fault :=
  (constructs.findSome? (Construct.refusal? o)).map Failure.fault

theorem firstFault_append :
    firstFault o (constructs ++ more) = (firstFault o constructs).or (firstFault o more) := by
  rw [firstFault, firstFault, firstFault, List.findSome?_append, Option.map_or]

/-- What is said of a bracket does not depend on where it stands. -/
theorem firstFault_bracket (outer p q : ℕ) :
    firstFault o [.bracket outer p] = firstFault o [.bracket outer q] := by
  simp only [firstFault, List.findSome?_singleton, Construct.refusal?]
  split_ifs <;> rfl

/-- What is said of a container depends on what is in it. -/
theorem firstFault_bracket_cons {inner inner' : List Construct} (outer p q : ℕ)
    (h : firstFault o inner = firstFault o inner') :
    firstFault o (.bracket outer p :: inner) = firstFault o (.bracket outer q :: inner') := by
  have hsplit : ∀ p inside, firstFault o (.bracket outer p :: inside) =
      (firstFault o [.bracket outer p]).or (firstFault o inside) :=
    fun p inside => by rw [← firstFault_append, List.singleton_append]
  rw [hsplit p inner, hsplit q inner', firstFault_bracket outer p q, h]

/-- What is said of the characters of a string does not depend on where they stand. -/
theorem firstFault_spelledConstructs (role : Role) (ss : List Spelling) (p q : ℕ) :
    firstFault o (spelledConstructs role p ss) = firstFault o (spelledConstructs role q ss) := by
  induction ss generalizing p q with
  | nil => rfl
  | cons s ss ih =>
      have hone : firstFault o (s.constructs role p) = firstFault o (s.constructs role q) := by
        rw [Spelling.constructs, Spelling.constructs]
        split_ifs
        · simp only [firstFault, List.findSome?_singleton, Construct.refusal?]
          split_ifs <;> rfl
        · rfl
      rw [spelledConstructs, spelledConstructs, firstFault_append, firstFault_append, hone, ih]

/-- What is said of a key does not depend on where it stands. -/
theorem firstFault_label (label : Label) (p q : ℕ) (seen : List String) :
    firstFault o (label.constructs p seen) = firstFault o (label.constructs q seen) := by
  have hkey : firstFault o (if label.string ∈ seen then
        [.repeatedKey label.string (label.keyOffset p)] else []) =
      firstFault o (if label.string ∈ seen then
        [.repeatedKey label.string (label.keyOffset q)] else []) := by
    split_ifs
    · simp only [firstFault, List.findSome?_singleton, Construct.refusal?]
      split_ifs <;> rfl
    · rfl
  rw [Label.constructs, Label.constructs, firstFault_append, firstFault_append, hkey,
    quotedConstructs, quotedConstructs, firstFault_spelledConstructs]

/-! ### Trees that are alike -/

/-- Trees are **alike** if they mean the same and any options refuse them for the same fault first,
wherever they stand. -/
structure Tree.Alike {part : Part} (t u : Tree part) : Prop where
  meaning : t.meaning = u.meaning
  firstFault : ∀ (o : Options) (outer p q : ℕ) (seen : List String),
    firstFault o (t.constructs outer p seen) = firstFault o (u.constructs outer q seen)

namespace Tree.Alike

variable {t u : Tree .value} {label : Label}

/-- **Documents that are alike are read alike**: as the same value, or they are refused for the same
fault. -/
theorem parse {d e : Document} (h : d.Alike e) (o : Options) :
    (∃ w, StrictJson.parse o d.text = .ok w ∧ StrictJson.parse o e.text = .ok w) ∨
      ∃ f g, StrictJson.parse o d.text = .error f ∧ StrictJson.parse o e.text = .error g ∧
        f.fault = g.fault := by
  have hfault := h.firstFault o 0 0 0 []
  rw [parse_text, parse_text, h.meaning, refuse, refuse]
  rw [Syntax.firstFault, Syntax.firstFault] at hfault
  cases hd : (d.constructs 0 0 []).findSome? (Construct.refusal? o) with
  | none =>
      rw [hd, Option.map_none, eq_comm, Option.map_eq_none_iff] at hfault
      rw [hfault]
      exact .inl ⟨_, rfl, rfl⟩
  | some f =>
      rw [hd, Option.map_some, eq_comm, Option.map_eq_some_iff] at hfault
      obtain ⟨g, hg, hfg⟩ := hfault
      rw [hg]
      exact .inr ⟨f, g, rfl, rfl, hfg.symm⟩

theorem word (w : Word) : (Tree.word w).Alike (.word w) :=
  ⟨rfl, fun _ _ _ _ _ => rfl⟩

/-- Numbers of one value are alike, however they are spelled. -/
theorem number {n k : NumberToken} (h : n.value = k.value) :
    (Tree.number n).Alike (.number k) :=
  ⟨h, fun _ _ _ _ _ => rfl⟩

theorem string (ss : List Spelling) : (Tree.string ss).Alike (.string ss) :=
  ⟨rfl, fun _ _ p q _ => firstFault_spelledConstructs .value ss (p + 1) (q + 1)⟩

theorem emptyArray (space : Space) : (Tree.emptyArray space).Alike (.emptyArray space) :=
  ⟨rfl, fun _ outer p q _ => firstFault_bracket outer p q⟩

theorem emptyObject (space : Space) : (Tree.emptyObject space).Alike (.emptyObject space) :=
  ⟨rfl, fun _ outer p q _ => firstFault_bracket outer p q⟩

theorem array {ts us : Tree .items} (h : ts.Alike us) : (Tree.array ts).Alike (.array us) := by
  refine ⟨congrArg Value.array h.meaning, fun o outer p q seen => ?_⟩
  rw [constructs, constructs]
  exact firstFault_bracket_cons outer p q (h.firstFault o (outer + 1) (p + 1) (q + 1) [])

theorem object {ts us : Tree .members} (h : ts.Alike us) :
    (Tree.object ts).Alike (.object us) := by
  refine ⟨congrArg (fun ms => Value.object (Members.ofPairs ms)) h.meaning,
    fun o outer p q seen => ?_⟩
  rw [constructs, constructs]
  exact firstFault_bracket_cons outer p q (h.firstFault o (outer + 1) (p + 1) (q + 1) [])

theorem bare (h : t.Alike u) : t.bare.Alike u.bare :=
  ⟨h.meaning, fun o outer _ _ _ => h.firstFault o outer _ _ []⟩

theorem lastItem {t u : Tree .element} (h : t.Alike u) :
    (Tree.lastItem t).Alike (.lastItem u) :=
  ⟨congrArg (fun w => [w]) h.meaning, fun o outer p q _ => h.firstFault o outer p q []⟩

theorem item {t u : Tree .element} {ts us : Tree .items} (h : t.Alike u) (hs : ts.Alike us) :
    (Tree.item t ts).Alike (.item u us) := by
  refine ⟨congrArg₂ List.cons h.meaning hs.meaning, fun o outer p q _ => ?_⟩
  rw [constructs, constructs, firstFault_append, firstFault_append, h.firstFault o outer p q [],
    hs.firstFault o outer _ (q + u.text.length + 1) []]

theorem lastMember {t u : Tree .element} (h : t.Alike u) :
    (Tree.lastMember label t).Alike (.lastMember label u) := by
  refine ⟨congrArg (fun w => [(label.string, w)]) h.meaning, fun o outer p q seen => ?_⟩
  rw [constructs, constructs, firstFault_append, firstFault_append, firstFault_label label p q,
    h.firstFault o outer _ (q + label.text.length + 1) []]

theorem member {t u : Tree .element} {ts us : Tree .members} (h : t.Alike u)
    (hs : ts.Alike us) : (Tree.member label t ts).Alike (.member label u us) := by
  refine ⟨congrArg₂ (fun w ms => (label.string, w) :: ms) h.meaning hs.meaning,
    fun o outer p q seen => ?_⟩
  rw [constructs, constructs, firstFault_append, firstFault_append, firstFault_append,
    firstFault_append, firstFault_label label p q,
    h.firstFault o outer _ (q + label.text.length + 1) [],
    hs.firstFault o outer _ (q + label.text.length + 1 + u.text.length + 1) _]

end Tree.Alike

/-! ### Texts that are read alike -/

/-- Two texts are **read alike**: they are those of values that are alike. -/
def ReadAlike (a b : List Char) : Prop :=
  ∃ t u : Tree .value, t.text = Utf8.encodeChars a ∧ u.text = Utf8.encodeChars b ∧ t.Alike u

namespace ReadAlike

variable {a b : List Char} {as bs : List (List Char)}

/-- **Texts that are read alike** are read as one value, or they are refused for one fault. -/
theorem parse (h : ReadAlike a b) (o : Options) :
    (∃ w, StrictJson.parse o (Utf8.encodeChars a) = .ok w ∧
        StrictJson.parse o (Utf8.encodeChars b) = .ok w) ∨
      ∃ f g, StrictJson.parse o (Utf8.encodeChars a) = .error f ∧
        StrictJson.parse o (Utf8.encodeChars b) = .error g ∧ f.fault = g.fault := by
  obtain ⟨t, u, ht, hu, halike⟩ := h
  rw [← ht, ← hu, ← t.text_bare, ← u.text_bare]
  exact halike.bare.parse o

/-- The items of two arrays, of which there is one at least. -/
theorem exists_items (h : ReadAlike a b) (hs : List.Forall₂ ReadAlike as bs) :
    ∃ ts us : Tree .items, ts.text = Utf8.encodeChars (commaSeparated (a :: as)) ∧
      us.text = Utf8.encodeChars (commaSeparated (b :: bs)) ∧ ts.Alike us := by
  induction hs generalizing a b with
  | nil =>
      obtain ⟨t, u, ht, hu, halike⟩ := h
      exact ⟨.lastItem t.bare, .lastItem u.bare, t.text_bare.trans ht, u.text_bare.trans hu,
        halike.bare.lastItem⟩
  | cons h' _ ih =>
      obtain ⟨t, u, ht, hu, halike⟩ := h
      obtain ⟨ts, us, hts, hus, halikes⟩ := ih h'
      refine ⟨.item t.bare ts, .item u.bare us, ?_, ?_, halike.bare.item halikes⟩
      · rw [Tree.text, t.text_bare, ht, hts, commaSeparated, Utf8.encodeChars_append]
        rfl
      · rw [Tree.text, u.text_bare, hu, hus, commaSeparated, Utf8.encodeChars_append]
        rfl

/-- Arrays of items that are read alike. -/
theorem array (hs : List.Forall₂ ReadAlike as bs) :
    ReadAlike ('[' :: commaSeparated as ++ [']']) ('[' :: commaSeparated bs ++ [']']) := by
  cases hs with
  | nil => exact ⟨.emptyArray .none, .emptyArray .none, rfl, rfl, .emptyArray .none⟩
  | cons h hs =>
      obtain ⟨ts, us, hts, hus, halike⟩ := exists_items h hs
      refine ⟨.array ts, .array us, ?_, ?_, halike.array⟩
      · rw [Tree.text, hts, Utf8.encodeChars_append]
        rfl
      · rw [Tree.text, hus, Utf8.encodeChars_append]
        rfl

/-- Two members have **one key**, and the texts of their values are read alike. -/
def SameMember (m n : String × List Char) : Prop :=
  m.1 = n.1 ∧ ReadAlike m.2 n.2

/-- The members of two objects, of which there is one at least. -/
theorem exists_members {m n : String × List Char} {ms ns : List (String × List Char)}
    (h : SameMember m n) (hs : List.Forall₂ SameMember ms ns) :
    ∃ ts us : Tree .members,
      ts.text = Utf8.encodeChars (commaSeparated ((m :: ms).map Serializer.memberText)) ∧
      us.text = Utf8.encodeChars (commaSeparated ((n :: ns).map Serializer.memberText)) ∧
      ts.Alike us := by
  have htext : ∀ {key : String} {a : List Char} {t : Tree .value},
      t.text = Utf8.encodeChars a →
      (writtenLabel key).text ++ 0x3a :: t.bare.text =
        Utf8.encodeChars (Serializer.memberText (key, a)) := by
    intro key a t ht
    rw [t.text_bare, ht, text_writtenLabel, Serializer.memberText, Utf8.encodeChars_append]
    rfl
  have hcomma : ∀ (m m' : String × List Char) (ms : List (String × List Char)),
      commaSeparated ((m :: m' :: ms).map Serializer.memberText) =
        Serializer.memberText m ++ ',' :: commaSeparated ((m' :: ms).map Serializer.memberText) :=
    fun _ _ _ => rfl
  induction hs generalizing m n with
  | nil =>
      obtain ⟨key, a⟩ := m
      obtain ⟨key', b⟩ := n
      obtain ⟨hkey, t, u, ht, hu, halike⟩ := h
      obtain rfl : key = key' := hkey
      exact ⟨.lastMember (writtenLabel key) t.bare, .lastMember (writtenLabel key) u.bare,
        htext ht, htext hu, halike.bare.lastMember⟩
  | cons h' _ ih =>
      obtain ⟨key, a⟩ := m
      obtain ⟨key', b⟩ := n
      obtain ⟨hkey, t, u, ht, hu, halike⟩ := h
      obtain rfl : key = key' := hkey
      obtain ⟨ts, us, hts, hus, halikes⟩ := ih h'
      refine ⟨.member (writtenLabel key) t.bare ts, .member (writtenLabel key) u.bare us, ?_, ?_,
        halike.bare.member halikes⟩
      · rw [Tree.text, htext ht, hts, hcomma, Utf8.encodeChars_append]
        rfl
      · rw [Tree.text, htext hu, hus, hcomma, Utf8.encodeChars_append]
        rfl

/-- Objects of the same keys in the same order, with values that are read alike. -/
theorem object {ms ns : List (String × List Char)} (hs : List.Forall₂ SameMember ms ns) :
    ReadAlike ('{' :: commaSeparated (ms.map Serializer.memberText) ++ ['}'])
      ('{' :: commaSeparated (ns.map Serializer.memberText) ++ ['}']) := by
  cases hs with
  | nil => exact ⟨.emptyObject .none, .emptyObject .none, rfl, rfl, .emptyObject .none⟩
  | cons h hs =>
      obtain ⟨ts, us, hts, hus, halike⟩ := exists_members h hs
      refine ⟨.object ts, .object us, ?_, ?_, halike.object⟩
      · rw [Tree.text, hts, Utf8.encodeChars_append]
        rfl
      · rw [Tree.text, hus, Utf8.encodeChars_append]
        rfl

end ReadAlike

end StrictJson.Syntax
