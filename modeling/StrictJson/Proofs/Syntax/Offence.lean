import StrictJson.Proofs.Syntax.Constructs

/-!
# Offences

The constructs of a document against the options, from the point of view of its text. An **offence**
is a bracket that opens one level more than is allowed, a key that is repeated although that is not
allowed, or an escape for the character of number zero although that is not allowed. The failure at
the first refused construct is the failure at the first offence, and what is named there stands in
the text at that byte.

## Main definitions

* `Construct.Offends`, `Construct.StandsIn`
* `IsFirstOffence`: a failure is that of the first offence of a document.

## Main results

* `Tree.standsIn_of_mem_constructs`: constructs stand where their offsets say.
* `isFirstOffence_of_refuse_eq_error`: the first refusal is the first offence.
-/

namespace StrictJson.Syntax

namespace Construct

/-! ### What stands in the text -/

/-- The bytes are those of a construct. -/
def IsWritten : Construct → List UInt8 → Prop
  | bracket _ _, bytes => bytes = [0x5b] ∨ bytes = [0x7b]
  | repeatedKey key _, bytes => ∃ ss, bytes = quotedText ss ∧ spelledString ss = key
  | nul _ _, bytes => bytes = nulEscape

/-- The construct **stands in** a text that begins at the byte `p`, where its offset says. -/
def StandsIn (construct : Construct) (p : ℕ) (text : List UInt8) : Prop :=
  ∃ before bytes after, text = before ++ bytes ++ after ∧
    construct.offset = p + before.length ∧ construct.IsWritten bytes

/-- A construct stands in every text around the one where it stands. -/
theorem StandsIn.around {construct : Construct} {p q : ℕ} {text inner : List UInt8}
    (h : construct.StandsIn q inner) (before after : List UInt8)
    (htext : text = before ++ (inner ++ after)) (hq : q = p + before.length) :
    construct.StandsIn p text := by
  obtain ⟨before', bytes, after', rfl, hoffset, hbytes⟩ := h
  refine ⟨before ++ before', bytes, after' ++ after, ?_, ?_, hbytes⟩
  · rw [htext]
    simp only [List.append_assoc]
  · rw [hoffset, hq, List.length_append, Nat.add_assoc]

/-! ### Offences -/

/-- The construct **offends** the options with a failure. -/
inductive Offends (o : Options) : Construct → Failure → Prop
  /-- A bracket opens a container inside as many as are allowed. -/
  | tooDeep {p : ℕ} : Offends o (.bracket o.maxDepth p) ⟨.tooDeep o.maxDepth, p⟩
  /-- A key is repeated. -/
  | duplicateKey {key : String} {p : ℕ} : o.rejectDuplicates = true →
      Offends o (.repeatedKey key p) ⟨.duplicateKey key, p⟩
  /-- An escape spells the character of number zero. -/
  | nul {role : Role} {p : ℕ} : o.allowNul = false → Offends o (.nul role p) ⟨.nul role, p⟩

/-- What offends is refused. -/
theorem Offends.refusal?_eq_some {o : Options} {construct : Construct} {f : Failure}
    (h : construct.Offends o f) : construct.refusal? o = some f := by
  cases h with
  | tooDeep => rw [refusal?, if_neg (lt_irrefl _)]
  | duplicateKey ho => rw [refusal?, if_pos ho]
  | nul ho => rw [refusal?, if_neg (Bool.not_eq_true _ ▸ ho)]

/-- What is refused offends, unless it is a bracket at another level than the first one too many. -/
theorem offends_of_refusal? {o : Options} {construct : Construct} {f : Failure}
    (h : construct.refusal? o = some f)
    (hlevel : ∀ outer p, construct = .bracket outer p → outer = o.maxDepth) :
    construct.Offends o f := by
  cases construct with
  | bracket outer p =>
      rw [refusal?] at h
      split_ifs at h
      obtain rfl := Option.some.inj h
      obtain rfl := hlevel outer p rfl
      exact .tooDeep
  | repeatedKey key p =>
      rw [refusal?] at h
      split_ifs at h with ho
      obtain rfl := Option.some.inj h
      exact .duplicateKey ho
  | nul role p =>
      rw [refusal?] at h
      split_ifs at h with ho
      obtain rfl := Option.some.inj h
      exact .nul (Bool.eq_false_iff.2 ho)

end Construct

/-- The failure is that of the **first offence** of a document: no other offence stands before it,
and what is named stands in the text at the byte of the failure. -/
def IsFirstOffence (o : Options) (d : Document) (f : Failure) : Prop :=
  ∃ construct ∈ d.constructs 0 0 [], construct.Offends o f ∧ f.fault.code = construct.code ∧
    f.offset = construct.offset ∧ construct.StandsIn 0 d.text ∧
    ∀ other ∈ d.constructs 0 0 [], ∀ g, other.Offends o g → f.offset ≤ g.offset

/-! ### Constructs stand in their trees -/

/-- The escapes of a string stand in its token. -/
theorem standsIn_of_mem_quotedConstructs {role : Role} {ss : List Spelling} {p : ℕ}
    {construct : Construct} (h : construct ∈ quotedConstructs role p ss) :
    construct.StandsIn p (quotedText ss) := by
  have hinside : ∀ (ss : List Spelling) (p : ℕ), construct ∈ spelledConstructs role p ss →
      construct.StandsIn p (spelledText ss) := by
    intro ss
    induction ss with
    | nil => exact fun p h => absurd h List.not_mem_nil
    | cons s ss ih =>
        intro p h
        have htext : spelledText (s :: ss) = s.text ++ spelledText ss := by
          rw [spelledText, List.flatMap_cons, ← spelledText]
        rcases List.mem_append.1 h with h | h
        · rw [Spelling.constructs] at h
          split_ifs at h with hnul
          · rw [List.mem_singleton.1 h]
            exact ⟨[], s.text, spelledText ss, htext, rfl, s.char_eq_nul_iff.1 hnul⟩
          · exact absurd h List.not_mem_nil
        · refine (ih _ h).around s.text [] ?_ rfl
          rw [htext, List.append_nil]
  exact (hinside ss (p + 1) h).around [0x22] [0x22] rfl rfl

/-- The constructs of a label stand in it. -/
theorem Label.standsIn_of_mem_constructs {l : Label} {p : ℕ} {seen : List String}
    {construct : Construct} (h : construct ∈ l.constructs p seen) :
    construct.StandsIn p l.text := by
  rcases List.mem_append.1 h with h | h
  · split_ifs at h with hmem
    · rw [List.mem_singleton.1 h]
      exact ⟨l.before.text, quotedText l.key, l.after.text, rfl, rfl, l.key, rfl, rfl⟩
    · exact absurd h List.not_mem_nil
  · refine (standsIn_of_mem_quotedConstructs h).around l.before.text l.after.text ?_ rfl
    rw [text, List.append_assoc]

/-- **The constructs of a tree stand in its text**, where their offsets say. -/
theorem Tree.standsIn_of_mem_constructs {part : Part} {t : Tree part} {outer p : ℕ}
    {seen : List String} {construct : Construct} (h : construct ∈ t.constructs outer p seen) :
    construct.StandsIn p t.text := by
  induction t generalizing outer p seen with
  | word w => exact absurd h List.not_mem_nil
  | number n => exact absurd h List.not_mem_nil
  | string ss => exact standsIn_of_mem_quotedConstructs h
  | emptyArray space =>
      rw [List.mem_singleton.1 h]
      exact ⟨[], [0x5b], space.text ++ [0x5d], rfl, rfl, .inl rfl⟩
  | emptyObject space =>
      rw [List.mem_singleton.1 h]
      exact ⟨[], [0x7b], space.text ++ [0x7d], rfl, rfl, .inr rfl⟩
  | array inner ih =>
      rcases List.mem_cons.1 h with rfl | h
      · exact ⟨[], [0x5b], inner.text ++ [0x5d], rfl, rfl, .inl rfl⟩
      · exact (ih h).around [0x5b] [0x5d] rfl rfl
  | object inner ih =>
      rcases List.mem_cons.1 h with rfl | h
      · exact ⟨[], [0x7b], inner.text ++ [0x7d], rfl, rfl, .inr rfl⟩
      · exact (ih h).around [0x7b] [0x7d] rfl rfl
  | padded before value after ih =>
      refine (ih h).around before.text after.text ?_ rfl
      rw [text, List.append_assoc]
  | lastItem first ih => exact ih h
  | item first others ih ihs =>
      rcases List.mem_append.1 h with h | h
      · exact (ih h).around [] (0x2c :: others.text) rfl rfl
      · refine (ihs h).around (first.text ++ [0x2c]) [] ?_ ?_
        · simp only [text, List.append_assoc, List.singleton_append, List.append_nil]
        · rw [List.length_append, List.length_singleton, Nat.add_assoc]
  | lastMember label element ih =>
      rcases List.mem_append.1 h with h | h
      · exact (label.standsIn_of_mem_constructs h).around [] (0x3a :: element.text) rfl rfl
      · refine (ih h).around (label.text ++ [0x3a]) [] ?_ ?_
        · simp only [text, List.append_assoc, List.singleton_append, List.append_nil]
        · rw [List.length_append, List.length_singleton, Nat.add_assoc]
  | member label element others ih ihs =>
      rcases List.mem_append.1 h with h | h
      · rcases List.mem_append.1 h with h | h
        · refine (label.standsIn_of_mem_constructs h).around []
            (0x3a :: (element.text ++ 0x2c :: others.text)) ?_ rfl
          simp only [text, List.append_assoc, List.cons_append, List.nil_append]
        · refine (ih h).around (label.text ++ [0x3a]) (0x2c :: others.text) ?_ ?_
          · simp only [text, List.append_assoc, List.cons_append, List.nil_append]
          · rw [List.length_append, List.length_singleton, Nat.add_assoc]
      · refine (ihs h).around (label.text ++ 0x3a :: element.text ++ [0x2c]) [] ?_ ?_
        · simp only [text, List.append_assoc, List.cons_append, List.nil_append,
            List.append_nil]
        · simp only [List.length_append, List.length_cons, List.length_nil]
          omega

/-! ### The first offence -/

/-- A container lies inside containers of every smaller level, which open before it. -/
theorem Tree.exists_bracket {part : Part} {t : Tree part} {outer p n m q : ℕ} {seen : List String}
    (h : .bracket n q ∈ t.constructs outer p seen) (hm : outer ≤ m) (hmn : m ≤ n) :
    ∃ q' ≤ q, .bracket m q' ∈ t.constructs outer p seen := by
  induction t generalizing outer p seen with
  | word w => exact absurd h List.not_mem_nil
  | number n => exact absurd h List.not_mem_nil
  | string ss =>
      obtain ⟨q', hq', -, -⟩ := of_mem_spelledConstructs h
      simp at hq'
  | emptyArray space | emptyObject space =>
      obtain ⟨rfl, rfl⟩ := Construct.bracket.inj (List.mem_singleton.1 h)
      obtain rfl : m = n := le_antisymm hmn hm
      exact ⟨q, le_refl q, h⟩
  | array inner ih | object inner ih =>
      rcases List.mem_cons.1 h with h' | h'
      · obtain ⟨rfl, rfl⟩ := Construct.bracket.inj h'
        obtain rfl : m = n := le_antisymm hmn hm
        exact ⟨q, le_refl q, h⟩
      · by_cases hlt : outer = m
        · have hq := (offset_mem_constructs h).1
          exact ⟨p, hq, hlt ▸ List.mem_cons_self ..⟩
        · obtain ⟨q', hq', hmem⟩ := ih h' (by omega)
          exact ⟨q', hq', List.mem_cons_of_mem _ hmem⟩
  | padded before value after ih => exact ih h hm
  | lastItem first ih => exact ih h hm
  | item first others ih ihs =>
      rcases List.mem_append.1 h with h | h
      · obtain ⟨q', hq', hmem⟩ := ih h hm
        exact ⟨q', hq', List.mem_append_left _ hmem⟩
      · obtain ⟨q', hq', hmem⟩ := ihs h hm
        exact ⟨q', hq', List.mem_append_right _ hmem⟩
  | lastMember label element ih =>
      rcases List.mem_append.1 h with h | h
      · exact absurd (shallow_label label p seen 0 _ h) (Nat.not_lt_zero n)
      · obtain ⟨q', hq', hmem⟩ := ih h hm
        exact ⟨q', hq', List.mem_append_right _ hmem⟩
  | member label element others ih ihs =>
      rcases List.mem_append.1 h with h | h
      · rcases List.mem_append.1 h with h | h
        · exact absurd (shallow_label label p seen 0 _ h) (Nat.not_lt_zero n)
        · obtain ⟨q', hq', hmem⟩ := ih h hm
          exact ⟨q', hq', List.mem_append_left _ (List.mem_append_right _ hmem)⟩
      · obtain ⟨q', hq', hmem⟩ := ihs h hm
        exact ⟨q', hq', List.mem_append_right _ hmem⟩

/-- **The first refusal is the first offence.** A bracket that is too deep is not refused first
unless it is the one that opens the first level too many. -/
theorem isFirstOffence_of_refuse_eq_error {o : Options} {d : Document} {v : Value} {f : Failure}
    (h : refuse o (d.constructs 0 0 []) (.ok v) = .error f) : IsFirstOffence o d f := by
  have hpairwise := d.pairwise_constructs 0 0 []
  obtain ⟨before, construct, after, hsplit, hrefusal, hbefore⟩ :=
    List.findSome?_eq_some_iff.1 (findSome?_of_refuse_eq_error h)
  have hmem : construct ∈ d.constructs 0 0 [] :=
    hsplit ▸ List.mem_append_right _ (List.mem_cons_self ..)
  -- whatever is refused stands at the construct or behind it
  have hfirst : ∀ other ∈ d.constructs 0 0 [], other.refusal? o ≠ none →
      other = construct ∨ construct.offset < other.offset := by
    intro other hother hne
    rw [hsplit] at hother hpairwise
    rcases List.mem_append.1 hother with hother | hother
    · exact absurd (hbefore other hother) hne
    · refine (List.mem_cons.1 hother).imp id fun hother => ?_
      exact (List.pairwise_cons.1 (List.pairwise_append.1 hpairwise).2.1).1 other hother
  have hlevel : ∀ outer q, construct = .bracket outer q → outer = o.maxDepth := by
    rintro outer q rfl
    have hdeep : o.maxDepth ≤ outer := by
      rw [Construct.refusal?] at hrefusal
      split_ifs at hrefusal with hlt
      exact Nat.le_of_not_lt hlt
    obtain ⟨q', hq', hmem'⟩ := Tree.exists_bracket hmem (Nat.zero_le o.maxDepth) hdeep
    have hne : (Construct.bracket o.maxDepth q').refusal? o ≠ none := by
      rw [Construct.refusal?, if_neg (lt_irrefl _)]
      exact Option.some_ne_none _
    rcases hfirst _ hmem' hne with heq | hgt
    · exact (Construct.bracket.inj heq).1.symm
    · exact absurd hgt (not_lt_of_ge hq')
  have hoffset := Construct.offset_refusal? hrefusal
  refine ⟨construct, hmem, Construct.offends_of_refusal? hrefusal hlevel,
    Construct.code_refusal? hrefusal, hoffset, Tree.standsIn_of_mem_constructs hmem,
    fun other hother g hg => ?_⟩
  have hrefusal' := hg.refusal?_eq_some
  rw [hoffset, Construct.offset_refusal? hrefusal']
  rcases hfirst other hother (by simp [hrefusal']) with rfl | hlt
  · exact le_refl _
  · exact le_of_lt hlt

end StrictJson.Syntax
