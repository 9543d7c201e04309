import StrictJson.Proofs.Syntax.Tree

/-!
# The Constructs of a Tree

What the row of constructs of a tree says about the tree. The constructs stand one behind the other
inside its text. Each of the three choices that options leave is about one kind of them: no bracket
is too deep exactly if the tree is not, no key is repeated exactly if the keys of each object are
distinct, and no construct is an escape for the character of number zero exactly if the tree has no
such escape.

## Main definitions

* `Tree.KeysDistinct`, `Tree.NulFree`

## Main results

* `Tree.pairwise_constructs`: the constructs of a tree stand one behind the other.
* `Tree.forall_refusal?_eq_none_iff`: when nothing in a document is refused.
-/

namespace StrictJson.Syntax

/-! ### Kinds of constructs -/

namespace Construct

/-- A bracket with less than `limit` containers around it. All other constructs pass. -/
def Shallow (limit : ℕ) : Construct → Prop
  | bracket outer _ => outer < limit
  | _ => True

/-- Any construct but a repeated key. -/
def Fresh : Construct → Prop
  | repeatedKey .. => False
  | _ => True

/-- Any construct but an escape for the character of number zero. -/
def NulFree : Construct → Prop
  | nul .. => False
  | _ => True

/-- A construct is refused by one of the three choices. -/
theorem refusal?_eq_none_iff {o : Options} {construct : Construct} :
    construct.refusal? o = none ↔ construct.Shallow o.maxDepth ∧
      (o.rejectDuplicates = true → construct.Fresh) ∧ (o.allowNul = false → construct.NulFree) := by
  cases construct with
  | bracket outer p => simp [refusal?, Shallow, Fresh, NulFree]
  | repeatedKey key p => simp [refusal?, Shallow, Fresh, NulFree]
  | nul role p => simp [refusal?, Shallow, Fresh, NulFree]

end Construct

/-! ### Where constructs stand -/

/-- The constructs of a string stand inside its token. -/
theorem offset_mem_quotedConstructs {role : Role} {ss : List Spelling} {p : ℕ}
    {construct : Construct} (h : construct ∈ quotedConstructs role p ss) :
    p < construct.offset ∧ construct.offset < p + (quotedText ss).length := by
  obtain ⟨q, rfl, hlo, hhi⟩ := of_mem_spelledConstructs h
  simp only [Construct.offset, quotedText, List.length_append, List.length_cons,
    List.length_nil]
  omega

namespace Label

/-- The constructs of a label stand inside it. -/
theorem offset_mem_constructs {l : Label} {p : ℕ} {seen : List String} {construct : Construct}
    (h : construct ∈ l.constructs p seen) :
    p ≤ construct.offset ∧ construct.offset < p + l.text.length := by
  have hlen : l.text.length = l.before.text.length + (quotedText l.key).length +
      l.after.text.length := by
    rw [text, List.length_append, List.length_append]
  have hpos : 0 < (quotedText l.key).length := Nat.succ_pos _
  rcases List.mem_append.1 h with h | h
  · split_ifs at h with hmem
    · rw [List.mem_singleton.1 h, Construct.offset, keyOffset]
      omega
    · exact absurd h List.not_mem_nil
  · have := offset_mem_quotedConstructs h
    rw [keyOffset] at this
    omega

/-- The constructs of a label stand one behind the other. -/
theorem pairwise_constructs (l : Label) (p : ℕ) (seen : List String) :
    (l.constructs p seen).Pairwise (·.offset < ·.offset) := by
  have hkey : (quotedConstructs .key (l.keyOffset p) l.key).Pairwise (·.offset < ·.offset) :=
    pairwise_spelledConstructs ..
  rw [constructs]
  split_ifs with hmem
  · exact List.pairwise_cons.2 ⟨fun c hc => (offset_mem_quotedConstructs hc).1, hkey⟩
  · exact hkey

end Label

namespace Tree

/-- The constructs of a tree stand inside its text. -/
theorem offset_mem_constructs {part : Part} {t : Tree part} {outer p : ℕ} {seen : List String}
    {construct : Construct} (h : construct ∈ t.constructs outer p seen) :
    p ≤ construct.offset ∧ construct.offset < p + t.text.length := by
  induction t generalizing outer p seen with
  | word w => exact absurd h List.not_mem_nil
  | number n => exact absurd h List.not_mem_nil
  | string ss =>
      have := offset_mem_quotedConstructs h
      rw [text]
      omega
  | emptyArray space | emptyObject space =>
      rw [List.mem_singleton.1 h, text, Construct.offset, List.cons_append, List.length_cons]
      omega
  | array inner ih | object inner ih =>
      rw [text, List.length_append, List.length_cons, List.length_singleton]
      rcases List.mem_cons.1 h with rfl | h
      · rw [Construct.offset]
        omega
      · have := ih h
        omega
  | padded before value after ih =>
      have := ih h
      rw [text, List.length_append, List.length_append]
      omega
  | lastItem first ih => exact ih h
  | item first others ih ihs =>
      rw [text, List.length_append, List.length_cons]
      rcases List.mem_append.1 h with h | h
      · have := ih h
        omega
      · have := ihs h
        omega
  | lastMember label element ih =>
      rw [text, List.length_append, List.length_cons]
      rcases List.mem_append.1 h with h | h
      · have := label.offset_mem_constructs h
        omega
      · have := ih h
        omega
  | member label element others ih ihs =>
      rw [text, List.length_append, List.length_append, List.length_cons, List.length_cons]
      rcases List.mem_append.1 h with h | h
      · rcases List.mem_append.1 h with h | h
        · have := label.offset_mem_constructs h
          omega
        · have := ih h
          omega
      · have := ihs h
        omega

/-- **The constructs of a tree stand one behind the other.** -/
theorem pairwise_constructs {part : Part} (t : Tree part) (outer p : ℕ) (seen : List String) :
    (t.constructs outer p seen).Pairwise (·.offset < ·.offset) := by
  induction t generalizing outer p seen with
  | word w => exact .nil
  | number n => exact .nil
  | string ss => exact pairwise_spelledConstructs ..
  | emptyArray space | emptyObject space => exact List.pairwise_singleton ..
  | array inner ih | object inner ih =>
      refine List.pairwise_cons.2 ⟨fun c hc => ?_, ih ..⟩
      exact (offset_mem_constructs hc).1
  | padded before value after ih => exact ih ..
  | lastItem first ih => exact ih ..
  | item first others ih ihs =>
      refine List.pairwise_append.2 ⟨ih .., ihs .., fun c hc c' hc' => ?_⟩
      have := offset_mem_constructs hc
      have := offset_mem_constructs hc'
      omega
  | lastMember label element ih =>
      refine List.pairwise_append.2 ⟨label.pairwise_constructs .., ih .., fun c hc c' hc' => ?_⟩
      have := label.offset_mem_constructs hc
      have := offset_mem_constructs hc'
      omega
  | member label element others ih ihs =>
      have hfirst : (label.constructs p seen ++
          element.constructs outer (p + label.text.length + 1) []).Pairwise
            (·.offset < ·.offset) := by
        refine List.pairwise_append.2 ⟨label.pairwise_constructs .., ih .., fun c hc c' hc' => ?_⟩
        have := label.offset_mem_constructs hc
        have := offset_mem_constructs hc'
        omega
      refine List.pairwise_append.2 ⟨hfirst, ihs .., fun c hc c' hc' => ?_⟩
      have := offset_mem_constructs hc'
      rcases List.mem_append.1 hc with hc | hc
      · have := label.offset_mem_constructs hc
        omega
      · have := offset_mem_constructs hc
        omega

/-! ### What the constructs say -/

/-- The **keys are distinct** in each object of a tree, also in those that are overwritten. -/
def KeysDistinct {part : Part} (t : Tree part) : Prop :=
  ∀ keys ∈ t.objectKeys, keys.Nodup

/-- No string or key of a tree has an **escape for the character of number zero**. -/
def NulFree {part : Part} (t : Tree part) : Prop :=
  ∀ s ∈ t.spellings, s.text ≠ nulEscape

/-- The constructs of a string are all escapes for the character of number zero. -/
theorem forall_mem_quotedConstructs {P : Construct → Prop} (hP : ∀ role q, P (.nul role q))
    (role : Role) (ss : List Spelling) (p : ℕ) : ∀ c ∈ quotedConstructs role p ss, P c := by
  intro c hc
  obtain ⟨q, rfl, -, -⟩ := of_mem_spelledConstructs hc
  exact hP role q

/-- A label opens no container. -/
theorem shallow_label (l : Label) (p : ℕ) (seen : List String) (limit : ℕ) :
    ∀ c ∈ l.constructs p seen, c.Shallow limit := by
  intro c hc
  rcases List.mem_append.1 hc with hc | hc
  · split_ifs at hc with hmem
    · rw [List.mem_singleton.1 hc]
      trivial
    · exact absurd hc List.not_mem_nil
  · exact forall_mem_quotedConstructs (fun _ _ => trivial) _ _ _ c hc

/-- **No bracket is too deep exactly if the tree is not.** -/
theorem forall_shallow_iff {part : Part} {t : Tree part} {outer p limit : ℕ}
    {seen : List String} :
    (∀ c ∈ t.constructs outer p seen, c.Shallow limit) ↔
      t.depth = 0 ∨ outer + t.depth ≤ limit := by
  induction t generalizing outer p seen with
  | word w => simp [constructs, depth]
  | number n => simp [constructs, depth]
  | string ss =>
      rw [constructs, depth, iff_true_right (.inl rfl)]
      exact forall_mem_quotedConstructs (fun _ _ => trivial) _ _ _
  | emptyArray space | emptyObject space =>
      rw [constructs, List.forall_mem_singleton, Construct.Shallow, depth]
      omega
  | array inner ih | object inner ih =>
      rw [constructs, List.forall_mem_cons, ih, Construct.Shallow, depth]
      omega
  | padded before value after ih => exact ih
  | lastItem first ih => exact ih
  | item first others ih ihs =>
      rw [constructs, List.forall_mem_append, ih, ihs, depth]
      omega
  | lastMember label element ih =>
      rw [constructs, List.forall_mem_append, ih, depth]
      exact and_iff_right (shallow_label label p seen limit)
  | member label element others ih ihs =>
      rw [constructs, List.forall_mem_append, List.forall_mem_append, ih, ihs, depth,
        and_iff_right (shallow_label label p seen limit)]
      omega

/-- A label is fresh if its key has not been seen. -/
theorem forall_fresh_label_iff {l : Label} {p : ℕ} {seen : List String} :
    (∀ c ∈ l.constructs p seen, c.Fresh) ↔ l.string ∉ seen := by
  rw [Label.constructs, List.forall_mem_append,
    and_iff_left (forall_mem_quotedConstructs (fun _ _ => trivial) _ _ _)]
  split_ifs with hmem
  · rw [List.forall_mem_singleton]
    exact iff_of_false id fun h => h hmem
  · exact iff_of_true (List.forall_mem_nil _) hmem

/-- Only members have keys of their own. -/
theorem keys_eq_nil {part : Part} (t : Tree part) (h : part ≠ .members) : t.keys = [] := by
  cases t with
  | lastMember | member => exact absurd rfl h
  | _ => rfl

/-- **No key is repeated exactly if the keys of each object are distinct.** In the rest of an object
no key may be among those that stand before it either. -/
theorem forall_fresh_iff {part : Part} {t : Tree part} {outer p : ℕ} {seen : List String} :
    (∀ c ∈ t.constructs outer p seen, c.Fresh) ↔
      (t.keys.Nodup ∧ ∀ key ∈ t.keys, key ∉ seen) ∧ t.KeysDistinct := by
  induction t generalizing outer p seen with
  | word w => simp [constructs, keys, KeysDistinct, objectKeys]
  | number n => simp [constructs, keys, KeysDistinct, objectKeys]
  | string ss =>
      simp only [constructs, keys, KeysDistinct, objectKeys, List.nodup_nil, List.not_mem_nil,
        false_imp_iff, implies_true, and_self, iff_true]
      exact forall_mem_quotedConstructs (fun _ _ => trivial) _ _ _
  | emptyArray space | emptyObject space =>
      simp [constructs, keys, KeysDistinct, objectKeys, Construct.Fresh]
  | array inner ih =>
      rw [constructs, List.forall_mem_cons, ih, inner.keys_eq_nil nofun]
      simp [keys, KeysDistinct, objectKeys, Construct.Fresh]
  | object inner ih =>
      rw [constructs, List.forall_mem_cons, ih]
      simp [keys, KeysDistinct, objectKeys, Construct.Fresh]
  | padded before value after ih =>
      rw [constructs, ih, value.keys_eq_nil nofun]
      simp [keys, KeysDistinct, objectKeys]
  | lastItem first ih =>
      rw [constructs, ih, first.keys_eq_nil nofun]
      simp [keys, KeysDistinct, objectKeys]
  | item first others ih ihs =>
      rw [constructs, List.forall_mem_append, ih, ihs, first.keys_eq_nil nofun,
        others.keys_eq_nil nofun]
      simp only [keys, KeysDistinct, objectKeys, List.forall_mem_append]
      simp
  | lastMember label element ih =>
      rw [constructs, List.forall_mem_append, forall_fresh_label_iff, ih,
        element.keys_eq_nil nofun]
      simp [keys, KeysDistinct, objectKeys]
  | member label element others ih ihs =>
      rw [constructs, List.forall_mem_append, List.forall_mem_append, forall_fresh_label_iff, ih,
        ihs, element.keys_eq_nil nofun]
      simp only [keys, KeysDistinct, objectKeys, List.forall_mem_append, List.nodup_cons,
        List.mem_cons, not_or]
      constructor
      · rintro ⟨⟨hlabel, -, helement⟩, ⟨hnodup, hnew⟩, hothers⟩
        refine ⟨⟨⟨fun h => (hnew _ h).1 rfl, hnodup⟩, ?_⟩, helement, hothers⟩
        rintro key (rfl | hkey)
        · exact hlabel
        · exact (hnew key hkey).2
      · rintro ⟨⟨⟨hlabel, hnodup⟩, hnew⟩, helement, hothers⟩
        refine ⟨⟨hnew _ (.inl rfl), ⟨List.nodup_nil, by simp⟩, helement⟩,
          ⟨hnodup, fun key hkey => ⟨?_, hnew key (.inr hkey)⟩⟩, hothers⟩
        rintro rfl
        exact hlabel hkey

/-- A string has no construct exactly if none of its characters is the escape. -/
theorem forall_nulFree_quoted_iff {role : Role} {ss : List Spelling} {p : ℕ} :
    (∀ c ∈ quotedConstructs role p ss, c.NulFree) ↔ ∀ s ∈ ss, s.text ≠ nulEscape := by
  have hnil : (∀ c ∈ quotedConstructs role p ss, c.NulFree) ↔
      spelledConstructs role (p + 1) ss = [] := by
    rw [List.eq_nil_iff_forall_not_mem]
    refine forall₂_congr fun c hc => ?_
    obtain ⟨q, rfl, -, -⟩ := of_mem_spelledConstructs hc
    exact Iff.rfl
  rw [hnil, spelledConstructs_eq_nil_iff]
  exact forall₂_congr fun s _ => not_congr s.char_eq_nul_iff

/-- A label has such a construct exactly if its key has the escape. -/
theorem forall_nulFree_label_iff {l : Label} {p : ℕ} {seen : List String} :
    (∀ c ∈ l.constructs p seen, c.NulFree) ↔ ∀ s ∈ l.key, s.text ≠ nulEscape := by
  rw [Label.constructs, List.forall_mem_append, forall_nulFree_quoted_iff]
  refine and_iff_right fun c hc => ?_
  split_ifs at hc with hmem
  · rw [List.mem_singleton.1 hc]
    trivial
  · exact absurd hc List.not_mem_nil

/-- **No construct is an escape for the character of number zero exactly if the tree has none.** -/
theorem forall_nulFree_iff {part : Part} {t : Tree part} {outer p : ℕ} {seen : List String} :
    (∀ c ∈ t.constructs outer p seen, c.NulFree) ↔ t.NulFree := by
  induction t generalizing outer p seen with
  | word w => simp [constructs, NulFree, spellings]
  | number n => simp [constructs, NulFree, spellings]
  | string ss => exact forall_nulFree_quoted_iff
  | emptyArray space | emptyObject space =>
      simp [constructs, NulFree, spellings, Construct.NulFree]
  | array inner ih | object inner ih =>
      rw [constructs, List.forall_mem_cons, ih]
      exact and_iff_right trivial
  | padded before value after ih => exact ih
  | lastItem first ih => exact ih
  | item first others ih ihs =>
      rw [constructs, List.forall_mem_append, ih, ihs, NulFree, NulFree, NulFree, spellings,
        List.forall_mem_append]
  | lastMember label element ih =>
      rw [constructs, List.forall_mem_append, forall_nulFree_label_iff, ih, NulFree, NulFree,
        spellings, List.forall_mem_append]
  | member label element others ih ihs =>
      rw [constructs, List.forall_mem_append, List.forall_mem_append, forall_nulFree_label_iff,
        ih, ihs, NulFree, NulFree, NulFree, spellings, List.forall_mem_append,
        List.forall_mem_append]

/-- **When nothing in a document is refused**: each of the three choices is about one property of
the tree. -/
theorem forall_refusal?_eq_none_iff {o : Options} {d : Document} :
    (∀ c ∈ d.constructs 0 0 [], c.refusal? o = none) ↔
      d.depth ≤ o.maxDepth ∧ (o.rejectDuplicates = true → d.KeysDistinct) ∧
        (o.allowNul = false → d.NulFree) := by
  have hdepth : (∀ c ∈ d.constructs 0 0 [], c.Shallow o.maxDepth) ↔
      d.depth = 0 ∨ 0 + d.depth ≤ o.maxDepth := forall_shallow_iff
  have hfresh : (∀ c ∈ d.constructs 0 0 [], c.Fresh) ↔
      (d.keys.Nodup ∧ ∀ key ∈ d.keys, key ∉ []) ∧ d.KeysDistinct := forall_fresh_iff
  have hnul : (∀ c ∈ d.constructs 0 0 [], c.NulFree) ↔ d.NulFree := forall_nulFree_iff
  rw [keys_eq_nil d nofun] at hfresh
  have hkeys : d.KeysDistinct ↔ ∀ c ∈ d.constructs 0 0 [], c.Fresh := by
    rw [hfresh]
    exact (and_iff_right ⟨List.nodup_nil, by simp⟩).symm
  have hlimit : d.depth ≤ o.maxDepth ↔ d.depth = 0 ∨ 0 + d.depth ≤ o.maxDepth := by
    omega
  rw [hlimit, hkeys, ← hdepth, ← hnul]
  simp only [Construct.refusal?_eq_none_iff]
  refine ⟨fun h => ⟨fun c hc => (h c hc).1, fun ho c hc => (h c hc).2.1 ho,
    fun ho c hc => (h c hc).2.2 ho⟩, fun ⟨h₁, h₂, h₃⟩ c hc => ⟨h₁ c hc, fun ho => h₂ ho c hc,
    fun ho => h₃ ho c hc⟩⟩

end Tree

end StrictJson.Syntax
