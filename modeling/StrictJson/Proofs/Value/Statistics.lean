import StrictJson.Proofs.Value.RoundTrip
import StrictJson.Value.Statistics

/-!
# Statistics and What They Measure

The statistics of a value are gathered in one walk with an accumulator. What they measure is said
here without the walk. Each count is the number of subtrees of a kind, their total is the number of
all subtrees, and the depth is the least depth limit under which the text of the value is read.

The walk and the reader keep depth in different ways. The walk knows how many containers are around
a value, and notes this when it comes to the value and once more, with one added, when it goes into
a container. The reader counts brackets up and down. Both come to the depth of the value, of which
neither of them speaks.

## Main definitions

* `Value.subtrees`: a value and all values inside it.

## Main results

* `Statistics.count_visit`, `Statistics.depth_visit`: what a walk adds to the statistics.
* `Statistics.collect_measures`: what the statistics of a value are.
-/

namespace StrictJson

/-! ### Subtrees -/

namespace Value

mutual

/-- The **subtrees** of a value: the value itself and the subtrees of all values in it, each as
often as it stands there. -/
def subtrees : Value → List Value
  | .array items => .array items :: subtreesOfItems items
  | .object members => .object members :: subtreesOfMembers members
  | v => [v]

/-- The subtrees of the items of an array. -/
def subtreesOfItems : List Value → List Value
  | [] => []
  | v :: vs => v.subtrees ++ subtreesOfItems vs

/-- The subtrees of the values of members. -/
def subtreesOfMembers : List (String × Value) → List Value
  | [] => []
  | (_, v) :: ms => v.subtrees ++ subtreesOfMembers ms

end

end Value

/-- Every value has one of the seven kinds. -/
theorem sum_countP_kind (vs : List Value) :
    (Kind.all.map fun kind => vs.countP (·.kind == kind)).sum = vs.length := by
  induction vs with
  | nil => rfl
  | cons v vs ih =>
      simp only [Kind.all, List.map_cons, List.map_nil, List.sum_cons, List.sum_nil,
        List.countP_cons, List.length_cons] at ih ⊢
      generalize v.kind = kind
      cases kind <;> simp <;> omega

namespace Statistics

variable {level : ℕ} {s : Statistics} {kind : Kind}

/-! ### Counts -/

@[simp] theorem count_reach : (reach level s).count kind = s.count kind := by
  cases kind <;> rfl

/-- The total is the sum of the counts. -/
theorem total_eq_sum (s : Statistics) : s.total = (Kind.all.map s.count).sum := by
  simp only [total, Kind.all, List.map_cons, List.map_nil, List.sum_cons, List.sum_nil, count]
  omega

theorem count_visitItems {items : List Value}
    (h : ∀ v ∈ items, ∀ level s, (visit level s v).count kind =
      s.count kind + v.subtrees.countP (·.kind == kind)) :
    (visitItems level s items).count kind =
      s.count kind + (Value.subtreesOfItems items).countP (·.kind == kind) := by
  induction items generalizing s with
  | nil => rfl
  | cons v vs ih =>
      obtain ⟨hv, hvs⟩ := List.forall_mem_cons.1 h
      rw [visitItems, ih hvs, hv, Value.subtreesOfItems, List.countP_append, Nat.add_assoc]

theorem count_visitMembers {members : List (String × Value)}
    (h : ∀ m ∈ members, ∀ level s, (visit level s m.2).count kind =
      s.count kind + m.2.subtrees.countP (·.kind == kind)) :
    (visitMembers level s members).count kind =
      s.count kind + (Value.subtreesOfMembers members).countP (·.kind == kind) := by
  induction members generalizing s with
  | nil => rfl
  | cons m ms ih =>
      obtain ⟨hm, hms⟩ := List.forall_mem_cons.1 h
      rw [visitMembers, ih hms, hm, Value.subtreesOfMembers, List.countP_append, Nat.add_assoc]

/-- **A walk adds the subtrees of a kind** to the count of the kind, whatever was counted before. -/
theorem count_visit (v : Value) (kind : Kind) (level : ℕ) (s : Statistics) :
    (visit level s v).count kind = s.count kind + v.subtrees.countP (·.kind == kind) := by
  induction v using Value.induction generalizing level s with
  | null | boolean | integer | real | string => cases kind <;> rfl
  | array items ih =>
      have hone : ∀ s : Statistics, count { s with arrays := s.arrays + 1 } kind =
          s.count kind + if (Kind.array == kind) = true then 1 else 0 := by
        intro s
        cases kind <;> rfl
      rw [visit, count_visitItems ih, count_reach, hone, count_reach, Value.subtrees,
        List.countP_cons, ← Nat.add_assoc]
      exact Nat.add_right_comm ..
  | object members ih =>
      have hone : ∀ s : Statistics, count { s with objects := s.objects + 1 } kind =
          s.count kind + if (Kind.object == kind) = true then 1 else 0 := by
        intro s
        cases kind <;> rfl
      rw [visit, count_visitMembers ih, count_reach, hone, count_reach, Value.subtrees,
        List.countP_cons, ← Nat.add_assoc]
      exact Nat.add_right_comm ..

/-! ### Depth -/

theorem depth_visitItems {items : List Value}
    (h : ∀ v ∈ items, ∀ level s, (visit level s v).depth = max s.depth (level + v.depth))
    (hlevel : level ≤ s.depth) :
    (visitItems level s items).depth = max s.depth (level + Value.depthItems items) := by
  induction items generalizing s with
  | nil => exact (max_eq_left hlevel).symm
  | cons v vs ih =>
      obtain ⟨hv, hvs⟩ := List.forall_mem_cons.1 h
      have hfirst := hv level s
      rw [visitItems, ih hvs (by omega), hfirst, Value.depthItems]
      omega

theorem depth_visitMembers {members : List (String × Value)}
    (h : ∀ m ∈ members, ∀ level s, (visit level s m.2).depth = max s.depth (level + m.2.depth))
    (hlevel : level ≤ s.depth) :
    (visitMembers level s members).depth = max s.depth (level + Value.depthMembers members) := by
  induction members generalizing s with
  | nil => exact (max_eq_left hlevel).symm
  | cons m ms ih =>
      obtain ⟨hm, hms⟩ := List.forall_mem_cons.1 h
      have hfirst := hm level s
      rw [visitMembers, ih hms (by omega), hfirst, Value.depthMembers]
      omega

/-- **A walk reaches as deep as the value goes** below the containers around it. -/
theorem depth_visit (v : Value) (level : ℕ) (s : Statistics) :
    (visit level s v).depth = max s.depth (level + v.depth) := by
  induction v using Value.induction generalizing level s with
  | null | boolean | integer | real | string => rfl
  | array items ih =>
      rw [visit, depth_visitItems ih (le_max_right ..), reach, reach, Value.depth]
      simp only
      omega
  | object members ih =>
      rw [visit, depth_visitMembers ih (le_max_right ..), reach, reach, Value.depth]
      simp only
      omega

/-- The depth of the statistics is the depth of the value. -/
theorem depth_collect (v : Value) : (collect v).depth = v.depth := by
  rw [collect, depth_visit, Nat.zero_add]
  exact max_eq_right (Nat.zero_le _)

/-! ### What the measures mean -/

/-- **A text that is too deep is refused for its depth**, if the character of number zero is
allowed. -/
theorem parse_dumpBytes_too_deep {v : Value} (hv : v.KeysDistinct) {o : Syntax.Options}
    (ho : o.allowNul = true) (hdepth : o.maxDepth < v.depth) :
    ∃ f, parse o v.dumpBytes = .error f ∧ f.toError.code = .stackOverflow := by
  rcases parse_dumpBytes_or_refused hv with hread | ⟨c, f, hfresh, hrefusal, hf⟩
  · exact absurd ((parse_dumpBytes_eq_ok_iff hv).1 hread).1 hdepth.not_ge
  · have hcode : f.toError.code = c.code := Syntax.Construct.code_refusal? hrefusal
    refine ⟨f, hf, ?_⟩
    rw [hcode]
    cases c with
    | bracket outer p => rfl
    | repeatedKey key p => exact absurd hfresh id
    | nul role p =>
        rw [Syntax.Construct.refusal?, if_pos ho] at hrefusal
        exact absurd hrefusal (Option.some_ne_none f).symm

/-- **What the statistics of a value are.** Each count is the number of subtrees of a kind, and the
total is the number of all subtrees. The depth is the least limit for which the text of the value is
read; for a lower one it is refused for its depth, whether or not keys may be repeated. And whatever
text the value was read from, its depth was within the limit there. -/
theorem collect_measures (v : Value) :
    (∀ kind, (collect v).count kind = v.subtrees.countP (·.kind == kind)) ∧
    (collect v).total = v.subtrees.length ∧
    (v.KeysDistinct → ∀ o : Syntax.Options, o.allowNul = true →
      ((collect v).depth ≤ o.maxDepth → parse o (Utf8.ofString v.dump) = .ok v.reread) ∧
      (o.maxDepth < (collect v).depth → ∃ f, parse o (Utf8.ofString v.dump) = .error f ∧
        f.toError.code = .stackOverflow)) ∧
    (∀ o input, parse o input = .ok v → (collect v).depth ≤ o.maxDepth) := by
  have hcount : ∀ kind, (collect v).count kind = v.subtrees.countP (·.kind == kind) := by
    intro kind
    rw [collect, count_visit]
    cases kind <;> exact Nat.zero_add _
  refine ⟨hcount, ?_, fun hv o ho => ?_, fun o input h => ?_⟩
  · rw [total_eq_sum, ← sum_countP_kind, funext hcount]
  · rw [depth_collect, v.ofString_dump]
    refine ⟨fun hdepth => ?_, parse_dumpBytes_too_deep hv ho⟩
    refine (parse_dumpBytes_eq_ok_iff hv).2 ⟨hdepth, fun hno => ?_⟩
    exact absurd (ho.symm.trans hno) Bool.true_eq_false.mp
  · rw [depth_collect]
    exact (Syntax.admits_of_parse h).depth

/-- An empty array inside an array inside an object is read under the limit 3 and not under 2. -/
theorem collect_measures_emptyInside :
    Value.KeysDistinct (.object [("a", .array [.null, .array []])]) ∧
    (collect (.object [("a", .array [.null, .array []])])).depth = 3 ∧
    parse ⟨3, true, true⟩ (Utf8.ofString (Value.object [("a", .array [.null, .array []])]).dump) =
      .ok (.object [("a", .array [.null, .array []])]) ∧
    (∃ f, parse ⟨2, false, true⟩
        (Utf8.ofString (Value.object [("a", .array [.null, .array []])]).dump) = .error f ∧
      f.toError.code = .stackOverflow) ∧
    (collect (.object [("a", .array [.null, .array []])])).depth ≤ 3 := by
  have hkeys : Value.KeysDistinct (.object [("a", .array [.null, .array []])]) :=
    ⟨by decide, ⟨trivial, trivial, trivial⟩, trivial⟩
  obtain ⟨-, -, hread, htext⟩ := collect_measures (.object [("a", .array [.null, .array []])])
  have hok := (hread hkeys ⟨3, true, true⟩ rfl).1 (by decide)
  exact ⟨hkeys, rfl, hok, (hread hkeys ⟨2, false, true⟩ rfl).2 (by decide), htext _ _ hok⟩

end Statistics

end StrictJson
