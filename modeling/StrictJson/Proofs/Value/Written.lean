import StrictJson.Proofs.Syntax.Constructs
import StrictJson.Proofs.Syntax.StringText
import StrictJson.Proofs.Value.Shape

/-!
# Values as They Are Written

The compact text of a value is the text of a syntax tree without any white space, whose meaning is
the value as it is read again. The tree has the depth of the value, and it has an escape for the
character of number zero exactly if the value has that character.

## Main definitions

* `Tree.Writes`: a tree writes a value.

## Main results

* `exists_writes`: every value is written by a tree.
-/

namespace StrictJson.Syntax

/-! ### Trees of texts -/

/-- A tree **writes** a value: its text is the compact text, and it says of itself what is true of
the value. -/
structure Tree.Writes (t : Tree .value) (v : Value) : Prop where
  text : t.text = v.dumpBytes
  meaning : t.meaning = v.reread
  depth : t.depth = v.depth
  keysDistinct : t.KeysDistinct
  nulFree_iff : t.NulFree ↔ v.NulFree

/-- The character of number zero is written by its escape. -/
theorem forall_writtenSpellings_iff (s : String) :
    (∀ sp ∈ writtenSpellings s, sp.text ≠ nulEscape) ↔ '\x00' ∉ s.toList := by
  have hchar : (∀ sp ∈ writtenSpellings s, sp.text ≠ nulEscape) ↔
      ∀ sp ∈ writtenSpellings s, sp.char ≠ '\x00' :=
    forall₂_congr fun sp _ => not_congr sp.char_eq_nul_iff.symm
  rw [hchar, writtenSpellings, List.forall_mem_map]
  exact ⟨fun h hmem => h _ hmem rfl, fun h c hc heq => h (heq ▸ hc)⟩

/-- A value without white space around it. -/
def Tree.bare (t : Tree .value) : Tree .element :=
  .padded .none t .none

theorem Tree.text_bare (t : Tree .value) : t.bare.text = t.text := by
  rw [bare, text, Space.none, List.nil_append, List.append_nil]

/-- A key without white space around it. -/
def writtenLabel (key : String) : Label :=
  ⟨.none, writtenSpellings key, .none⟩

theorem text_writtenLabel (key : String) :
    (writtenLabel key).text = Utf8.encodeChars (stringText key) := by
  rw [Label.text, writtenLabel, Space.none, List.nil_append, List.append_nil, quotedText_written]

theorem string_writtenLabel (key : String) : (writtenLabel key).string = key :=
  spelledString_written key

/-! ### Containers -/

/-- What the items of a tree have to be to write some values. -/
structure Tree.WritesItems (t : Tree .items) (vs : List Value) : Prop where
  text : t.text = Utf8.encodeChars (commaSeparated (Value.renderItems .compact vs))
  meaning : t.meaning = Value.rereadItems vs
  depth : t.depth = Value.depthItems vs
  keysDistinct : t.KeysDistinct
  nulFree_iff : t.NulFree ↔ ∀ v ∈ vs, v.NulFree

/-- What the members of a tree have to be to write some members. -/
structure Tree.WritesMembers (t : Tree .members) (ms : List (String × Value)) : Prop where
  text : t.text = Utf8.encodeChars (commaSeparated (Value.renderMembers .compact ms))
  meaning : t.meaning = Value.rereadMembers ms
  depth : t.depth = Value.depthMembers ms
  keys : t.keys = ms.map Prod.fst
  keysDistinct : t.KeysDistinct
  nulFree_iff : t.NulFree ↔ ∀ m ∈ ms, '\x00' ∉ m.1.toList ∧ m.2.NulFree

/-- Items that are written one by one are written with commas between them. -/
theorem exists_writesItems (v : Value) (vs : List Value)
    (h : ∀ u ∈ v :: vs, ∃ t : Tree .value, t.Writes u) :
    ∃ ts : Tree .items, ts.WritesItems (v :: vs) := by
  induction vs generalizing v with
  | nil =>
      obtain ⟨t, ht⟩ := h v (List.mem_cons_self ..)
      refine ⟨.lastItem t.bare, ?_, ?_, ?_, ht.keysDistinct, ?_⟩
      · rw [Tree.text, t.text_bare, ht.text]
        rfl
      · exact congrArg (fun w => [w]) ht.meaning
      · exact ht.depth.trans (Nat.max_zero _).symm
      · rw [List.forall_mem_singleton]
        exact ht.nulFree_iff
  | cons u us ih =>
      rw [List.forall_mem_cons] at h
      obtain ⟨⟨t, ht⟩, hrest⟩ := h
      obtain ⟨ts, hts⟩ := ih u hrest
      refine ⟨.item t.bare ts, ?_, ?_, ?_, ?_, ?_⟩
      · have hcomma : commaSeparated (Value.renderItems .compact (v :: u :: us)) =
            v.render .compact ++ ',' :: commaSeparated (Value.renderItems .compact (u :: us)) :=
          rfl
        rw [Tree.text, t.text_bare, ht.text, hts.text, hcomma, Utf8.encodeChars_append]
        rfl
      · exact congrArg₂ List.cons ht.meaning hts.meaning
      · exact congrArg₂ max ht.depth hts.depth
      · exact List.forall_mem_append.2 ⟨ht.keysDistinct, hts.keysDistinct⟩
      · rw [List.forall_mem_cons, ← ht.nulFree_iff, ← hts.nulFree_iff]
        exact List.forall_mem_append

/-- Members that are written one by one are written with commas between them. -/
theorem exists_writesMembers (m : String × Value) (ms : List (String × Value))
    (h : ∀ n ∈ m :: ms, ∃ t : Tree .value, t.Writes n.2) :
    ∃ ts : Tree .members, ts.WritesMembers (m :: ms) := by
  have hnul : ∀ key, (∀ s ∈ (writtenLabel key).key, s.text ≠ nulEscape) ↔ '\x00' ∉ key.toList :=
    forall_writtenSpellings_iff
  induction ms generalizing m with
  | nil =>
      obtain ⟨key, v⟩ := m
      obtain ⟨t, ht⟩ := h (key, v) (List.mem_cons_self ..)
      refine ⟨.lastMember (writtenLabel key) t.bare, ?_, ?_, ?_, ?_, ht.keysDistinct, ?_⟩
      · rw [Tree.text, t.text_bare, ht.text, text_writtenLabel, Value.renderMembers,
          Value.renderMembers, commaSeparated, Utf8.encodeChars_append]
        rfl
      · exact congrArg₂ (fun k w => [(k, w)]) (string_writtenLabel key) ht.meaning
      · exact ht.depth.trans (Nat.max_zero _).symm
      · exact congrArg (fun k => [k]) (string_writtenLabel key)
      · rw [List.forall_mem_singleton, ← hnul, ← ht.nulFree_iff]
        exact List.forall_mem_append
  | cons n ns ih =>
      rw [List.forall_mem_cons] at h
      obtain ⟨key, v⟩ := m
      obtain ⟨⟨t, ht⟩, hrest⟩ := h
      obtain ⟨ts, hts⟩ := ih n hrest
      refine ⟨.member (writtenLabel key) t.bare ts, ?_, ?_, ?_, ?_, ?_, ?_⟩
      · have hcomma : commaSeparated (Value.renderMembers .compact ((key, v) :: n :: ns)) =
            (stringText key ++ ':' :: v.render .compact) ++
              ',' :: commaSeparated (Value.renderMembers .compact (n :: ns)) :=
          rfl
        rw [Tree.text, t.text_bare, ht.text, text_writtenLabel, hts.text, hcomma,
          Utf8.encodeChars_append, Utf8.encodeChars_append]
        rfl
      · exact congrArg₂ List.cons (congrArg₂ Prod.mk (string_writtenLabel key) ht.meaning)
          hts.meaning
      · exact congrArg₂ max ht.depth hts.depth
      · exact congrArg₂ List.cons (string_writtenLabel key) hts.keys
      · exact List.forall_mem_append.2 ⟨ht.keysDistinct, hts.keysDistinct⟩
      · rw [List.forall_mem_cons, ← hts.nulFree_iff, ← hnul, ← ht.nulFree_iff, Tree.NulFree,
          Tree.spellings, List.forall_mem_append, List.forall_mem_append]
        exact Iff.rfl

/-! ### Values -/

/-- A tree without keys and strings writes a value of which only text and meaning matter. -/
theorem Tree.writes_of_plain {t : Tree .value} {v : Value} (htext : t.text = v.dumpBytes)
    (hmeaning : t.meaning = v.reread) (hdepth : t.depth = v.depth) (hkeys : t.objectKeys = [])
    (hspellings : t.spellings = []) (hv : v.NulFree) : t.Writes v where
  text := htext
  meaning := hmeaning
  depth := hdepth
  keysDistinct := by
    rw [KeysDistinct, hkeys]
    exact List.forall_mem_nil _
  nulFree_iff := by
    rw [NulFree, hspellings]
    exact iff_of_true (List.forall_mem_nil _) hv

/-- A real is written as a number, or as the word null if it is not finite. -/
theorem exists_writes_real (x : Binary64) : ∃ t : Tree .value, t.Writes (.real x) := by
  cases hx : x.isFinite with
  | true =>
      refine ⟨.number (realToken .compact x hx), Tree.writes_of_plain (text_realToken .compact x hx)
        ?_ rfl rfl rfl trivial⟩
      rw [Value.reread, if_pos hx]
      rfl
  | false =>
      refine ⟨.word .null, Tree.writes_of_plain ?_ ?_ rfl rfl rfl trivial⟩
      · rw [Value.dumpBytes, Value.render, realText_of_notFinite .compact hx]
        rfl
      · rw [Value.reread, hx]
        rfl

/-- An array is written by the tree of its items. -/
theorem Tree.WritesItems.array {ts : Tree .items} {v : Value} {vs : List Value}
    (h : ts.WritesItems (v :: vs)) : (Tree.array ts).Writes (.array (v :: vs)) := by
  refine ⟨?_, congrArg Value.array h.meaning, congrArg (· + 1) h.depth, h.keysDistinct, ?_⟩
  · rw [Tree.text, h.text, Value.dumpBytes, Value.render, Utf8.encodeChars_append]
    rfl
  · rw [Value.NulFree, Value.every_array_iff]
    exact h.nulFree_iff.trans (and_iff_right trivial).symm

/-- An object is written by the tree of its members. Its keys are distinct, so no member is lost
when they are collected. -/
theorem Tree.WritesMembers.object {ts : Tree .members} {m : String × Value}
    {ms : List (String × Value)} (h : ts.WritesMembers (m :: ms))
    (hkeys : ((m :: ms).map Prod.fst).Nodup) : (Tree.object ts).Writes (.object (m :: ms)) := by
  refine ⟨?_, ?_, congrArg (· + 1) h.depth, ?_, ?_⟩
  · rw [Tree.text, h.text, Value.dumpBytes, Value.render, Utf8.encodeChars_append]
    rfl
  · rw [Tree.meaning, h.meaning, Value.reread, Members.ofPairs_of_nodup]
    rw [Value.map_fst_rereadMembers]
    exact hkeys
  · exact List.forall_mem_cons.2 ⟨h.keys ▸ hkeys, h.keysDistinct⟩
  · rw [Value.NulFree, Value.every_object_iff, Value.NulFreeText, ← forall₂_and]
    exact h.nulFree_iff

/-- **Every value is written by a tree.** -/
theorem exists_writes (v : Value) (hv : v.KeysDistinct) : ∃ t : Tree .value, t.Writes v := by
  induction v using Value.induction with
  | null => exact ⟨.word .null, Tree.writes_of_plain rfl rfl rfl rfl rfl trivial⟩
  | boolean b =>
      cases b with
      | false => exact ⟨.word .false, Tree.writes_of_plain rfl rfl rfl rfl rfl trivial⟩
      | true => exact ⟨.word .true, Tree.writes_of_plain rfl rfl rfl rfl rfl trivial⟩
  | integer n =>
      exact ⟨.number (integerToken n),
        Tree.writes_of_plain (text_integerToken n) rfl rfl rfl rfl trivial⟩
  | real x => exact exists_writes_real x
  | string s =>
      exact ⟨.string (writtenSpellings s), quotedText_written s,
        congrArg Value.string (spelledString_written s), rfl, List.forall_mem_nil _,
        forall_writtenSpellings_iff s⟩
  | array items ih =>
      rw [Value.KeysDistinct, Value.keysDistinctItems_iff] at hv
      cases items with
      | nil =>
          refine ⟨.emptyArray .none, Tree.writes_of_plain rfl rfl rfl rfl rfl ?_⟩
          exact Value.every_array_iff.2 ⟨trivial, List.forall_mem_nil _⟩
      | cons v vs =>
          obtain ⟨ts, hts⟩ := exists_writesItems v vs fun u hu => ih u hu (hv u hu)
          exact ⟨.array ts, hts.array⟩
  | object members ih =>
      rw [Value.KeysDistinct, Value.keysDistinctMembers_iff] at hv
      cases members with
      | nil =>
          refine ⟨.emptyObject .none, Tree.writes_of_plain rfl rfl rfl rfl rfl ?_⟩
          exact Value.every_object_iff.2 ⟨List.forall_mem_nil _, List.forall_mem_nil _⟩
      | cons m ms =>
          obtain ⟨ts, hts⟩ := exists_writesMembers m ms fun n hn => ih n hn (hv.2 n hn)
          exact ⟨.object ts, hts.object hv.1⟩

end StrictJson.Syntax
