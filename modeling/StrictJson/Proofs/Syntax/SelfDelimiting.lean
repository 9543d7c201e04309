import StrictJson.Proofs.Syntax.Grammar
import StrictJson.Proofs.Syntax.MoreInput
import StrictJson.Proofs.Value.RoundTrip

/-!
# Self-Delimiting Documents

A string, an array and an object have a byte that closes them, so where they end does not depend on
what follows. A word or a number goes on as long as it can, but inside a container a delimiter
always follows it. So a document with a closed value is read to its closing byte whatever stands
behind that: white space is skipped and anything else is reported.

Hence such a document cannot be cut short. What is left of it would begin with the same byte, so it
would be a closed value as well, and then the rest of the document would stand behind its end.

## Main definitions

* `Value.closing?`: the byte that closes a value.

## Main results

* `parse_append_of_blank`, `exists_parse_append_eq_error`: what may follow a closed document.
* `exists_parse_eq_error_of_truncated`: a document that is cut before its closing byte is refused.
* `parse_closed`: closed documents delimit themselves.
-/

namespace StrictJson

/-- The byte that **closes** a value: strings, arrays and objects have one. -/
def Value.closing? : Value → Option UInt8
  | string _ => some 0x22
  | array _ => some 0x5d
  | object _ => some 0x7d
  | _ => none

namespace Syntax

variable {o : Options}

/-- The byte that closes what another byte opens. -/
def closingOf? (opening : UInt8) : Option UInt8 :=
  if opening = 0x22 then some 0x22
  else if opening = 0x5b then some 0x5d
  else if opening = 0x7b then some 0x7d
  else none

/-! ### Closed trees -/

/-- Numbers have no closing byte. -/
theorem NumberToken.closing?_value (n : NumberToken) : n.value.closing? = none := by
  rcases n.value_cases with ⟨i, hi⟩ | ⟨x, hx, -⟩
  · rw [hi]
    rfl
  · rw [hx]
    rfl

/-- The first byte of a value tells whether it is closed, and by which byte. -/
theorem Tree.exists_opening (t : Tree .value) :
    ∃ b bytes, t.text = b :: bytes ∧ isSpace b = false ∧ closingOf? b = t.meaning.closing? := by
  cases t with
  | word w => cases w <;> exact ⟨_, _, rfl, rfl, rfl⟩
  | number n =>
      obtain ⟨b, bytes, htext, hb⟩ := n.exists_head
      have hne : ∀ b' : UInt8, b' ≠ 0x2d → isDigit b' = false → b ≠ b' := by
        rintro b' hminus hdigit rfl
        rcases hb with hb | hb
        · exact hminus hb
        · exact Bool.false_ne_true (hdigit.symm.trans hb)
      refine ⟨b, bytes, htext, ?_, ?_⟩
      · rcases hb with rfl | hb
        · rfl
        · exact isSpace_of_isDigit hb
      · rw [closingOf?, if_neg (hne 0x22 (by decide) rfl), if_neg (hne 0x5b (by decide) rfl),
          if_neg (hne 0x7b (by decide) rfl), meaning, n.closing?_value]
  | string | emptyArray | array | emptyObject | object => exact ⟨_, _, rfl, rfl, rfl⟩

/-- A closed value ends with its closing byte. -/
theorem Tree.exists_closing {t : Tree .value} {b : UInt8} (h : t.meaning.closing? = some b) :
    ∃ front, t.text = front ++ [b] := by
  cases t with
  | word w => cases w <;> cases h
  | number n => simp [Tree.meaning, n.closing?_value] at h
  | string | emptyArray | array | emptyObject | object =>
      obtain rfl := Option.some.inj h
      exact ⟨_, rfl⟩

/-- **A closed value is read whatever follows it.** -/
theorem Tree.isReadBefore_of_closing {t : Tree .value} {b : UInt8}
    (h : t.meaning.closing? = some b) (rest : List UInt8) : t.IsReadBefore o rest := by
  cases t with
  | word w => cases w <;> cases h
  | number n => simp [Tree.meaning, n.closing?_value] at h
  | string ss => exact isReadBefore_string ss rest
  | emptyArray space => exact isReadBefore_emptyArray space rest
  | array items => exact isReadBefore_array (run_tree items) rest
  | emptyObject space => exact isReadBefore_emptyObject space rest
  | object members => exact isReadBefore_object (run_tree members) rest

/-! ### Behind the value of a document -/

section

variable {v : Value} {p : ℕ} {bytes : List UInt8}

/-- Nothing but white space may follow the value of a document, and the first byte that is none is
reported. -/
theorem exists_run_after_eq_error (h : ¬ ∀ b ∈ bytes, isSpace b = true) :
    ∃ b, run o ⟨⟨p, bytes⟩, [], .after v⟩ =
      .error ⟨.trailing b, p + bytes.findIdx fun b => !isSpace b⟩ := by
  obtain ⟨space, hbytes, -, hstops⟩ := exists_space ⟨p, bytes⟩
  simp only at hbytes
  cases hrest : (⟨p, bytes⟩ : Cursor).skipSpace.rest with
  | nil =>
      rw [hrest, List.append_nil] at hbytes
      exact absurd (hbytes ▸ space.isSpace) h
  | cons b rest =>
      rw [hrest] at hbytes hstops
      have hb : isSpace b = false := stops_cons.1 hstops
      have hindex : bytes.findIdx (fun b => !isSpace b) = space.text.length := by
        have hspace : space.text.findIdx (fun b => !isSpace b) = space.text.length :=
          List.findIdx_eq_length_of_false fun b hb => by rw [space.isSpace b hb, Bool.not_true]
        rw [hbytes, List.findIdx_append, hspace, if_neg (Nat.lt_irrefl _), List.findIdx_cons, hb,
          Bool.not_false, cond_true, Nat.zero_add]
      refine ⟨b, ?_⟩
      rw [hindex, hbytes, run_eq, step_trailing space hb]

end

/-! ### Closed documents -/

section

variable {before after : Space} {t : Tree .value} {front more : List UInt8} {b : UInt8}

/-- A closed document is read up to its closing byte, **whatever stands behind that**. -/
theorem parse_closed_append (ht : t.text = front ++ [b]) (hb : t.meaning.closing? = some b)
    (after : Space) (more : List UInt8) :
    parse o (before.text ++ front ++ b :: more) =
      refuse o ((Tree.padded before t after).constructs 0 0 [])
        (run o ⟨⟨(before.text ++ front).length + 1, more⟩, [], .after t.meaning⟩) := by
  have hread := Tree.isReadBefore_of_closing (o := o) hb more [] (0 + before.text.length)
  have htext : before.text ++ front ++ b :: more = before.text ++ (t.text ++ more) := by
    rw [ht]
    simp only [List.append_assoc, List.singleton_append]
  have hlen : 0 + before.text.length + t.text.length = (before.text ++ front).length + 1 := by
    rw [ht]
    simp only [List.length_append, List.length_singleton]
    omega
  rw [hlen] at hread
  rw [parse, State.initial, Cursor.start, htext, run_space, hread]
  rfl

/-- An accepted document with a closed value, cut at its closing byte. -/
theorem exists_closed_of_parse {input : List UInt8} {v : Value} (h : parse o input = .ok v)
    (hv : v.closing? = some b) :
    ∃ (before after : Space) (t : Tree .value) (front : List UInt8), t.text = front ++ [b] ∧
      t.meaning = v ∧ input = before.text ++ front ++ b :: after.text ∧
      ∀ more, parse o (before.text ++ front ++ b :: more) =
        run o ⟨⟨(before.text ++ front).length + 1, more⟩, [], .after v⟩ := by
  obtain ⟨d, rfl, rfl⟩ := exists_document_of_parse h
  cases d with
  | padded before t after =>
      obtain ⟨front, ht⟩ := Tree.exists_closing hv
      have hpass : ∀ c ∈ (Tree.padded before t after).constructs 0 0 [], c.refusal? o = none := by
        rwa [parse_text, refuse_eq_ok_iff] at h
      refine ⟨before, after, t, front, ht, rfl, ?_, fun more => ?_⟩
      · rw [Tree.text, ht]
        simp only [List.append_assoc, List.singleton_append]
      · rw [parse_closed_append ht hv after, refuse_of_forall hpass]
        rfl

variable {input : List UInt8} {v : Value}

/-- **White space behind a closed document changes nothing.** -/
theorem parse_append_of_blank (h : parse o input = .ok v) (hv : v.closing? = some b)
    (hmore : ∀ c ∈ more, isSpace c = true) : parse o (input ++ more) = .ok v := by
  obtain ⟨before, after, t, front, -, -, rfl, hparse⟩ := exists_closed_of_parse h hv
  rw [List.append_assoc, List.cons_append, hparse]
  exact run_blank ⟨_, List.forall_mem_append.2 ⟨after.isSpace, hmore⟩⟩ _ v

/-- **Anything else behind a closed document is reported**, at its first byte that is no white
space. -/
theorem exists_parse_append_eq_error (h : parse o input = .ok v) (hv : v.closing? = some b)
    (hmore : ¬ ∀ c ∈ more, isSpace c = true) :
    ∃ c, parse o (input ++ more) =
      .error ⟨.trailing c, input.length + more.findIdx fun c => !isSpace c⟩ := by
  obtain ⟨before, after, t, front, -, -, rfl, hparse⟩ := exists_closed_of_parse h hv
  obtain ⟨c, hc⟩ := exists_run_after_eq_error (o := o) (v := v)
    (p := (before.text ++ front).length + 1 + after.text.length) hmore
  have hlen : (before.text ++ front ++ b :: after.text).length =
      (before.text ++ front).length + 1 + after.text.length := by
    rw [List.length_append, List.length_cons]
    omega
  refine ⟨c, ?_⟩
  rw [List.append_assoc, List.cons_append, hparse, run_space, hc, hlen]

/-! ### Truncated documents -/

/-- A document that another one begins with is closed by the same byte, or neither is closed. -/
theorem closing?_eq_of_append {d d' : Document} {rest : List UInt8} (h : d.text ++ rest = d'.text) :
    d.meaning.closing? = d'.meaning.closing? := by
  cases d with
  | padded before t after =>
      cases d' with
      | padded before' t' after' =>
          obtain ⟨x, bytes, htext, hx, hclosing⟩ := t.exists_opening
          obtain ⟨y, bytes', htext', hy, hclosing'⟩ := t'.exists_opening
          rw [Tree.text, Tree.text, htext, htext'] at h
          simp only [List.append_assoc, List.cons_append] at h
          have hdrop := congrArg (List.dropWhile isSpace) h
          rw [dropWhile_append_of_stops before.isSpace (stops_cons.2 hx),
            dropWhile_append_of_stops before'.isSpace (stops_cons.2 hy)] at hdrop
          rw [Tree.meaning, Tree.meaning, ← hclosing, ← hclosing', (List.cons.inj hdrop).1]

/-- No white space closes a value. -/
theorem isSpace_of_closing (h : v.closing? = some b) : isSpace b = false := by
  cases v with
  | string | array | object =>
      obtain rfl := Option.some.inj h
      rfl
  | null | boolean | integer | real => cases h

/-- **A closed document that is cut before its closing byte is refused**, under any options. -/
theorem exists_parse_eq_error_of_truncated (o : Options) (ht : t.text = front ++ [b])
    (hb : t.meaning.closing? = some b) {w : List UInt8} (hw : w <+: before.text ++ front) :
    ∃ f, parse o w = .error f := by
  cases hparse : parse o w with
  | error f => exact ⟨f, rfl⟩
  | ok u =>
      exfalso
      obtain ⟨rest, hrest⟩ := hw
      obtain ⟨d, rfl, rfl⟩ := exists_document_of_parse hparse
      let whole : Document := .padded before t .none
      have hwhole : d.text ++ (rest ++ [b]) = whole.text := by
        rw [← List.append_assoc, hrest, Tree.text, ht, List.append_assoc]
        exact (List.append_nil _).symm
      -- where nothing is refused both are accepted, and what is left is closed as the whole is
      let lax : Options := ⟨whole.text.length, false, true⟩
      have hlax : lax.Lax whole.text.length := ⟨le_refl _, rfl, rfl⟩
      have hlax' : lax.Lax d.text.length := by
        refine ⟨?_, rfl, rfl⟩
        change d.text.length ≤ whole.text.length
        rw [← hwhole, List.length_append]
        exact Nat.le_add_right _ _
      have hclosing : d.meaning.closing? = some b := (closing?_eq_of_append hwhole).trans hb
      -- so the rest of the whole stands behind a closed document
      have hrest' : ¬ ∀ c ∈ rest ++ [b], isSpace c = true := by
        intro hblank
        have hspace := hblank b (List.mem_append_right _ (List.mem_singleton_self b))
        exact Bool.false_ne_true ((isSpace_of_closing hb).symm.trans hspace)
      obtain ⟨c, hc⟩ := exists_parse_append_eq_error hlax'.parse_text hclosing hrest'
      rw [hwhole, hlax.parse_text] at hc
      simp at hc

/-- Reading a value again does not change how it is closed. -/
theorem closing?_reread (v : Value) : v.reread.closing? = v.closing? := by
  cases v with
  | real x =>
      rw [Value.reread]
      split <;> rfl
  | _ => rfl

/-- **A compact text that is cut anywhere is refused**, if it is that of a closed value. -/
theorem exists_parse_eq_error_of_truncated_dump (o : Options) (hv : v.KeysDistinct)
    (hb : v.closing? = some b) {w : List UInt8} (hw : w <+: Utf8.ofString v.dump)
    (hne : w ≠ Utf8.ofString v.dump) : ∃ f, parse o w = .error f := by
  obtain ⟨t, ht⟩ := exists_writes v hv
  have hclosing : t.meaning.closing? = some b := by
    rw [ht.meaning, closing?_reread, hb]
  obtain ⟨front, hfront⟩ := Tree.exists_closing hclosing
  rw [Value.ofString_dump, ← ht.text, hfront] at hw hne
  have hw' : w <+: Space.none.text ++ front := (List.prefix_concat_iff.1 hw).resolve_left hne
  exact exists_parse_eq_error_of_truncated o hfront hclosing hw'

end

/-! ### Closed documents among others -/

/-- **Closed documents delimit themselves.**

If an input is accepted with a string, an array or an object as its value then white space behind it
changes nothing, and anything else behind it is reported at the first byte that is no white space.
The input ends with the closing byte of the value and white space, and whatever it begins with
before that byte is refused, also by other options. So the compact text of a string, an array or an
object is refused wherever it is cut. -/
theorem parse_closed (o : Options) :
    (∀ input v b, parse o input = .ok v → v.closing? = some b →
      (∀ more, (∀ c ∈ more, isSpace c = true) → parse o (input ++ more) = .ok v) ∧
      (∀ more, ¬ (∀ c ∈ more, isSpace c = true) → ∃ f, parse o (input ++ more) = .error f ∧
        f.toError.code = .endOfInputExpected ∧
        f.toError.offset = some (input.length + more.findIdx fun c => !isSpace c)) ∧
      ∃ front after, input = front ++ b :: after ∧ (∀ c ∈ after, isSpace c = true) ∧
        ∀ w, w <+: front → ∀ o', ∃ f, parse o' w = .error f) ∧
    (∀ v b, Value.KeysDistinct v → v.closing? = some b → ∀ w, w <+: Utf8.ofString v.dump →
      w ≠ Utf8.ofString v.dump → ∃ f, parse o w = .error f) := by
  refine ⟨fun input v b h hv => ⟨?_, ?_, ?_⟩, fun v b hkeys hv w hw hne => ?_⟩
  · exact fun more hmore => parse_append_of_blank h hv hmore
  · intro more hmore
    obtain ⟨c, hc⟩ := exists_parse_append_eq_error h hv hmore
    exact ⟨_, hc, rfl, rfl⟩
  · obtain ⟨before, after, t, front, ht, rfl, hinput, -⟩ := exists_closed_of_parse h hv
    exact ⟨_, after.text, hinput, after.isSpace,
      fun w hw o' => exists_parse_eq_error_of_truncated o' ht hv hw⟩
  · exact exists_parse_eq_error_of_truncated_dump o hkeys hv hw hne

/-- Behind the text `["a"]` a line feed changes nothing and a comma is reported, and the text that
stops before its bracket is refused. -/
theorem parse_closed_array :
    parse {} [0x5b, 0x22, 0x61, 0x22, 0x5d] = .ok (.array [.string "a"]) ∧
    parse {} ([0x5b, 0x22, 0x61, 0x22, 0x5d] ++ [0x0a]) = .ok (.array [.string "a"]) ∧
    (∃ f, parse {} ([0x5b, 0x22, 0x61, 0x22, 0x5d] ++ [0x20, 0x2c]) = .error f ∧
      f.toError.offset = some 6) ∧
    ∃ f, parse {} [0x5b, 0x22, 0x61, 0x22] = .error f := by
  have hkeys : Value.KeysDistinct (.array [.string "a"]) := ⟨trivial, trivial⟩
  have hdump : Utf8.ofString (Value.dump (.array [.string "a"])) =
      [0x5b, 0x22, 0x61, 0x22, 0x5d] := by rfl
  have hread : parse {} [0x5b, 0x22, 0x61, 0x22, 0x5d] = .ok (.array [.string "a"]) := by
    rw [← hdump]
    refine (parse_dump hkeys {}).1.2 ⟨by decide, .inr ?_⟩
    simp [Value.NulFree, Value.Every, Value.EveryItem, Value.NulFreeText]
  obtain ⟨hblank, hmore, -⟩ := (parse_closed {}).1 _ _ _ hread rfl
  obtain ⟨f, hf, -, hoffset⟩ := hmore [0x20, 0x2c] (by simp [isSpace])
  refine ⟨hread, hblank [0x0a] (by simp [isSpace]), ⟨f, hf, hoffset⟩, ?_⟩
  refine (parse_closed {}).2 (.array [.string "a"]) 0x5d hkeys rfl _ ?_ ?_
  · rw [hdump]
    exact ⟨[0x5d], rfl⟩
  · rw [hdump]
    simp

end Syntax

end StrictJson
