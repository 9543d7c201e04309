import Mathlib.Data.Nat.Basic
import Mathlib.Order.Basic
import Mathlib.Order.Bounds.Defs
import StrictJson.Proofs.Utf8.Boundary

/-!
# Decoding in the Middle

What a decoder finds that starts somewhere in some bytes. In a text it finds a character exactly
where a walk from the start would find one, and nothing anywhere else: a byte inside a character is
a trail byte, and no trail byte leads a sequence. So a walk can be taken up again wherever it was
left, texts that stand behind one another are decoded one after the other, and one that is cut off
does not matter to what stands before the cut.

In any bytes, a character that is decoded is settled by its own bytes. The two facts together let a
reader start and stop at the places that a walk visits, and only there.

## Main definitions

* `decodeFrom`: decoding with an index that moves on past a character.
* `Visits`: the indices that repeated decoding comes to.
* `start`: where a character of a text starts.

## Main results

* `exists_of_decodeAt?_encodeChars`: nothing is decoded inside a character.
* `visits_encodeChars_iff`: a walk visits the starts of the characters, and the end.
* `walk_decodePrefix`, `Walk.isGreatest`: a walk stops at the last boundary.
* `decodeAt?_of_before`: a character is settled by its own bytes.
* `decodeFrom_synchronized`: decoding synchronizes itself.
-/

namespace StrictJson.Utf8

variable {bytes front back : List UInt8} {chars more : List Char} {c : Char} {i k n final : ℕ}

/-! ### Decoding with an index -/

/-- Decodes the character at an index, which moves on past its sequence. If there is none the index
stays. -/
def decodeFrom (bytes : List UInt8) (index : ℕ) : Option Char × ℕ :=
  match decodeAt? bytes index with
  | some (c, next) => (some c, next)
  | none => (none, index)

theorem decodeFrom_of_some (h : decodeAt? bytes i = some (c, n)) :
    decodeFrom bytes i = (some c, n) := by
  rw [decodeFrom, h]

theorem decodeFrom_of_none (h : decodeAt? bytes i = none) : decodeFrom bytes i = (none, i) := by
  rw [decodeFrom, h]

/-- What is decoded at an index stands there. -/
theorem decodeAt?_eq_some_iff :
    decodeAt? bytes i = some (c, n) ↔ n = i + (encodeChar c).length ∧
      bytes.drop i = encodeChar c ++ bytes.drop n := by
  rw [decodeAt?]
  constructor
  · intro h
    split at h
    · next d m hnext =>
      obtain ⟨rfl, rfl⟩ := Prod.mk.inj (Option.some.inj h)
      obtain ⟨rfl, hbytes⟩ := eq_encodeChar_append_of_next? hnext
      rw [List.drop_drop] at hbytes
      exact ⟨rfl, hbytes⟩
    · simp at h
  · rintro ⟨rfl, hbytes⟩
    rw [hbytes, next?_encodeChar_append]

/-- There is nothing to decode at the end or past it. -/
theorem decodeAt?_of_le (h : bytes.length ≤ i) : decodeAt? bytes i = none := by
  rw [decodeAt?, List.drop_of_length_le h, next?_nil]

theorem lt_length_of_decodeAt? (h : decodeAt? bytes i = some (c, n)) : i < bytes.length := by
  refine Nat.lt_of_not_le fun hle => ?_
  simp [decodeAt?_of_le hle] at h

/-- **A character that is decoded is settled by its own bytes**: it is decoded wherever they
stand. -/
theorem decodeAt?_of_before {other : List UInt8} {j : ℕ} (h : decodeAt? bytes i = some (c, n))
    (hother : (bytes.drop i).take (n - i) <+: other.drop j) :
    decodeAt? other j = some (c, j + (n - i)) := by
  obtain ⟨rfl, hbytes⟩ := decodeAt?_eq_some_iff.1 h
  rw [Nat.add_sub_cancel_left] at hother ⊢
  rw [hbytes, List.take_left] at hother
  obtain ⟨rest, hrest⟩ := hother
  rw [decodeAt?_eq_some_iff]
  refine ⟨rfl, ?_⟩
  rw [← List.drop_drop, ← hrest, List.drop_left]

/-! ### Inside a character -/

/-- No sequence starts with a trail byte. -/
theorem next?_of_isTrail {b : UInt8} (h : isTrail b = true) (rest : List UInt8) :
    next? (b :: rest) = none := by
  have hb := isTrail_iff.1 h
  have hlead : sequenceLength? b = none := by
    simp only [sequenceLength?, UInt8.lt_iff_toNat_lt, UInt8.reduceToNat]
    rw [if_neg (by omega), if_pos (by omega)]
  rw [next?, hlead]

/-- All bytes of a character but the first are trail bytes. -/
theorem exists_encodeChar_eq_cons (c : Char) :
    ∃ lead trail, encodeChar c = lead :: trail ∧ ∀ b ∈ trail, isTrail b = true := by
  obtain ⟨lead, trail, hseq, -, htrail, -⟩ := codePoint_sequence (toNat_lt c)
  exact ⟨lead, trail, hseq, List.all_eq_true.1 htrail⟩

/-- **Nothing is decoded inside a character.** -/
theorem decodeAt?_encodeChar_inside (c : Char) (rest : List UInt8) (hpos : 0 < i)
    (hlt : i < (encodeChar c).length) : decodeAt? (encodeChar c ++ rest) i = none := by
  obtain ⟨lead, trail, hchar, htrail⟩ := exists_encodeChar_eq_cons c
  obtain ⟨i, rfl⟩ := Nat.exists_eq_succ_of_ne_zero hpos.ne'
  rw [hchar, List.length_cons, Nat.succ_lt_succ_iff] at hlt
  rw [hchar, decodeAt?, List.cons_append, List.drop_succ_cons,
    List.drop_append_of_le_length hlt.le, List.drop_eq_getElem_cons hlt, List.cons_append,
    next?_of_isTrail (htrail _ (List.getElem_mem hlt))]

/-! ### The characters of a text -/

/-- Where the character number `k` of a text **starts**; past the last one, where the text ends. -/
def start (chars : List Char) (k : ℕ) : ℕ :=
  (encodeChars (chars.take k)).length

@[simp] theorem start_zero (chars : List Char) : start chars 0 = 0 := rfl

@[simp] theorem start_cons_succ (c : Char) (chars : List Char) (k : ℕ) :
    start (c :: chars) (k + 1) = (encodeChar c).length + start chars k := by
  rw [start, List.take_succ_cons, encodeChars_cons, List.length_append, start]

/-- A character and those after it stand where it starts. -/
theorem drop_start (chars : List Char) (k : ℕ) :
    (encodeChars chars).drop (start chars k) = encodeChars (chars.drop k) := by
  have hsplit : encodeChars (chars.take k) ++ encodeChars (chars.drop k) = encodeChars chars := by
    rw [← encodeChars_append, List.take_append_drop]
  rw [← hsplit, start, List.drop_left]

theorem start_succ (h : k < chars.length) :
    start chars (k + 1) = start chars k + (encodeChar chars[k]).length := by
  rw [start, start, List.take_succ_eq_append_getElem h, encodeChars_append, List.length_append,
    encodeChars_cons, encodeChars_nil, List.append_nil]

/-- A character of a text is decoded where it starts. -/
theorem decodeAt?_start (h : k < chars.length) :
    decodeAt? (encodeChars chars) (start chars k) = some (chars[k], start chars (k + 1)) := by
  rw [decodeAt?_eq_some_iff]
  refine ⟨start_succ h, ?_⟩
  rw [drop_start, drop_start, List.drop_eq_getElem_cons h, encodeChars_cons]

/-- **What is decoded in a text is a character that starts there.** -/
theorem exists_of_decodeAt?_encodeChars (h : decodeAt? (encodeChars chars) i = some (c, n)) :
    ∃ k, k < chars.length ∧ start chars k = i := by
  induction chars generalizing i n with
  | nil => exact absurd (lt_length_of_decodeAt? h) (Nat.not_lt_zero i)
  | cons d chars ih =>
      rcases Nat.eq_zero_or_pos i with rfl | hpos
      · exact ⟨0, Nat.succ_pos _, rfl⟩
      · rcases Nat.lt_or_ge i (encodeChar d).length with hlt | hge
        · rw [encodeChars_cons, decodeAt?_encodeChar_inside d _ hpos hlt] at h
          simp at h
        · obtain ⟨j, rfl⟩ := Nat.exists_eq_add_of_le hge
          obtain ⟨rfl, hbytes⟩ := decodeAt?_eq_some_iff.1 h
          have hrest : decodeAt? (encodeChars chars) j =
              some (c, j + (encodeChar c).length) := by
            rw [decodeAt?_eq_some_iff]
            refine ⟨rfl, ?_⟩
            rwa [encodeChars_cons, Nat.add_assoc, List.drop_length_add_append,
              List.drop_length_add_append] at hbytes
          obtain ⟨k, hk, rfl⟩ := ih hrest
          exact ⟨k + 1, Nat.succ_lt_succ hk, start_cons_succ d chars k⟩

/-! ### Walks -/

/-- Repeated decoding from the start **visits** an index. -/
inductive Visits (bytes : List UInt8) : ℕ → Prop
  | start : Visits bytes 0
  | next {index middle : ℕ} {c : Char} : Visits bytes index →
      decodeAt? bytes index = some (c, middle) → Visits bytes middle

/-- **A walk through a text visits the starts of the characters, and the end.** -/
theorem visits_encodeChars_iff :
    Visits (encodeChars chars) i ↔ ∃ k ≤ chars.length, start chars k = i := by
  constructor
  · intro h
    induction h with
    | start => exact ⟨0, Nat.zero_le _, rfl⟩
    | next _ hnext _ =>
        obtain ⟨k, hk, rfl⟩ := exists_of_decodeAt?_encodeChars hnext
        rw [decodeAt?_start hk] at hnext
        exact ⟨k + 1, hk, (Prod.mk.inj (Option.some.inj hnext)).2⟩
  · rintro ⟨k, hk, rfl⟩
    induction k with
    | zero => exact .start
    | succ k ih => exact .next (ih (Nat.le_of_succ_le hk)) (decodeAt?_start hk)

theorem start_lt_length_iff (hk : k ≤ chars.length) :
    start chars k < (encodeChars chars).length ↔ k < chars.length := by
  constructor
  · intro h
    refine hk.lt_of_ne fun heq => ?_
    rw [heq, start, List.take_length] at h
    exact lt_irrefl _ h
  · exact fun h => lt_length_of_decodeAt? (decodeAt?_start h)

/-- **A text is decoded exactly at the indices that a walk visits** before the end. -/
theorem isSome_decodeFrom_encodeChars_iff :
    (decodeFrom (encodeChars chars) i).1.isSome = true ↔
      Visits (encodeChars chars) i ∧ i < (encodeChars chars).length := by
  constructor
  · intro h
    cases hi : decodeAt? (encodeChars chars) i with
    | none => simp [decodeFrom_of_none hi] at h
    | some outcome =>
        obtain ⟨k, hk, rfl⟩ := exists_of_decodeAt?_encodeChars hi
        exact ⟨visits_encodeChars_iff.2 ⟨k, hk.le, rfl⟩, lt_length_of_decodeAt? hi⟩
  · rintro ⟨hvisits, hlt⟩
    obtain ⟨k, hk, rfl⟩ := visits_encodeChars_iff.1 hvisits
    rw [decodeFrom_of_some (decodeAt?_start ((start_lt_length_iff hk).1 hlt))]
    rfl

/-- A walk comes to one end, past one row of characters. -/
theorem Walk.unique {final' : ℕ} (h : Walk bytes i chars final) (h' : Walk bytes i more final') :
    chars = more ∧ final = final' := by
  induction h generalizing more with
  | stop hstop =>
      cases h' with
      | stop => exact ⟨rfl, rfl⟩
      | next hnext => simp [hstop] at hnext
  | next hnext _ ih =>
      cases h' with
      | stop hstop => simp [hnext] at hstop
      | next hnext' h' =>
          rw [hnext] at hnext'
          obtain ⟨rfl, rfl⟩ := Prod.mk.inj (Option.some.inj hnext')
          obtain ⟨rfl, rfl⟩ := ih h'
          exact ⟨rfl, rfl⟩

/-- Repeated decoding behind other bytes finds what is decoded without them. -/
theorem walk_append_decodePrefix (front bytes : List UInt8) :
    Walk (front ++ bytes) front.length (decodePrefix bytes).1
      (front.length + (encodeChars (decodePrefix bytes).1).length) := by
  fun_induction decodePrefix bytes generalizing front with
  | case1 bytes hnone =>
      refine .stop ?_
      rw [decodeAt?, List.drop_left, hnone]
  | case2 bytes c n hsome chars rest hrest ih =>
      obtain ⟨rfl, hbytes⟩ := eq_encodeChar_append_of_next? hsome
      have hwalk := ih (front ++ encodeChar c)
      rw [hrest, List.length_append, List.append_assoc, ← hbytes] at hwalk
      rw [encodeChars_cons, List.length_append, ← Nat.add_assoc]
      refine .next ?_ hwalk
      rw [decodeAt?_eq_some_iff]
      refine ⟨rfl, ?_⟩
      rw [List.drop_left, List.drop_length_add_append, ← hbytes]

/-- **A walk from the start** goes through the characters up to the first place where none can be
decoded. -/
theorem walk_decodePrefix (bytes : List UInt8) :
    Walk bytes 0 (decodePrefix bytes).1 (encodeChars (decodePrefix bytes).1).length := by
  simpa using walk_append_decodePrefix [] bytes

/-- **A walk from the start stops at the last boundary.** -/
theorem Walk.isGreatest (h : Walk bytes 0 chars final) :
    IsGreatest {k | IsBoundary bytes k} final := by
  obtain ⟨rfl, rfl⟩ := h.unique (walk_decodePrefix bytes)
  have hlongest := isLongestText_decodePrefix bytes
  refine ⟨⟨hlongest.stands.length_le, ?_⟩, fun k hk => hlongest.le_length hk⟩
  rw [List.prefix_iff_eq_take.1 hlongest.stands] at hlongest
  exact hlongest.isValid

/-- Decoding without a character leaves the index. -/
theorem decodeFrom_of_isSome_ne (h : ¬ (decodeFrom bytes i).1.isSome = true) :
    decodeFrom bytes i = (none, i) := by
  cases hi : decodeAt? bytes i with
  | none => exact decodeFrom_of_none hi
  | some outcome => simp [decodeFrom_of_some hi] at h

/-- **Decoding synchronizes itself.** A text is decoded at the indices that a walk from its start
visits, the end apart, and there as the character that the walk finds; at every other index nothing
is decoded and the index stays. Texts can be cut off at the front and put behind one another. In any
bytes, a character that is decoded lies within them, takes one to four of them, and is decoded
wherever these stand. -/
theorem decodeFrom_synchronized :
    (∀ bytes, isValid bytes = true → ∃ chars, Encodes chars bytes ∧ ∀ i,
      ((decodeFrom bytes i).1.isSome = true ↔ Visits bytes i ∧ i < bytes.length) ∧
      (Visits bytes i ↔ ∃ k ≤ chars.length, start chars k = i) ∧
      (∀ k, (hk : k < chars.length) → start chars k = i →
        decodeFrom bytes i = (some chars[k], start chars (k + 1))) ∧
      (¬ (Visits bytes i ∧ i < bytes.length) → decodeFrom bytes i = (none, i))) ∧
    (∀ front back, isValid front = true → isValid (front ++ back) = isValid back) ∧
    (∀ front back chars more, decode? front = some chars → decode? back = some more →
      decode? (front ++ back) = some (chars ++ more)) ∧
    ∀ bytes i c n, decodeFrom bytes i = (some c, n) →
      1 ≤ n - i ∧ n - i ≤ 4 ∧ n ≤ bytes.length ∧
      ∀ other j, (bytes.drop i).take (n - i) <+: other.drop j →
        decodeFrom other j = (some c, j + (n - i)) := by
  refine ⟨fun bytes hvalid => ?_, fun front back h => isValid_append h,
    fun front back chars more h h' => ?_, fun bytes i c n h => ?_⟩
  · obtain ⟨chars, rfl⟩ := isValid_iff.1 hvalid
    refine ⟨chars, encodes_iff.2 rfl, fun i => ⟨isSome_decodeFrom_encodeChars_iff,
      visits_encodeChars_iff, ?_, fun hno => ?_⟩⟩
    · rintro k hk rfl
      exact decodeFrom_of_some (decodeAt?_start hk)
    · exact decodeFrom_of_isSome_ne (mt isSome_decodeFrom_encodeChars_iff.1 hno)
  · rw [decode?_eq_some_iff] at h h' ⊢
    rw [encodeChars_append, h, h']
  · cases hi : decodeAt? bytes i with
    | none => simp [decodeFrom_of_none hi] at h
    | some outcome =>
        obtain ⟨d, m⟩ := outcome
        rw [decodeFrom_of_some hi] at h
        obtain ⟨hd, rfl⟩ := Prod.mk.inj h
        obtain rfl := Option.some.inj hd
        obtain ⟨hm, hbytes⟩ := decodeAt?_eq_some_iff.1 hi
        obtain ⟨hone, hfour⟩ := length_encodeChar d
        have hlength := congrArg List.length hbytes
        rw [List.length_append, List.length_drop, List.length_drop] at hlength
        refine ⟨by omega, by omega, by omega, fun other j hother => ?_⟩
        exact decodeFrom_of_some (decodeAt?_of_before hi hother)

/-- The letter é stands behind a byte and takes two. Nothing is decoded from the second of them. -/
theorem decodeFrom_synchronized_accent :
    isValid [0x61, 0xc3, 0xa9] = true ∧ decodeFrom [0x61, 0xc3, 0xa9] 2 = (none, 2) ∧
      decodeFrom [0xff, 0x61, 0xc3, 0xa9] 2 = (some 'é', 4) := by
  have hvalid : isValid [0x61, 0xc3, 0xa9] = true := isValid_iff.2 ⟨['a', 'é'], rfl⟩
  obtain ⟨htext, -, -, hlocal⟩ := decodeFrom_synchronized
  obtain ⟨chars, -, hchars⟩ := htext _ hvalid
  obtain ⟨hsome, -, -, hnone⟩ := hchars 2
  obtain ⟨-, -, -, hmoved⟩ := hlocal [0x61, 0xc3, 0xa9] 1 'é' 3 rfl
  exact ⟨hvalid, hnone (mt hsome.2 (by decide)), hmoved _ 2 (by decide)⟩

end StrictJson.Utf8
