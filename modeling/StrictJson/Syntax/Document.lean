import StrictJson.Syntax.Numeral
import StrictJson.Syntax.StringToken
import StrictJson.Value.Members

/-!
# Documents

The reader of documents is a machine with a stack. The stack holds the containers that are open, the
innermost first, and a **goal** says what has to come next. One step reads one token together with
the white space before it, and either leaves the machine in a new state, ends with the value of the
document, or fails at a byte.

Steps look at nothing but the cursor, the stack and the goal. The number of open containers is the
height of the stack, so the limit on nesting is a limit on its height, and the reader needs no other
account of depth.

## Main definitions

* `Frame`, `Goal`, `State`, `step`: the machine.
* `run`: steps until the document ends or fails.
* `parse`: the value of a document.

## Main results

* `step_progress`: a step that does not end the run moves the cursor forward.
-/

namespace StrictJson.Syntax

/-- A container that is open around the value being read. -/
inductive Frame where
  /-- An array with the items read so far, the latest first. -/
  | array (items : List Value)
  /-- An object with the members read so far, and the key that the value belongs to. -/
  | object (members : List (String × Value)) (key : String)

/-- What has to come next. -/
inductive Goal where
  /-- A value. -/
  | value
  /-- A key, in an object with the members read so far. -/
  | key (members : List (String × Value))
  /-- What may follow a value that has been read to its end. -/
  | after (value : Value)

/-- A **state** of the reader. -/
structure State where
  cursor : Cursor
  stack : List Frame
  goal : Goal

/-- The outcome of a step. -/
inductive Outcome where
  /-- The run goes on. -/
  | more (state : State)
  /-- The document has been read to its end. -/
  | done (value : Value)

/-- Whether a byte is **white space** between tokens: a space, tab, line feed or carriage return. -/
def isSpace (b : UInt8) : Bool :=
  b == 0x20 || b == 0x09 || b == 0x0a || b == 0x0d

/-- Whether a byte is an ASCII letter. -/
def isLetter (b : UInt8) : Bool :=
  (0x41 ≤ b && b ≤ 0x5a) || (0x61 ≤ b && b ≤ 0x7a)

/-- The value that a word stands for. -/
def wordValue? (word : List UInt8) : Option Value :=
  if word = [0x74, 0x72, 0x75, 0x65] then some (.boolean true)
  else if word = [0x66, 0x61, 0x6c, 0x73, 0x65] then some (.boolean false)
  else if word = [0x6e, 0x75, 0x6c, 0x6c] then some .null
  else none

namespace Cursor

/-- The cursor past any white space. -/
def skipSpace (c : Cursor) : Cursor := c.skipWhile isSpace

/-- The failure that something else than wanted stands at the cursor. -/
def unexpected (c : Cursor) (wanted : Expectation) : Failure :=
  ⟨.unexpected wanted c.peek?, c.position⟩

end Cursor

/-! ### Scalars -/

/-- Reads a word at the cursor: a run of letters that has to be one of the three known ones. -/
def readWord (c : Cursor) : Except Failure (Value × Cursor) :=
  let word := c.rest.takeWhile isLetter
  match wordValue? word with
  | some v => .ok (v, c.advance word.length)
  | none => .error ⟨.unknownWord word, c.position⟩

/-- Reads a number at the cursor. Whatever is wrong with it is reported at its first byte. -/
def readNumber (c : Cursor) : Except Failure (Value × Cursor) :=
  match Numeral.scan c.rest with
  | .error f => .error ⟨f, c.position⟩
  | .ok (numeral, _) =>
    match numeral.value? with
    | some v => .ok (v, c.advance numeral.text.length)
    | none => .error ⟨.unrepresentable numeral.text, c.position⟩

/-! ### Steps -/

/-- Refuses to open a container at the cursor if as many are open as may be. -/
def checkDepth (options : Options) (stack : List Frame) (c : Cursor) : Except Failure Unit :=
  if stack.length < options.maxDepth then .ok () else .error ⟨.tooDeep options.maxDepth, c.position⟩

/-- Opens the object whose brace is at the cursor. An empty one closes in the same step. -/
def openObject (options : Options) (stack : List Frame) (c : Cursor) : Except Failure Outcome :=
  match checkDepth options stack c with
  | .error e => .error e
  | .ok () =>
    let inner := (c.advance 1).skipSpace
    if inner.peek? = some 0x7d then .ok (.more ⟨inner.advance 1, stack, .after (.object [])⟩)
    else .ok (.more ⟨inner, stack, .key []⟩)

/-- Opens the array whose bracket is at the cursor. An empty one closes in the same step. -/
def openArray (options : Options) (stack : List Frame) (c : Cursor) : Except Failure Outcome :=
  match checkDepth options stack c with
  | .error e => .error e
  | .ok () =>
    let inner := (c.advance 1).skipSpace
    if inner.peek? = some 0x5d then .ok (.more ⟨inner.advance 1, stack, .after (.array [])⟩)
    else .ok (.more ⟨inner, .array [] :: stack, .value⟩)

/-- Goes on after a scalar. -/
def scalarRead (stack : List Frame) : Except Failure (Value × Cursor) → Except Failure Outcome
  | .ok (v, next) => .ok (.more ⟨next, stack, .after v⟩)
  | .error e => .error e

/-- Starts the value at the cursor, which its first byte tells apart. -/
def startValue (options : Options) (stack : List Frame) (c : Cursor) : Except Failure Outcome :=
  match c.peek? with
  | none => .error (c.unexpected .value)
  | some b =>
    if b = 0x7b then openObject options stack c
    else if b = 0x5b then openArray options stack c
    else if b = 0x22 then
      scalarRead stack ((readString options .value c).map fun (s, next) => (.string s, next))
    else if b = 0x74 ∨ b = 0x66 ∨ b = 0x6e then scalarRead stack (readWord c)
    else if b = 0x2d ∨ isDigit b then scalarRead stack (readNumber c)
    else .error (c.unexpected .value)

/-- Reads a key and the colon after it, in an object with the given members. -/
def readKey (options : Options) (stack : List Frame) (members : List (String × Value))
    (c : Cursor) : Except Failure Outcome :=
  if c.peek? = some 0x22 then
    match readString options .key c with
    | .error e => .error e
    | .ok (key, next) =>
      if options.rejectDuplicates ∧ Members.contains key members then
        .error ⟨.duplicateKey key, c.position⟩
      else
        let colon := next.skipSpace
        if colon.peek? = some 0x3a then
          .ok (.more ⟨colon.advance 1, .object members key :: stack, .value⟩)
        else .error (colon.unexpected .colon)
  else .error (c.unexpected .key)

/-- Goes on after a value: to the next value of the innermost container, out of that container, or
to the end of the document. -/
def finishValue (stack : List Frame) (v : Value) (c : Cursor) : Except Failure Outcome :=
  match stack with
  | [] =>
    match c.peek? with
    | none => .ok (.done v)
    | some b => .error ⟨.trailing b, c.position⟩
  | .array items :: outer =>
    if c.peek? = some 0x2c then .ok (.more ⟨c.advance 1, .array (v :: items) :: outer, .value⟩)
    else if c.peek? = some 0x5d then
      .ok (.more ⟨c.advance 1, outer, .after (.array (v :: items).reverse)⟩)
    else .error (c.unexpected .arrayEnd)
  | .object members key :: outer =>
    let members := Members.insert key v members
    if c.peek? = some 0x2c then .ok (.more ⟨c.advance 1, outer, .key members⟩)
    else if c.peek? = some 0x7d then .ok (.more ⟨c.advance 1, outer, .after (.object members)⟩)
    else .error (c.unexpected .objectEnd)

/-- A **step** of the reader. -/
def step (options : Options) (s : State) : Except Failure Outcome :=
  let c := s.cursor.skipSpace
  match s.goal with
  | .value => startValue options s.stack c
  | .key members => readKey options s.stack members c
  | .after v => finishValue s.stack v c

/-! ### Progress -/

/-- Taking a byte that is there moves the cursor forward. -/
theorem Cursor.length_advance_one_lt {c : Cursor} {b : UInt8} (h : c.peek? = some b) :
    (c.advance 1).rest.length < c.rest.length :=
  Cursor.length_advance_lt (Cursor.rest_ne_nil h) (by decide)

theorem Cursor.length_skipSpace_le (c : Cursor) : c.skipSpace.rest.length ≤ c.rest.length :=
  c.length_skipWhile_le isSpace

theorem readWord_progress {c next : Cursor} {v : Value} (hc : c.rest ≠ [])
    (h : readWord c = .ok (v, next)) : next.rest.length < c.rest.length := by
  simp only [readWord] at h
  split at h
  · next v' hw =>
    simp only [Except.ok.injEq, Prod.mk.injEq] at h
    obtain ⟨-, rfl⟩ := h
    refine Cursor.length_advance_lt hc (List.length_pos_iff.2 fun hnil => ?_)
    simp [hnil, wordValue?] at hw
  · simp at h

theorem readNumber_progress {c next : Cursor} {v : Value} (hc : c.rest ≠ [])
    (h : readNumber c = .ok (v, next)) : next.rest.length < c.rest.length := by
  unfold readNumber at h
  split at h
  · simp at h
  · next numeral rest hs =>
    split at h
    · simp only [Except.ok.injEq, Prod.mk.injEq] at h
      obtain ⟨-, rfl⟩ := h
      exact Cursor.length_advance_lt hc (Numeral.text_pos hs)
    · simp at h

theorem scalarRead_progress {stack : List Frame} {r : Except Failure (Value × Cursor)} {s : State}
    {n : Nat} (hr : ∀ v next, r = .ok (v, next) → next.rest.length < n)
    (h : scalarRead stack r = .ok (.more s)) : s.cursor.rest.length < n := by
  cases r with
  | error e => simp [scalarRead] at h
  | ok p =>
    simp only [scalarRead, Except.ok.injEq, Outcome.more.injEq] at h
    subst h
    exact hr p.1 p.2 rfl

theorem openObject_progress {options : Options} {stack : List Frame} {c : Cursor} {s : State}
    {b : UInt8} (hb : c.peek? = some b) (h : openObject options stack c = .ok (.more s)) :
    s.cursor.rest.length < c.rest.length := by
  have h1 := Cursor.length_advance_one_lt hb
  have h2 := (c.advance 1).length_skipSpace_le
  simp only [openObject] at h
  split at h
  · simp at h
  · split at h
    all_goals simp only [Except.ok.injEq, Outcome.more.injEq] at h
    all_goals subst h
    all_goals simp only [Cursor.rest_advance, List.length_drop] at *
    all_goals omega

theorem openArray_progress {options : Options} {stack : List Frame} {c : Cursor} {s : State}
    {b : UInt8} (hb : c.peek? = some b) (h : openArray options stack c = .ok (.more s)) :
    s.cursor.rest.length < c.rest.length := by
  have h1 := Cursor.length_advance_one_lt hb
  have h2 := (c.advance 1).length_skipSpace_le
  simp only [openArray] at h
  split at h
  · simp at h
  · split at h
    all_goals simp only [Except.ok.injEq, Outcome.more.injEq] at h
    all_goals subst h
    all_goals simp only [Cursor.rest_advance, List.length_drop] at *
    all_goals omega

theorem startValue_progress {options : Options} {stack : List Frame} {c : Cursor} {s : State}
    (h : startValue options stack c = .ok (.more s)) :
    s.cursor.rest.length < c.rest.length := by
  unfold startValue at h
  split at h
  · simp at h
  · next b hb =>
    have hc := Cursor.rest_ne_nil hb
    split at h
    · exact openObject_progress hb h
    split at h
    · exact openArray_progress hb h
    split at h
    · refine scalarRead_progress (fun v next hv => ?_) h
      cases hs : readString options .value c with
      | error e => simp [hs, Except.map] at hv
      | ok p =>
        simp only [hs, Except.map, Except.ok.injEq, Prod.mk.injEq] at hv
        exact hv.2 ▸ readString_progress hs
    split at h
    · exact scalarRead_progress (fun _ _ hv => readWord_progress hc hv) h
    split at h
    · exact scalarRead_progress (fun _ _ hv => readNumber_progress hc hv) h
    · simp at h

theorem readKey_progress {options : Options} {stack : List Frame}
    {members : List (String × Value)} {c : Cursor} {s : State}
    (h : readKey options stack members c = .ok (.more s)) :
    s.cursor.rest.length < c.rest.length := by
  unfold readKey at h
  split at h
  · split at h
    · simp at h
    · next key next hk =>
      have h1 := readString_progress hk
      have h2 := next.length_skipSpace_le
      split at h
      · simp at h
      · simp only at h
        split at h
        · simp only [Except.ok.injEq, Outcome.more.injEq] at h
          subst h
          simp only [Cursor.rest_advance, List.length_drop]
          omega
        · simp at h
  · simp at h

theorem finishValue_progress {stack : List Frame} {v : Value} {c : Cursor} {s : State}
    (h : finishValue stack v c = .ok (.more s)) : s.cursor.rest.length < c.rest.length := by
  unfold finishValue at h
  simp only at h
  repeat' split at h
  all_goals simp only [Except.ok.injEq, Outcome.more.injEq, reduceCtorEq] at h
  all_goals subst h
  all_goals exact Cursor.length_advance_one_lt ‹_›

/-- A step that does not end the run moves the cursor forward. -/
theorem step_progress {options : Options} {s next : State} (h : step options s = .ok (.more next)) :
    next.cursor.rest.length < s.cursor.rest.length := by
  have h1 := s.cursor.length_skipSpace_le
  simp only [step] at h
  split at h
  · exact Nat.lt_of_lt_of_le (startValue_progress h) h1
  · exact Nat.lt_of_lt_of_le (readKey_progress h) h1
  · exact Nat.lt_of_lt_of_le (finishValue_progress h) h1

/-! ### Runs -/

/-- Runs the reader from a state to the end of the document or to a failure. -/
def run (options : Options) (s : State) : Except Failure Value :=
  match _h : step options s with
  | .error e => .error e
  | .ok (.done v) => .ok v
  | .ok (.more next) => run options next
termination_by s.cursor.rest.length
decreasing_by exact step_progress ‹_›

/-- The state before a document has been looked at. -/
def State.initial (input : List UInt8) : State :=
  ⟨.start input, [], .value⟩

end StrictJson.Syntax

namespace StrictJson

/-- The **value of a document**: of one JSON text with white space around it and nothing else. -/
def parse (options : Syntax.Options) (input : List UInt8) : Except Syntax.Failure Value :=
  Syntax.run options (.initial input)

end StrictJson
