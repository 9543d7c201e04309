import StrictJson.Proofs.Syntax.DescentNumber
import StrictJson.Proofs.Syntax.DescentString
import StrictJson.Proofs.Syntax.Reading

/-!
# The Run of a Descent

A descent reads what the machine with a stack reads. A procedure for a value leads from one cursor
to another one, and the machine goes from the first one, where it wants a value, to the second one,
where it has that value, whatever stack it has. The count of open containers that the procedures
keep is the height of that stack.

So a descent ends as a run of the machine does, and in no other way. On the way its position lies in
the input, its depth is the number of containers entered and not yet left, no value is asked for
with more containers open than allowed, there are as many calls inside one another as containers,
and a value that has been read has taken bytes and left the depth as it was.

## Main definitions

* `IsValue`: what a procedure for values must yield.

## Main results

* `yields_value`: the procedure for values does.
* `descend_sound`: a descent ends as the machine does, with sound notes.
-/

namespace StrictJson.Syntax.Descent

variable {o : Options} {input : List UInt8} {calls : List (ℕ × ℕ)} {α : Type}
  {c next : Cursor} {d : ℕ} {stack : List Frame}

/-! ### Going on -/

/-- How a run of the machine **goes on** with what has been read. -/
def goOn (result : Except Failure (α × Cursor)) (after : α → Cursor → Except Failure Value) :
    Except Failure Value :=
  match result with
  | .ok (a, next) => after a next
  | .error f => .error f

/-- How a run of the machine proceeds from the outcome of a step. -/
def proceed (o : Options) : Except Failure Outcome → Except Failure Value
  | .ok (.more next) => run o next
  | .ok (.done v) => .ok v
  | .error f => .error f

theorem run_eq_proceed (s : State) : run o s = proceed o (step o s) := by
  rw [run_eq]
  cases step o s with
  | error f => rfl
  | ok outcome => cases outcome <;> rfl

/-- A value at a cursor, as the machine reads it in a state that the stack determines: what is read
takes bytes, and the machine then has the value, whatever is open. -/
structure IsValue (o : Options) (d : ℕ) (start : List Frame → Except Failure Value) (c : Cursor)
    (result : Except Failure (Value × Cursor)) : Prop where
  progress : ∀ v next, result = .ok (v, next) → next.rest.length < c.rest.length
  runs : ∀ stack : List Frame, stack.length = d →
    start stack = goOn result fun v next => run o ⟨next, stack, .after v⟩

/-- Where the machine refuses, there is no value to speak of. -/
theorem IsValue.refused {start : List Frame → Except Failure Value} {f : Failure}
    (h : ∀ stack : List Frame, stack.length = d → start stack = .error f) :
    IsValue o d start c (.error f) where
  progress _ _ h := by cases h
  runs := h

/-- A procedure yields what the machine reads where it wants a **value**. -/
def YieldsValues (o : Options) (input : List UInt8) (calls : List (ℕ × ℕ)) (d : ℕ)
    (value : Proc Value) : Prop :=
  ∀ c, Yields o input calls value c d d (IsValue o d (fun stack => run o ⟨c, stack, .value⟩) c)

/-! ### Containers -/

section Containers

variable {β : Type} {closing : UInt8} {container : List β → Value}
  {state : List β → Cursor → List Frame → State} {parts : List β}

/-- What is read of a container from a cursor on, after some of its parts: it ends behind the
closing bracket, and the machine, which was in a `state` that goes with the parts, has the container
then. -/
structure IsRest (o : Options) (input : List UInt8) (closing : UInt8) (container : List β → Value)
    (state : List β → Cursor → List Frame → State) (d : ℕ) (parts : List β) (c : Cursor)
    (result : Except Failure (List β × Cursor)) : Prop where
  progress : ∀ all next, result = .ok (all, next) → next.rest.length < c.rest.length
  closed : ∀ all next, result = .ok (all, next) →
    ∃ bracket : Cursor, bracket.IsIn input ∧ bracket.peek? = some closing ∧
      next = bracket.advance 1
  runs : ∀ stack : List Frame, stack.length = d → run o (state parts c stack) =
    goOn result fun all next => run o ⟨next, stack, .after (container all)⟩

theorem IsRest.refused {f : Failure}
    (h : ∀ stack : List Frame, stack.length = d → run o (state parts c stack) = .error f) :
    IsRest o input closing container state d parts c (.error f) where
  progress _ _ h := by cases h
  closed _ _ h := by cases h
  runs := h

/-- **What follows a part** is read as the machine reads it, given what it makes of it. -/
theorem yields_separator {before : List β} {wanted : Expectation}
    (hle : next.rest.length < c.rest.length)
    (hrun : ∀ stack : List Frame, stack.length = d → run o (state before c stack) =
      if next.skipSpace.peek? = some 0x2c then run o (state parts (next.skipSpace.advance 1) stack)
      else if next.skipSpace.peek? = some closing then
        run o ⟨next.skipSpace.advance 1, stack, .after (container parts)⟩
      else .error (next.skipSpace.unexpected wanted)) :
    Yields o input calls (readSeparator input closing wanted parts) next (d + 1) (d + 1)
      (Turns (fun _ _ => True) (IsRest o input closing container state d) before c) := by
  refine reads_skipSpace.followed_yields (reads_peek.followed_yields (.of_isIn fun hc => ?_))
  replace hle := next.length_skipSpace_le.trans_lt hle
  generalize next.skipSpace = next at hle hrun hc
  split_ifs with hcomma hclosing
  · have hless := (Cursor.length_advance_one_lt hcomma).trans hle
    refine (reads_advance_one hcomma).followed_yields ((reads_pure _).yields
      (.again trivial hless fun result hrest => ?_))
    refine ⟨fun all n h => (hrest.progress all n h).trans hless, hrest.closed,
      fun stack hstack => ?_⟩
    rw [hrun stack hstack, if_pos hcomma, hrest.runs stack hstack]
  · have hless := (Cursor.length_advance_one_lt hclosing).trans hle
    refine (reads_advance_one hclosing).followed_yields ((reads_pure _).yields (.done ⟨?_, ?_, ?_⟩))
    · rintro _ _ ⟨⟩
      exact hless
    · rintro _ _ ⟨⟩
      exact ⟨next, hc, hclosing, rfl⟩
    · intro stack hstack
      rw [hrun stack hstack, if_neg hcomma, if_pos hclosing]
      rfl
  · refine reads_unexpected.yields (.error (.refused fun stack hstack => ?_))
    rw [hrun stack hstack, if_neg hcomma, if_neg hclosing]

/-- **A container is read as the machine reads it**, given what it makes of its opening bracket. -/
theorem yields_container {part : List β → Proc (List β ⊕ List β)}
    {start : List Frame → Except Failure Value} {b : UInt8} (hb : c.peek? = some b)
    (hopening : b = 0x7b ∨ b = 0x5b) (hclosing : closing = 0x7d ∨ closing = 0x5d)
    (hpart : d < o.maxDepth → ∀ parts c, Yields o input calls (part parts) c (d + 1) (d + 1)
      (Turns (fun _ _ => True) (IsRest o input closing container state d) parts c))
    (hstart : ∀ stack : List Frame, stack.length = d → start stack =
      if d < o.maxDepth then
        if (c.advance 1).skipSpace.peek? = some closing then
          run o ⟨(c.advance 1).skipSpace.advance 1, stack, .after (container [])⟩
        else run o (state [] (c.advance 1).skipSpace stack)
      else .error ⟨.tooDeep o.maxDepth, c.position⟩) :
    Yields o input calls (readContainer input o closing container part) c d d
      (IsValue o d start c) := by
  have henter : Reads o input calls (enter o) c d (d + 1) _ := reads_enter hb hopening
  by_cases hd : d < o.maxDepth
  · rw [if_pos hd] at henter
    simp only [if_pos hd] at hstart
    refine henter.followed_yields ((reads_advance_one hb).followed_yields
      (reads_skipSpace.followed_yields (reads_peek.followed_yields (.of_isIn fun hc => ?_))))
    have hle := ((c.advance 1).length_skipSpace_le).trans_lt (Cursor.length_advance_one_lt hb)
    generalize (c.advance 1).skipSpace = inner at hstart hle hc
    split_ifs with hempty
    · refine (reads_advance_one hempty).followed_yields
        ((reads_leave hc hempty hclosing).followed_yields ((reads_pure _).yields ⟨?_, ?_⟩))
      · rintro _ _ ⟨⟩
        exact (Cursor.length_advance_one_lt hempty).trans hle
      · intro stack hstack
        rw [hstart stack hstack, if_pos hempty]
        rfl
    · simp only [if_neg hempty] at hstart
      refine (yields_loop _ _ (fun parts c _ => hpart hd parts c) trivial).followed
        (fun e hrest => .refused fun stack hstack => ?_) fun all next hrest => ?_
      · rw [hstart stack hstack]
        exact hrest.runs stack hstack
      · obtain ⟨bracket, hin, hbracket, rfl⟩ := hrest.closed all next rfl
        refine (reads_leave hin hbracket hclosing).followed_yields
          ((reads_pure _).yields ⟨?_, fun stack hstack => ?_⟩)
        · rintro _ _ ⟨⟩
          exact (hrest.progress _ _ rfl).trans hle
        · rw [hstart stack hstack]
          exact hrest.runs stack hstack
  · rw [if_neg hd] at henter
    refine henter.broken.yields (.refused fun stack hstack => ?_)
    rw [hstart stack hstack, if_neg hd]

end Containers

section Value

variable {value : Proc Value}

/-! ### Arrays -/

/-- Where the machine wants the next item of an array. -/
def itemState (items : List Value) (c : Cursor) (stack : List Frame) : State :=
  ⟨c, .array items.reverse :: stack, .value⟩

/-- **An item and what follows it** are read as the machine reads them. -/
theorem yields_item (hvalue : YieldsValues o input calls (d + 1) value) (items : List Value)
    (c : Cursor) : Yields o input calls (readItem input value items) c (d + 1) (d + 1)
      (Turns (fun _ _ => True) (IsRest o input 0x5d .array itemState d) items c) := by
  refine (hvalue c).followed (fun e h => .error (.refused fun stack hstack => ?_))
    fun v next h => yields_separator (h.progress v next rfl) fun stack hstack => ?_
  · exact h.runs (.array items.reverse :: stack) (congrArg _ hstack)
  · have hframe := h.runs (.array items.reverse :: stack) (congrArg _ hstack)
    rw [itemState, hframe, goOn, run_eq_proceed]
    simp only [step, finishValue, itemState, List.reverse_append, List.reverse_cons,
      List.reverse_reverse]
    split_ifs <;> rfl

/-- **An array** is read as the machine reads it. -/
theorem yields_array (hvalue : d < o.maxDepth → YieldsValues o input calls (d + 1) value)
    (hb : c.peek? = some 0x5b) : Yields o input calls (readArray input o value) c d d
      (IsValue o d (fun stack => proceed o (openArray o stack c)) c) := by
  refine yields_container hb (.inr rfl) (.inr rfl) (fun hd => yields_item (hvalue hd))
    fun stack hstack => ?_
  simp only [openArray, checkDepth, hstack]
  by_cases hd : d < o.maxDepth
  · simp only [if_pos hd]
    split_ifs <;> rfl
  · simp only [if_neg hd]
    rfl

/-! ### Objects -/

/-- Where the machine wants the next key of an object. -/
def keyState (members : List (String × Value)) (c : Cursor) (stack : List Frame) : State :=
  ⟨c, stack, .key members⟩

/-- A key that the machine reads: behind its colon the machine wants the value of the member. -/
structure IsLabel (o : Options) (members : List (String × Value)) (c : Cursor)
    (result : Except Failure (String × Cursor)) : Prop where
  progress : ∀ key next, result = .ok (key, next) → next.rest.length < c.rest.length
  runs : ∀ stack : List Frame, run o (keyState members c stack) =
    goOn result fun key next => run o ⟨next, .object members key :: stack, .value⟩

theorem IsLabel.refused {members : List (String × Value)} {f : Failure}
    (h : ∀ stack : List Frame, run o (keyState members c stack) = .error f) :
    IsLabel o members c (.error f) where
  progress _ _ h := by cases h
  runs := h

/-- A key is read as it is over cursors, and compared with those before it. -/
theorem reads_key (members : List (String × Value)) :
    Reads o input calls (readKey input o members) c d d
      (if c.peek? = some 0x22 then
        match Syntax.readString o .key c with
        | .error e => .error e
        | .ok (key, next) =>
          if o.rejectDuplicates ∧ Members.contains key members then
            .error ⟨.duplicateKey key, c.position⟩
          else .ok (key, next)
      else .error (c.unexpected .key)) := by
  refine reads_peek.followed ?_
  split_ifs with hquote
  · refine reads_here.followed ?_
    have hstring : Reads o input calls (readString input o .key) c d d _ := reads_string .key hquote
    cases hread : Syntax.readString o .key c with
    | error e => exact (hread ▸ hstring).broken
    | ok found =>
        refine (hread ▸ hstring).followed ?_
        dsimp only
        split_ifs
        · exact reads_refuse
        · exact reads_pure _
  · exact reads_unexpected

/-- A colon is read where it stands. -/
theorem reads_colon : Reads o input calls (readColon input) c d d
    (if c.peek? = some 0x3a then .ok ((), c.advance 1) else .error (c.unexpected .colon)) := by
  refine reads_peek.followed ?_
  split_ifs with hcolon
  · exact reads_advance_one hcolon
  · exact reads_unexpected

/-- **A key and its colon** are read as the machine reads them. -/
theorem yields_label (members : List (String × Value)) (c : Cursor) :
    Yields o input calls (readLabel input o members) c d d (IsLabel o members c) := by
  have hstep : ∀ stack, run o (keyState members c stack) =
      proceed o (Syntax.readKey o stack members c.skipSpace) := fun _ => run_eq_proceed _
  have hspace := c.length_skipSpace_le
  refine reads_skipSpace.followed_yields ?_
  generalize c.skipSpace = quote at hstep hspace
  have hkey : Reads o input calls (readKey input o members) quote d d _ := reads_key members
  simp only [Syntax.readKey] at hstep
  split_ifs at hkey hstep with hquote
  · cases hread : Syntax.readString o .key quote with
    | error e =>
        simp only [hread] at hkey hstep
        exact hkey.broken.yields (.refused hstep)
    | ok found =>
        obtain ⟨key, afterKey⟩ := found
        have hprogress := readString_progress hread
        simp only [hread] at hkey hstep
        by_cases hrepeated : o.rejectDuplicates ∧ Members.contains key members
        · simp only [if_pos hrepeated] at hkey hstep
          exact hkey.broken.yields (.refused hstep)
        · simp only [if_neg hrepeated] at hkey hstep
          refine hkey.followed_yields (reads_skipSpace.followed_yields ?_)
          have hspace' := afterKey.length_skipSpace_le
          generalize afterKey.skipSpace = colon at hstep hspace'
          have hcolon : Reads o input calls (readColon input) colon d d _ := reads_colon
          split_ifs at hcolon hstep with hpeek
          · refine hcolon.followed_yields ((reads_pure _).yields ⟨?_, hstep⟩)
            rintro _ _ ⟨⟩
            have hless := Cursor.length_advance_one_lt hpeek
            omega
          · exact hcolon.broken.yields (.refused hstep)
  · exact hkey.broken.yields (.refused hstep)

/-- **A member and what follows it** are read as the machine reads them. -/
theorem yields_member (hvalue : YieldsValues o input calls (d + 1) value)
    (members : List (String × Value)) (c : Cursor) :
    Yields o input calls (readMember input o value members) c (d + 1) (d + 1)
      (Turns (fun _ _ => True) (IsRest o input 0x7d .object keyState d) members c) := by
  refine (yields_label members c).followed
    (fun e hlabel => .error (.refused fun stack _ => hlabel.runs stack))
    fun key afterLabel hlabel => ?_
  have hframe : ∀ stack : List Frame, stack.length = d →
      (Frame.object members key :: stack).length = d + 1 := fun _ => congrArg _
  refine (hvalue afterLabel).followed (fun e h => .error (.refused fun stack hstack => ?_))
    fun v next h => yields_separator ((h.progress v next rfl).trans (hlabel.progress key _ rfl))
      fun stack hstack => ?_
  · rw [hlabel.runs stack, goOn, h.runs _ (hframe stack hstack)]
    rfl
  · rw [hlabel.runs stack, goOn, h.runs _ (hframe stack hstack), goOn, run_eq_proceed]
    simp only [step, finishValue]
    split_ifs <;> rfl

/-- **An object** is read as the machine reads it. -/
theorem yields_object (hvalue : d < o.maxDepth → YieldsValues o input calls (d + 1) value)
    (hb : c.peek? = some 0x7b) : Yields o input calls (readObject input o value) c d d
      (IsValue o d (fun stack => proceed o (openObject o stack c)) c) := by
  refine yields_container hb (.inl rfl) (.inl rfl) (fun hd => yields_member (hvalue hd))
    fun stack hstack => ?_
  simp only [openObject, checkDepth, hstack]
  by_cases hd : d < o.maxDepth
  · simp only [if_pos hd]
    split_ifs <;> rfl
  · simp only [if_neg hd]
    rfl

/-! ### Values -/

/-- What a scalar yields. -/
theorem isValue_of_scalarRead {start : List Frame → Except Failure Outcome}
    {result : Except Failure (Value × Cursor)}
    (hstart : ∀ stack, start stack = scalarRead stack result)
    (hprogress : ∀ v next, result = .ok (v, next) → next.rest.length < c.rest.length) :
    IsValue o d (fun stack => proceed o (start stack)) c result where
  progress := hprogress
  runs stack _ := by
    rw [hstart]
    obtain f | ⟨v, next⟩ := result
    · rfl
    · rfl

/-- **What the first byte of a value announces** is read as the machine reads it. -/
theorem yields_announced (hvalue : d < o.maxDepth → YieldsValues o input calls (d + 1) value) :
    Yields o input calls (readAnnounced input o value) c d d
      (IsValue o d (fun stack => proceed o (startValue o stack c)) c) := by
  refine reads_peek.followed_yields ?_
  cases hb : c.peek? with
  | none =>
      refine reads_unexpected.yields (.refused fun stack _ => ?_)
      rw [startValue, hb]
      rfl
  | some b =>
      simp only [startValue, hb]
      have hrest := Cursor.rest_ne_nil hb
      split_ifs with hobject harray hstring hword hnumber
      · exact yields_object hvalue (hobject ▸ hb)
      · exact yields_array hvalue (harray ▸ hb)
      · have hread : Reads o input calls (readString input o .value) c d d _ :=
          reads_string .value hb
        cases hresult : Syntax.readString o .value c with
        | error e =>
            rw [hresult] at hread
            exact hread.broken.yields (.refused fun _ _ => rfl)
        | ok found =>
            have hprogress := readString_progress hresult
            rw [hresult] at hread
            refine hread.followed_yields ((reads_pure _).yields ⟨?_, fun _ _ => rfl⟩)
            rintro _ _ ⟨⟩
            exact hprogress
      · exact reads_word.yields (isValue_of_scalarRead (fun _ => rfl) fun _ _ =>
          readWord_progress hrest)
      · exact reads_number.yields (isValue_of_scalarRead (fun _ => rfl) fun _ _ =>
          readNumber_progress hrest)
      · exact reads_unexpected.yields (.refused fun _ _ => rfl)

/-- **Values are read as the machine reads them**, as long as there are calls left for as many
containers as may still be entered. -/
theorem yields_value {levels : ℕ} (hcalls : calls.length = d) (hdepth : d ≤ o.maxDepth)
    (hlevels : o.maxDepth < d + levels) :
    YieldsValues o input calls d (readValue input o levels) := by
  -- Each container that is entered takes one level, and adds one to the depth and one open call.
  induction levels generalizing d calls with
  | zero => omega
  | succ levels ih =>
      refine fun c => yields_call hcalls hdepth (reads_skipSpace.followed_yields ?_)
        fun v next h => h.progress v next rfl
      have hspace := c.length_skipSpace_le
      refine (yields_announced fun hd => ih (congrArg _ hcalls) hd (by omega)).weaken
        fun result h => ⟨fun v next hresult => ?_, fun stack hstack => ?_⟩
      · exact (h.progress v next hresult).trans_le hspace
      · exact (run_eq_proceed _).trans (h.runs stack hstack)

end Value

/-! ### Documents -/

/-- A document yields its value, or is refused, as the machine says. -/
theorem yields_document : Yields o input [] (readDocument input o) (.start input) 0 0
    (fun result => result.map Prod.fst = parse o input) := by
  refine (yields_value rfl (Nat.zero_le _) (by omega) _).followed (fun e h => ?_) fun v next h =>
    reads_skipSpace.followed_yields (reads_peek.followed_yields ?_)
  · exact (h.runs [] rfl).symm
  · have hrun : parse o input = proceed o (finishValue [] v next.skipSpace) :=
      (h.runs [] rfl).trans (run_eq_proceed _)
    rw [hrun, finishValue]
    cases next.skipSpace.peek? with
    | none => exact (reads_pure v).yields rfl
    | some b => exact (reads_here.followed reads_refuse).yields rfl

/-- A run of a descent agrees with the run of the machine. -/
theorem exists_agrees_descend (o : Options) (input : List UInt8) :
    ∃ result, Agrees o input [] 0 (descend o input) result ∧ result.map Prod.fst = parse o input :=
  yields_document _ (Reader.stands_initial o input)

/-- **A descent ends as the machine does, with sound notes.** It runs into no trap, so all loops and
calls end, all accesses lie in the input and the depth is never taken below zero, and it takes no
guard's branch. At every note on the way the position lies in the input and the depth is the number
of containers entered and not yet left; a value is asked for at an allowed depth, inside as many
calls as there are open containers, and when it has been read the depth is the one of its call and
the position lies behind that of its call; what is collected of a string is well-formed, the code
point of an escape can be encoded, and the text of a number is ASCII and one for the reader of
reals. -/
theorem descend_sound (o : Options) (input : List UInt8) :
    ∃ r : Reader, r.Sound o input ∧ descend o input =
      match parse o input with
      | .ok v => .ok v r
      | .error f => .error (.refused f) r := by
  obtain ⟨result, hagrees, hresult⟩ := exists_agrees_descend o input
  rw [← hresult]
  generalize descend o input = final at hagrees
  cases hagrees with
  | ok hr => exact ⟨_, hr.sound, rfl⟩
  | error hr => exact ⟨_, hr, rfl⟩

/-- What is noted of an empty array, the latest first. -/
example : descend {} [0x5b, 0x5d] = .ok (.array [])
    ⟨2, 0, [⟨.returned, 2, 0⟩, ⟨.left, 2, 0⟩, ⟨.moved, 2, 1⟩, ⟨.moved, 1, 1⟩, ⟨.entered, 0, 1⟩,
      ⟨.called, 0, 0⟩]⟩ := by
  rfl

end StrictJson.Syntax.Descent
