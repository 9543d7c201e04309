import Mathlib.Data.Nat.Basic
import StrictJson.Proofs.Syntax.Cursor
import StrictJson.Proofs.Utf8.WellFormed
import StrictJson.Syntax.Descent

/-!
# What a Procedure Reads

A procedure moves a reader from one cursor to another one and changes its depth. What it **reads**
is said in the terms of the readers over cursors: it returns what they return at the cursor that
they lead to, or is refused as they are. It comes to no other end, so it runs into no trap and takes
no guard's branch; and it leaves only notes behind that are sound, and no call open.

The rules below are those of the steps that procedures are made of. A loop reads what its turns read
one after the other. It has as many turns as the input has bytes, and one, and that is enough
because all of them but the last one take bytes away.

## Main definitions

* `entered`, `left`, `openCalls`: what the notes tell of containers and calls.
* `Event.Holds`, `Moment.Sound`, `Reader.Sound`: what is true of an event, of a note, and of a
  reader with all its notes.
* `Reads`, `Yields`: what a procedure reads at a cursor, as one result and as one of some kind.

## Main results

* `Yields.followed`: what a procedure yields that goes on with another one.
* `yields_call`, `yields_loop`: what a call and a loop yield.
-/

namespace StrictJson.Syntax

namespace Cursor

variable {c : Cursor} {p : UInt8 → Bool} {b : UInt8}

/-- A byte that satisfies the predicate is skipped. -/
theorem skipWhile_advance_one (hb : c.peek? = some b) (hp : p b = true) :
    (c.advance 1).skipWhile p = c.skipWhile p := by
  rw [skipWhile, skipWhile, advance_advance, rest_eq_cons_of_peek? hb,
    List.takeWhile_cons_of_pos hp, List.length_cons, Nat.add_comm]

/-- Where the predicate does not hold, no run of bytes that satisfy it begins. -/
theorem takeWhile_eq_nil (h : c.peek?.any p = false) : c.rest.takeWhile p = [] := by
  cases hr : c.rest with
  | nil => rfl
  | cons b bs =>
      rw [peek?, hr, List.head?_cons, Option.any_some] at h
      rw [List.takeWhile_cons_of_neg (by simp [h])]

/-- Where the predicate does not hold, no byte stands that satisfies it. -/
theorem rest_ne_cons (h : c.peek?.any p = false) (hb : p b = true) (rest : List UInt8) :
    c.rest ≠ b :: rest := by
  intro hrest
  rw [peek?, hrest, List.head?_cons, Option.any_some, hb] at h
  exact Bool.noConfusion h

/-- What remains behind the bytes at the front. -/
theorem rest_advance_of_append {front back : List UInt8} (h : front ++ back = c.rest) :
    (c.advance front.length).rest = back := by
  rw [rest_advance, ← h, List.drop_left]

/-- A cursor that moves past bytes and then past others moves past all of them. -/
theorem advance_length_append (c : Cursor) (bytes more : List UInt8) :
    (c.advance bytes.length).advance more.length = c.advance (bytes ++ more).length := by
  rw [advance_advance, List.length_append]

/-- Nothing is skipped where the predicate does not hold. -/
theorem skipWhile_eq_self (h : c.peek?.any p = false) : c.skipWhile p = c := by
  rw [skipWhile, takeWhile_eq_nil h]
  rfl

end Cursor

/-! ### Cursors in an input -/

/-- A cursor **lies in** an input if its bytes are those of the input from its position on. -/
structure Cursor.IsIn (input : List UInt8) (c : Cursor) : Prop where
  le : c.position ≤ input.length
  drop_eq : input.drop c.position = c.rest

namespace Cursor.IsIn

variable {input : List UInt8} {c : Cursor}

theorem length_eq (h : c.IsIn input) : c.position + c.rest.length = input.length := by
  have hle := h.le
  rw [← h.drop_eq, List.length_drop]
  omega

theorem getElem?_eq (h : c.IsIn input) : input[c.position]? = c.peek? := by
  rw [Cursor.peek?, ← h.drop_eq, List.head?_drop]

theorem advance (h : c.IsIn input) {n : ℕ} (hn : n ≤ c.rest.length) :
    (c.advance n).IsIn input where
  le := by
    have hlen := h.length_eq
    rw [position_advance]
    omega
  drop_eq := by rw [position_advance, ← List.drop_drop, h.drop_eq, rest_advance]

end Cursor.IsIn

namespace Descent

variable {o : Options} {input : List UInt8} {calls : List (ℕ × ℕ)} {α β σ : Type}

/-! ### Sound notes -/

/-- How many containers have been **entered**. -/
def entered (history : List Moment) : ℕ :=
  history.countP (·.event = .entered)

/-- How many containers have been **left**. -/
def left (history : List Moment) : ℕ :=
  history.countP (·.event = .left)

/-- The **open calls**, the innermost first: where the reader stood when the value was asked for
that it has not read yet, and at which depth. -/
def openCalls : List Moment → List (ℕ × ℕ)
  | [] => []
  | ⟨.called, position, depth⟩ :: earlier => (position, depth) :: openCalls earlier
  | ⟨.returned, _, _⟩ :: earlier => (openCalls earlier).tail
  | _ :: earlier => openCalls earlier

/-- Whether an event **changes the depth**. -/
def Event.changesDepth : Event → Bool
  | .entered | .left => true
  | _ => false

/-- Whether an event **changes the open calls**. -/
def Event.changesCalls : Event → Bool
  | .called | .returned => true
  | _ => false

/-- What **holds** of an event at a position and a depth, after the calls that are open. A container
is entered at its opening bracket and left behind its closing one. A value is asked for at an
allowed depth, and inside as many calls as there are open containers; when it has been read, the
position lies behind that of its call, and the depth is the one of its call. -/
def Event.Holds (o : Options) (input : List UInt8) (calls : List (ℕ × ℕ)) (position depth : ℕ) :
    Event → Prop
  | .moved => True
  | .entered => ∃ b, input[position]? = some b ∧ (b = 0x7b ∨ b = 0x5b)
  | .left => ∃ before b, position = before + 1 ∧ input[before]? = some b ∧ (b = 0x7d ∨ b = 0x5d)
  | .called => calls.length = depth ∧ depth ≤ o.maxDepth
  | .returned => ∃ start outer, calls = (start, depth) :: outer ∧ start < position
  | .sliced start stop => start ≤ stop ∧ stop ≤ input.length
  | .collected buffer => Utf8.isValid buffer = true
  | .assembled codePoint => Utf8.IsScalarValue codePoint
  | .measured text => (∀ b ∈ text, b < 0x80) ∧ ∃ x, realOfText? text = some x

/-- A note is **sound** if its event holds, its position lies in the input, and its depth is the
number of containers entered and not yet left. -/
structure Moment.Sound (o : Options) (input : List UInt8) (m : Moment) (earlier : List Moment) :
    Prop where
  bounded : m.position ≤ input.length
  balanced : m.depth + left (m :: earlier) = entered (m :: earlier)
  holds : m.event.Holds o input (openCalls earlier) m.position m.depth

/-- A reader is **sound** if it stands in the input where its latest note says, its depth is the
number of containers entered and not yet left, and all its notes are sound. -/
structure Reader.Sound (o : Options) (input : List UInt8) (r : Reader) : Prop where
  bounded : r.position ≤ input.length
  balanced : r.depth + left r.history = entered r.history
  latest : ∀ m ∈ r.history.head?, m.position = r.position ∧ m.depth = r.depth
  noted : ∀ m earlier, m :: earlier <:+ r.history → m.Sound o input earlier

/-- A sound reader **stands** at a cursor, at a depth, inside the calls that are open. -/
structure Reader.Stands (o : Options) (input : List UInt8) (calls : List (ℕ × ℕ)) (c : Cursor)
    (d : ℕ) (r : Reader) : Prop where
  sound : r.Sound o input
  position_eq : r.position = c.position
  drop_eq : input.drop r.position = c.rest
  depth_eq : r.depth = d
  calls_eq : openCalls r.history = calls

theorem Reader.Stands.isIn {c : Cursor} {d : ℕ} {r : Reader} (h : r.Stands o input calls c d) :
    c.IsIn input :=
  ⟨h.position_eq ▸ h.sound.bounded, h.position_eq ▸ h.drop_eq⟩

theorem Reader.stands_initial (o : Options) (input : List UInt8) :
    Reader.Stands o input [] (.start input) 0 {} where
  sound := ⟨Nat.zero_le _, rfl, by simp, by simp⟩
  position_eq := rfl
  drop_eq := rfl
  depth_eq := rfl
  calls_eq := rfl

/-- A reader that stands at a cursor **stands at another one** after a note of how it got there. -/
theorem Reader.Stands.note {c next : Cursor} {d d' : ℕ} {r : Reader}
    (h : r.Stands o input calls c d) (event : Event) (hnext : next.IsIn input)
    (hholds : event.Holds o input calls next.position d')
    (hbalanced : d' + left (⟨event, next.position, d'⟩ :: r.history) =
      entered (⟨event, next.position, d'⟩ :: r.history)) :
    Reader.Stands o input (openCalls (⟨event, next.position, d'⟩ :: r.history)) next d'
      ⟨next.position, d', ⟨event, next.position, d'⟩ :: r.history⟩ where
  sound.bounded := hnext.le
  sound.balanced := hbalanced
  sound.latest m hm := by
    obtain rfl := Option.some.inj hm
    exact ⟨rfl, rfl⟩
  sound.noted m earlier h' := by
    rcases List.suffix_cons_iff.1 h' with heq | hsuffix
    · obtain ⟨rfl, rfl⟩ := List.cons.inj heq
      exact ⟨hnext.le, hbalanced, h.calls_eq ▸ hholds⟩
    · exact h.sound.noted m earlier hsuffix
  position_eq := rfl
  drop_eq := hnext.drop_eq
  depth_eq := rfl
  calls_eq := rfl

/-! ### What a procedure reads -/

/-- The end of a procedure **agrees** with a result: it returns the same at the cursor of the result,
at the given depth and inside the given calls, or is refused for the same reason. -/
inductive Agrees (o : Options) (input : List UInt8) (calls : List (ℕ × ℕ)) (d : ℕ) :
    EStateM.Result Halt Reader α → Except Failure (α × Cursor) → Prop
  | ok {a : α} {next : Cursor} {r : Reader} :
      r.Stands o input calls next d → Agrees o input calls d (.ok a r) (.ok (a, next))
  | error {f : Failure} {r : Reader} :
      r.Sound o input → Agrees o input calls d (.error (.refused f) r) (.error f)

/-- A procedure **reads** a result at a cursor, and leads from one depth to another one. All calls
that it makes have returned then. -/
def Reads (o : Options) (input : List UInt8) (calls : List (ℕ × ℕ)) (p : Proc α) (c : Cursor)
    (d d' : ℕ) (result : Except Failure (α × Cursor)) : Prop :=
  ∀ r : Reader, r.Stands o input calls c d → Agrees o input calls d' (p r) result

/-- A procedure **yields** a result of some kind at a cursor. -/
def Yields (o : Options) (input : List UInt8) (calls : List (ℕ × ℕ)) (p : Proc α) (c : Cursor)
    (d d' : ℕ) (Result : Except Failure (α × Cursor) → Prop) : Prop :=
  ∀ r : Reader, r.Stands o input calls c d →
    ∃ result, Agrees o input calls d' (p r) result ∧ Result result

variable {p : Proc α} {f : α → Proc β} {c next : Cursor} {d d₁ d₂ : ℕ} {a : α} {e : Failure}
  {P P' : Except Failure (α × Cursor) → Prop} {Q : Except Failure (β × Cursor) → Prop}

/-- Whatever is read is read at a cursor in the input. -/
theorem Reads.of_isIn {result : Except Failure (α × Cursor)}
    (h : c.IsIn input → Reads o input calls p c d d₁ result) :
    Reads o input calls p c d d₁ result :=
  fun r hr => h hr.isIn r hr

/-- Whatever is yielded is yielded at a cursor in the input. -/
theorem Yields.of_isIn (h : c.IsIn input → Yields o input calls p c d d₁ P) :
    Yields o input calls p c d d₁ P :=
  fun r hr => h hr.isIn r hr

theorem Reads.yields {result : Except Failure (α × Cursor)}
    (hp : Reads o input calls p c d d₁ result) (h : P result) : Yields o input calls p c d d₁ P :=
  fun r hr => ⟨result, hp r hr, h⟩

/-- What is yielded only as one result is read. -/
theorem Yields.reads {result : Except Failure (α × Cursor)}
    (hp : Yields o input calls p c d d₁ (· = result)) : Reads o input calls p c d d₁ result := by
  intro r hr
  obtain ⟨_, hagrees, rfl⟩ := hp r hr
  exact hagrees

theorem Yields.weaken (hp : Yields o input calls p c d d₁ P)
    (h : ∀ result, P result → P' result) : Yields o input calls p c d d₁ P' := by
  intro r hr
  obtain ⟨result, hagrees, hresult⟩ := hp r hr
  exact ⟨result, hagrees, h result hresult⟩

theorem reads_pure (a : α) : Reads o input calls (pure a) c d d (.ok (a, c)) :=
  fun _ hr => .ok hr

/-- A procedure that yields is followed by the next one, unless it is refused. -/
theorem Yields.followed (hp : Yields o input calls p c d d₁ P)
    (hrefused : ∀ e, P (.error e) → Q (.error e))
    (hf : ∀ a next, P (.ok (a, next)) → Yields o input calls (f a) next d₁ d₂ Q) :
    Yields o input calls (p >>= f) c d d₂ Q := by
  intro r hr
  obtain ⟨result, hagrees, h⟩ := hp r hr
  change ∃ result, Agrees o input calls d₂ (EStateM.bind p f r) result ∧ Q result
  rw [EStateM.bind]
  generalize p r = pr at hagrees
  cases hagrees with
  | ok hnext => exact hf _ _ h _ hnext
  | error hsound => exact ⟨_, .error hsound, hrefused _ h⟩

/-- A procedure that returns is followed by the next one. -/
theorem Reads.followed_yields (hp : Reads o input calls p c d d₁ (.ok (a, next)))
    (hf : Yields o input calls (f a) next d₁ d₂ Q) : Yields o input calls (p >>= f) c d d₂ Q := by
  refine (hp.yields (P := (· = .ok (a, next))) rfl).followed (by simp) ?_
  rintro _ _ ⟨⟩
  exact hf

/-- A procedure that returns is **followed** by the next one. -/
theorem Reads.followed {result : Except Failure (β × Cursor)}
    (hp : Reads o input calls p c d d₁ (.ok (a, next)))
    (hf : Reads o input calls (f a) next d₁ d₂ result) :
    Reads o input calls (p >>= f) c d d₂ result :=
  (hp.followed_yields (hf.yields (P := (· = result)) rfl)).reads

/-- A procedure that is refused is followed by nothing. -/
theorem Reads.broken (hp : Reads o input calls p c d d₁ (.error e)) :
    Reads o input calls (p >>= f) c d d₂ (.error e) :=
  ((hp.yields (P := (· = .error e)) rfl).followed (fun _ => by simp) (by simp)).reads

/-- What a procedure reads does not depend on whether what it returns is looked at. -/
theorem Reads.discarded {result : Except Failure (α × Cursor)}
    (hp : Reads o input calls p c d d₁ result) :
    Reads o input calls (discard p) c d d₁ (result.map fun (_, next) => ((), next)) := by
  intro r hr
  have hend := hp r hr
  change Agrees o input calls d₁ (EStateM.map (fun _ => ()) p r) _
  rw [EStateM.map]
  generalize p r = pr at hend
  cases hend with
  | ok hnext => exact .ok hnext
  | error hsound => exact .error hsound

/-! ### Steps -/

/-- A procedure that only makes a note reads what the note says. -/
theorem reads_of_note {q : Proc Unit} (event : Event) (hnext : next.IsIn input)
    (hholds : event.Holds o input calls next.position d₁)
    (hcalls : ∀ history,
      openCalls (⟨event, next.position, d₁⟩ :: history) = openCalls history)
    (hbalanced : ∀ history, d + left history = entered history →
      d₁ + left (⟨event, next.position, d₁⟩ :: history) =
        entered (⟨event, next.position, d₁⟩ :: history))
    (hq : ∀ history, q ⟨c.position, d, history⟩ =
      .ok () ⟨next.position, d₁, ⟨event, next.position, d₁⟩ :: history⟩) :
    Reads o input calls q c d d₁ (.ok ((), next)) := by
  intro r hr
  obtain ⟨position, depth, history⟩ := r
  obtain rfl : position = c.position := hr.position_eq
  obtain rfl : depth = d := hr.depth_eq
  have hnoted := hr.note event hnext hholds (hbalanced history hr.sound.balanced)
  rw [hcalls, hr.calls_eq] at hnoted
  rw [hq]
  exact .ok hnoted

theorem openCalls_cons {event : Event} (h : event.changesCalls = false) (position depth : ℕ)
    (history : List Moment) :
    openCalls (⟨event, position, depth⟩ :: history) = openCalls history := by
  cases event with
  | called | returned => cases h
  | _ => rfl

theorem balanced_cons {event : Event} (h : event.changesDepth = false) (position : ℕ)
    (history : List Moment) (hbalanced : d + left history = entered history) :
    d + left (⟨event, position, d⟩ :: history) = entered (⟨event, position, d⟩ :: history) := by
  cases event with
  | entered | left => cases h
  | _ => simpa [left, entered] using hbalanced

theorem reads_note (event : Event) (h : event.Holds o input calls c.position d)
    (hdepth : event.changesDepth = false) (hcalls : event.changesCalls = false) :
    Reads o input calls (note event) c d d (.ok ((), c)) :=
  .of_isIn fun hc => reads_of_note event hc h (openCalls_cons hcalls _ _)
    (balanced_cons hdepth _) fun _ => rfl

theorem reads_here : Reads o input calls here c d d (.ok (c.position, c)) := by
  intro r hr
  obtain ⟨position, depth, history⟩ := r
  obtain rfl : position = c.position := hr.position_eq
  exact .ok hr

theorem reads_level : Reads o input calls level c d d (.ok (d, c)) := by
  intro r hr
  obtain rfl := hr.depth_eq
  exact .ok hr

theorem reads_moveTo (hnext : next.IsIn input) :
    Reads o input calls (moveTo next.position) c d d (.ok ((), next)) :=
  reads_of_note .moved hnext trivial (fun _ => rfl) (balanced_cons rfl _) fun _ => rfl

theorem reads_advance {n : ℕ} (hn : n ≤ c.rest.length) :
    Reads o input calls (advance n) c d d (.ok ((), c.advance n)) :=
  .of_isIn fun hc => reads_here.followed (reads_moveTo (hc.advance hn))

/-- A byte that is there can be taken. -/
theorem reads_advance_one {b : UInt8} (hb : c.peek? = some b) :
    Reads o input calls (advance 1) c d d (.ok ((), c.advance 1)) :=
  reads_advance (List.length_pos_iff.2 (Cursor.rest_ne_nil hb))

theorem reads_refuse {fault : Fault} {offset : ℕ} :
    Reads o input calls (refuse fault offset : Proc α) c d d₁ (.error ⟨fault, offset⟩) :=
  fun _ hr => .error hr.sound

theorem reads_minus {m n : ℕ} (h : n ≤ m) :
    Reads o input calls (minus m n) c d d (.ok (m - n, c)) := by
  rw [minus, if_pos h]
  exact reads_pure _

theorem reads_peek : Reads o input calls (peek input) c d d (.ok (c.peek?, c)) :=
  .of_isIn fun hc => reads_here.followed (hc.getElem?_eq ▸ reads_pure _)

theorem reads_slice {start stop : ℕ} (hstart : start ≤ stop) (hstop : stop ≤ input.length) :
    Reads o input calls (slice input start stop) c d d
      (.ok ((input.drop start).take (stop - start), c)) := by
  rw [slice, if_pos ⟨hstart, hstop⟩]
  exact (reads_note (.sliced start stop) ⟨hstart, hstop⟩ rfl rfl).followed (reads_pure _)

/-- All that remains can be taken out of the input. -/
theorem reads_remaining : Reads o input calls (slice input c.position input.length) c d d
    (.ok (c.rest, c)) := by
  refine .of_isIn fun hc => ?_
  have hslice : Reads o input calls (slice input c.position input.length) c d d _ :=
    reads_slice hc.le le_rfl
  have hlen := hc.length_eq
  rwa [hc.drop_eq, List.take_of_length_le (by omega)] at hslice

theorem reads_unexpected {wanted : Expectation} :
    Reads o input calls (unexpected input wanted : Proc α) c d d₁ (.error (c.unexpected wanted)) :=
  reads_peek.followed (reads_here.followed reads_refuse)

/-- **A container is entered** at its bracket, and refused there if too many are open. -/
theorem reads_enter {b : UInt8} (hb : c.peek? = some b) (hbracket : b = 0x7b ∨ b = 0x5b) :
    Reads o input calls (enter o) c d (d + 1)
      (if d < o.maxDepth then .ok ((), c) else .error ⟨.tooDeep o.maxDepth, c.position⟩) := by
  refine .of_isIn fun hc => reads_level.followed ?_
  have hset : Reads o input calls (setDepth (d + 1) .entered) c d (d + 1) (.ok ((), c)) := by
    refine reads_of_note .entered hc ⟨b, hc.getElem?_eq.trans hb, hbracket⟩ (fun _ => rfl)
      (fun history h => ?_) fun _ => rfl
    simp [left, entered] at h ⊢
    omega
  refine hset.followed (reads_level.followed ?_)
  by_cases hd : d < o.maxDepth
  · rw [if_neg (by omega), if_pos hd]
    exact reads_pure ()
  · rw [if_pos (by omega), if_neg hd]
    exact reads_here.followed reads_refuse

/-- **A container is left** behind its bracket. -/
theorem reads_leave {b : UInt8} (hc : c.IsIn input) (hb : c.peek? = some b)
    (hbracket : b = 0x7d ∨ b = 0x5d) :
    Reads o input calls leave (c.advance 1) (d + 1) d (.ok ((), c.advance 1)) := by
  refine .of_isIn fun hnext => reads_level.followed ((reads_minus (by omega)).followed ?_)
  refine reads_of_note .left hnext ⟨c.position, b, rfl, hc.getElem?_eq.trans hb, hbracket⟩
    (fun _ => rfl) (fun history h => ?_) fun _ => rfl
  simp [left, entered] at h ⊢
  omega

/-- **A procedure is called** inside as many calls as there are open containers, and must take
bytes. -/
theorem yields_call (hcalls : calls.length = d)
    (hdepth : d ≤ o.maxDepth) (hp : Yields o input ((c.position, d) :: calls) p c d d P)
    (hprogress : ∀ a next, P (.ok (a, next)) → next.rest.length < c.rest.length) :
    Yields o input calls (call p) c d d P := by
  refine .of_isIn fun hc r hr => ?_
  obtain ⟨position, depth, history⟩ := r
  obtain rfl : position = c.position := hr.position_eq
  obtain rfl : depth = d := hr.depth_eq
  have hcalled := hr.note .called hc ⟨hcalls, hdepth⟩
    (balanced_cons rfl _ _ hr.sound.balanced)
  rw [openCalls, hr.calls_eq] at hcalled
  obtain ⟨result, hagrees, h⟩ := hp _ hcalled
  refine ⟨result, ?_, h⟩
  change Agrees o input calls depth (EStateM.bind p _ _) result
  rw [EStateM.bind]
  generalize p _ = final at hagrees
  cases hagrees with
  | error hsound => exact .error hsound
  | @ok a next r hr' =>
      have hlen := hc.length_eq
      have hlen' := hr'.isIn.length_eq
      have hless := hprogress a next h
      obtain ⟨position, depth, history⟩ := r
      obtain rfl : position = next.position := hr'.position_eq
      obtain rfl : depth = _ := hr'.depth_eq
      have hreturned := hr'.note .returned hr'.isIn ⟨_, _, rfl, by omega⟩
        (balanced_cons rfl _ _ hr'.sound.balanced)
      rw [openCalls, hr'.calls_eq] at hreturned
      exact .ok hreturned

/-! ### Loops -/

/-- What one **turn** of a loop reads: the result of the loop, or what it goes on with, at a cursor
further on. There the loop must read a result that it has from here, too. -/
inductive Turns (Inv : σ → Cursor → Prop) (Result : σ → Cursor → Except Failure (α × Cursor) → Prop)
    (s : σ) (c : Cursor) : Except Failure ((σ ⊕ α) × Cursor) → Prop
  | error {f : Failure} : Result s c (.error f) → Turns Inv Result s c (.error f)
  | done {a : α} {next : Cursor} :
      Result s c (.ok (a, next)) → Turns Inv Result s c (.ok (.inr a, next))
  | again {s' : σ} {next : Cursor} :
      Inv s' next → next.rest.length < c.rest.length →
      (∀ result, Result s' next result → Result s c result) →
      Turns Inv Result s c (.ok (.inl s', next))

/-- **A loop ends**, because all turns but the last one take bytes away. -/
theorem yields_loop (Inv : σ → Cursor → Prop)
    (Result : σ → Cursor → Except Failure (α × Cursor) → Prop) {turn : σ → Proc (σ ⊕ α)}
    (hturn : ∀ s c, Inv s c → Yields o input calls (turn s) c d d (Turns Inv Result s c))
    {s : σ} (hs : Inv s c) : Yields o input calls (loop input turn s) c d d (Result s c) := by
  refine .of_isIn fun hc => ?_
  have hlt : c.rest.length < input.length + 1 := by
    have hlen := hc.length_eq
    omega
  clear hc
  rw [loop]
  generalize input.length + 1 = turns at hlt
  induction turns generalizing s c with
  | zero => omega
  | succ turns ih =>
      rw [repeatTurns]
      refine (hturn s c hs).followed (fun e h => ?_) fun outcome next h => ?_
      · cases h with
        | error h => exact h
      · cases h with
        | done h => exact (reads_pure _).yields h
        | again hs' hless hresult => exact (ih hs' (by omega)).weaken hresult

/-- A byte that satisfies the predicate is taken. -/
theorem reads_skipIf_true {p : UInt8 → Bool} {b : UInt8} (hb : c.peek? = some b)
    (hp : p b = true) : Reads o input calls (skipIf input p) c d d (.ok (true, c.advance 1)) := by
  refine reads_peek.followed ?_
  rw [hb, if_pos (by simpa using hp)]
  exact (reads_advance_one hb).followed (reads_pure true)

/-- Where no byte satisfies the predicate, none is taken. -/
theorem reads_skipIf_false {p : UInt8 → Bool} (h : c.peek?.any p = false) :
    Reads o input calls (skipIf input p) c d d (.ok (false, c)) := by
  refine reads_peek.followed ?_
  rw [if_neg (by simp [h])]
  exact reads_pure false

/-- **Skipping moves past all bytes that satisfy the predicate.** -/
theorem reads_skipWhile (p : UInt8 → Bool) :
    Reads o input calls (skipWhile input p) c d d (.ok ((), c.skipWhile p)) := by
  refine (yields_loop (fun _ _ => True) (fun _ c result => result = .ok ((), c.skipWhile p))
    (fun s c _ => ?_) trivial).reads
  cases hany : c.peek?.any p with
  | true =>
      obtain ⟨b, hb, hp⟩ := (Option.any_eq_true _ _).1 hany
      have hread : Reads o input calls (skipNext input p s) c d d (.ok (.inl (), c.advance 1)) :=
        (reads_skipIf_true hb hp).followed (reads_pure _)
      refine hread.yields (.again trivial (Cursor.length_advance_one_lt hb) fun result h => ?_)
      rw [h, Cursor.skipWhile_advance_one hb hp]
  | false =>
      have hread : Reads o input calls (skipNext input p s) c d d (.ok (.inr (), c)) :=
        (reads_skipIf_false hany).followed (reads_pure _)
      refine hread.yields (.done ?_)
      rw [Cursor.skipWhile_eq_self hany]

/-- Skipping white space moves past all of it. -/
theorem reads_skipSpace : Reads o input calls (skipSpace input) c d d (.ok ((), c.skipSpace)) :=
  reads_skipWhile isSpace

end Descent

end StrictJson.Syntax
