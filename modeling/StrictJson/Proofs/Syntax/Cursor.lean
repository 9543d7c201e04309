import StrictJson.Syntax.Document

/-!
# Cursors in Front of a Known Text

What a cursor does when the text in front of it is known to be some bytes and then the rest. A run
of bytes of one class ends where the class does, so it matters how the rest begins: `Stops` says
that it does not begin with another byte of the class. White space is the class that separates
tokens.

## Main results

* `takeWhile_append_of_stops`, `dropWhile_append_of_stops`: a run and what follows it.
* `Cursor.advance_append`, `Cursor.skipSpace_append`: the cursor moves past known bytes.
-/

namespace StrictJson.Syntax

/-- The bytes `rest` **stop** a run of a class: they do not begin with a byte of it. -/
def Stops (p : UInt8 → Bool) (rest : List UInt8) : Prop :=
  ∀ b ∈ rest.head?, p b = false

theorem stops_nil (p : UInt8 → Bool) : Stops p [] := by
  intro b hb
  simp at hb

theorem stops_cons {p : UInt8 → Bool} {b : UInt8} {bytes : List UInt8} :
    Stops p (b :: bytes) ↔ p b = false := by
  simp [Stops]

/-- What a run leaves stops it. -/
theorem stops_dropWhile (p : UInt8 → Bool) (bytes : List UInt8) : Stops p (bytes.dropWhile p) := by
  intro b hb
  have h := List.head?_dropWhile_not p bytes
  rw [Option.mem_def.1 hb] at h
  simpa using h

/-- A run takes the bytes of its class and no others. -/
theorem takeWhile_append_of_stops {p : UInt8 → Bool} {run rest : List UInt8}
    (hrun : ∀ b ∈ run, p b = true) (hrest : Stops p rest) : (run ++ rest).takeWhile p = run := by
  rw [List.takeWhile_append_of_pos hrun]
  cases rest with
  | nil => simp
  | cons b bytes => simp [stops_cons.1 hrest]

/-- A run leaves what does not begin with a byte of its class. -/
theorem dropWhile_append_of_stops {p : UInt8 → Bool} {run rest : List UInt8}
    (hrun : ∀ b ∈ run, p b = true) (hrest : Stops p rest) : (run ++ rest).dropWhile p = rest := by
  rw [List.dropWhile_append_of_pos hrun]
  cases rest with
  | nil => rfl
  | cons b bytes => simp [stops_cons.1 hrest]

/-- The bytes of a run belong to its class. -/
theorem of_mem_takeWhile {p : UInt8 → Bool} {bytes : List UInt8} {b : UInt8}
    (h : b ∈ bytes.takeWhile p) : p b = true :=
  List.all_eq_true.1 List.all_takeWhile b h

namespace Cursor

variable {p : Nat} {bytes rest : List UInt8}

@[simp] theorem peek?_cons (b : UInt8) : (⟨p, b :: rest⟩ : Cursor).peek? = some b := rfl

/-- The cursor moves past known bytes. -/
theorem advance_append (p : Nat) (bytes rest : List UInt8) :
    (⟨p, bytes ++ rest⟩ : Cursor).advance bytes.length = ⟨p + bytes.length, rest⟩ := by
  rw [advance, List.drop_left]

/-- The cursor moves past one known byte. -/
@[simp] theorem advance_one_cons (b : UInt8) :
    (⟨p, b :: rest⟩ : Cursor).advance 1 = ⟨p + 1, rest⟩ := rfl

/-- The cursor moves past white space and stops where there is no more. -/
theorem skipSpace_append (hspace : ∀ b ∈ bytes, isSpace b = true) (hrest : Stops isSpace rest) :
    (⟨p, bytes ++ rest⟩ : Cursor).skipSpace = ⟨p + bytes.length, rest⟩ := by
  rw [skipSpace, skipWhile, takeWhile_append_of_stops hspace hrest, advance_append]

/-- Without white space in front of it a cursor stays where it is. -/
theorem skipSpace_of_stops (hrest : Stops isSpace rest) :
    (⟨p, rest⟩ : Cursor).skipSpace = ⟨p, rest⟩ :=
  skipSpace_append (List.forall_mem_nil _) hrest

/-- The white space that a cursor skips, and where it stands afterwards. -/
theorem exists_skipSpace (c : Cursor) :
    ∃ space, (∀ b ∈ space, isSpace b = true) ∧ c.rest = space ++ c.skipSpace.rest ∧
      c.skipSpace.position = c.position + space.length ∧ Stops isSpace c.skipSpace.rest := by
  refine ⟨c.rest.takeWhile isSpace, fun b hb => of_mem_takeWhile hb, ?_, rfl, ?_⟩
  · rw [skipSpace, rest_skipWhile, List.takeWhile_append_dropWhile]
  · rw [skipSpace, rest_skipWhile]
    exact stops_dropWhile isSpace c.rest

/-- A byte at the cursor is the first of what remains. -/
theorem rest_eq_cons_of_peek? {c : Cursor} {b : UInt8} (h : c.peek? = some b) :
    c.rest = b :: (c.advance 1).rest := by
  rw [rest_advance]
  cases hr : c.rest with
  | nil => simp [peek?, hr] at h
  | cons x xs =>
      simp only [peek?, hr, List.head?_cons, Option.some.injEq] at h
      rw [h, List.drop_one, List.tail_cons]

/-- The cursor moves on from where it has moved to. -/
theorem advance_advance (c : Cursor) (m n : Nat) : (c.advance m).advance n = c.advance (m + n) := by
  simp only [advance, List.drop_drop, Nat.add_assoc]

/-- The bytes lie **between** two cursors: they are what a reader takes that gets from the one to
the other. -/
structure Between (c : Cursor) (bytes : List UInt8) (next : Cursor) : Prop where
  rest_eq : c.rest = bytes ++ next.rest
  position_eq : next.position = c.position + bytes.length

/-- No bytes lie between a cursor and itself. -/
theorem Between.refl (c : Cursor) : c.Between [] c :=
  ⟨rfl, rfl⟩

/-- Bytes between cursors are put together. -/
theorem Between.trans {c next last : Cursor} {more : List UInt8} (h : c.Between bytes next)
    (h' : next.Between more last) : c.Between (bytes ++ more) last where
  rest_eq := by rw [h.rest_eq, h'.rest_eq, List.append_assoc]
  position_eq := by rw [h'.position_eq, h.position_eq, List.length_append, Nat.add_assoc]

/-- The byte at a cursor lies between it and the next one. -/
theorem between_of_peek? {c : Cursor} {b : UInt8} (h : c.peek? = some b) :
    c.Between [b] (c.advance 1) :=
  ⟨rest_eq_cons_of_peek? h, rfl⟩

end Cursor

end StrictJson.Syntax
