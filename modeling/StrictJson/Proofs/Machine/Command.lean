import StrictJson.Machine.Command
import StrictJson.Proofs.Command.Unpack
import StrictJson.Proofs.Command.Utf8
import StrictJson.Proofs.Machine.Units

/-!
# Commands over a Buffer

The loops of the command line are walks through a buffer, so they end, and what they make of a
buffer is what the commands make of its bytes. The loop over characters counts them with a word.
That word never runs ahead of the index, so it does not wrap around either.

## Main results

* `unitLines_eq`: showing all units does not trap.
* `utf8Text_eq`: counting characters does not trap.
-/

namespace StrictJson.Machine

open Command (Fault)

variable {b : Buffer} {p : UInt64} {buffer : List UInt8} {position next : ℕ}

/-! ### Units -/

/-- **Showing the unit at a position does not trap**, and moves on past it. -/
theorem unitValue_eq (b : Buffer) (p : UInt64) :
    ∃ answer next, unitValue b p = .ok (answer, next) ∧
      Command.unitValue b.bytes p.toNat = answer.map fun v => (v, next.toNat) := by
  obtain ⟨answer, next, hrun, hread⟩ := unpack_eq .error b p
  rw [unitValue, hrun, ok_bind, Command.unitValue]
  cases answer with
  | ok code =>
      rw [Packed.unpackNext_eq_ok_iff.1 hread]
      exact ⟨.ok (Command.errorValue code), next, rfl, rfl⟩
  | error e =>
      obtain ⟨hfails, hstays⟩ := Packed.unpackNext_eq_error_iff.1 hread
      obtain rfl := UInt64.toNat_inj.1 hstays
      rw [hfails]
      cases e with
      | wrongUnit wanted found =>
          obtain ⟨again, last, hrun', hread'⟩ := unpack_eq .value b next
          simp only [hrun', ok_bind]
          cases again with
          | ok v =>
              rw [Packed.unpackNext_eq_ok_iff.1 hread']
              exact ⟨.ok v, last, rfl, rfl⟩
          | error e =>
              rw [(Packed.unpackNext_eq_error_iff.1 hread').1]
              exact ⟨.error (.notUnit next.toNat e), last, rfl, rfl⟩
      | _ => exact ⟨_, next, rfl, rfl⟩

/-- The line of a unit comes before those of the units behind it. -/
theorem unitLines_of_ok {v : Value} (h : Command.unitValue buffer position = .ok (v, next)) :
    Command.unitLines buffer position =
      (Command.unitLines buffer next).map ((v.render .compact ++ ['\n']) ++ ·) := by
  obtain ⟨hlt, hle⟩ := Command.unitValue_progress h
  rw [Command.unitLines, if_pos (Nat.lt_of_lt_of_le hlt hle)]
  split
  · next e he => simp [h] at he
  · next w q hw =>
    obtain ⟨rfl, rfl⟩ := Prod.mk.inj (Except.ok.inj (h.symm.trans hw))
    cases Command.unitLines buffer next with
    | error e => rfl
    | ok lines => exact congrArg Except.ok (List.append_assoc _ ['\n'] lines).symm

/-- No lines are shown where the next unit fails. -/
theorem unitLines_of_error {e : Fault} (hp : position < buffer.length)
    (h : Command.unitValue buffer position = .error e) :
    Command.unitLines buffer position = .error e := by
  rw [Command.unitLines, if_pos hp]
  split
  · next f hf => rw [Except.error.inj (hf.symm.trans h)]
  · next v q hv => simp [h] at hv

/-- Showing the unit at a position reads a part of what the buffer holds from there on. -/
theorem readsPart_unitValue (hp : p.toNat < b.bytes.length) :
    ReadsPart b (fun v => v.render .compact ++ ['\n']) (Command.unitLines b.bytes) p
      (unitValue b p) := by
  obtain ⟨answer, next, hrun, hvalue⟩ := unitValue_eq b p
  rw [hrun]
  cases answer with
  | error e => exact .error (unitLines_of_error hp hvalue)
  | ok v =>
      obtain ⟨hmoves, hinside⟩ := Command.unitValue_progress hvalue
      exact .ok hmoves hinside (unitLines_of_ok hvalue)

/-- **Showing the units of a whole buffer does not trap.** -/
theorem unitLines_eq (b : Buffer) : unitLines b = .ok (Command.unitLines b.bytes 0) :=
  Buffer.readAll_eq (fun _ hend => Command.unitLines_of_le hend) fun _ hp => readsPart_unitValue hp

/-! ### UTF-8 -/

/-- There is never more counted than decoded. -/
def NotAhead (b : Buffer) (s : UInt64 × UInt64) : Prop :=
  s.2.toNat ≤ s.1.toNat ∧ s.1.toNat ≤ b.bytes.length

/-- From a state, the characters of a walk are counted, and the index is left where it stops. -/
def CountsWalk (b : Buffer) (s final : UInt64 × UInt64) : Prop :=
  ∃ chars, Utf8.Walk b.bytes s.1.toNat chars final.1.toNat ∧
    final.2.toNat = s.2.toNat + chars.length

/-- The loop over characters walks on past a character, and stops where there is none. -/
theorem turns_countNext {s : UInt64 × UInt64} (hs : NotAhead b s) :
    Turns b Prod.fst (NotAhead b) (CountsWalk b) s (countNext b s) := by
  obtain ⟨index, count⟩ := s
  obtain ⟨hcount, hindex⟩ : count.toNat ≤ index.toNat ∧ index.toNat ≤ b.bytes.length := hs
  rw [countNext]
  rcases decode_cases b index with ⟨hnone, hrun⟩ | ⟨c, next, hsome, hrun, hmoves, hinside⟩
  · rw [hrun, ok_bind]
    exact .stop ⟨[], .stop hnone, rfl⟩
  · have hlt := b.length_lt
    have hfits : count.toNat + UInt64.toNat 1 < 2 ^ 64 := by
      rw [UInt64.toNat_one]
      omega
    have hnext := toNat_add_of_lt hfits
    rw [UInt64.toNat_one] at hnext
    rw [hrun]
    simp only [ok_bind, add_eq_ok hfits]
    refine .go ⟨?_, hinside⟩ hmoves hinside ?_
    · simp only [hnext]
      omega
    · rintro ⟨last, total⟩ ⟨chars, hwalk, htotal⟩
      refine ⟨c :: chars, .next hsome hwalk, ?_⟩
      simp only [hnext, List.length_cons] at htotal ⊢
      omega

/-- **Counting the characters of a buffer does not trap.** -/
theorem utf8Text_eq (b : Buffer) : utf8Text b = .ok (Command.utf8Text b.bytes) := by
  obtain ⟨⟨index, count⟩, hrun, chars, hwalk, hcount⟩ :=
    Buffer.exists_loop (fun s => turns_countNext (b := b) (s := s)) (s := (0, 0))
      ⟨le_rfl, Nat.zero_le _⟩
  have hend := hwalk.isGreatest.1.le_length
  rw [UInt64.toNat_zero, Nat.zero_add] at hcount
  rw [utf8Text, hrun, Command.utf8Text_of_walk hwalk]
  simp only [ok_bind, Buffer.lt_size_iff, Buffer.toNat_size, hcount]
  by_cases hindex : index.toNat = b.bytes.length
  · rw [if_neg (Nat.not_lt.2 hindex.ge), if_pos hindex]
    rfl
  · rw [if_pos (lt_of_le_of_ne hend hindex), if_neg hindex]
    rfl

end StrictJson.Machine
