import Mathlib.Data.Nat.Basic
import StrictJson.Machine.Buffer

/-!
# Walks through a Buffer

When a sum of words fits a word, and when bytes are where they are looked for. A word counts the
bytes of a buffer with room to spare, so a sum that is at most their number never wraps around.

A loop **walks** through a buffer if it takes turns only before the end, and if each turn after
which it goes on moves a position further on, and not past the end. Such a loop ends: the bytes that
are still ahead get fewer with every turn.

## Main definitions

* `Turns`: what one turn of a walk comes to.
* `ReadsPart`: what a single read of a reading loop comes to.

## Main results

* `add_eq_ok`, `exists_slice`: sums and slices that do not trap.
* `Buffer.exists_loop`: a walk ends.
* `Buffer.readAll_eq`: so does a loop that reads one thing after the other.
-/

namespace StrictJson.Machine

variable {b : Buffer} {start stop : UInt64} {σ α β : Type}

/-- A run that has a result goes on with it. -/
@[simp] theorem ok_bind (a : α) (f : α → Run β) : (Except.ok a : Run α) >>= f = f a := rfl

/-! ### Words -/

theorem toNat_add_of_lt {a c : UInt64} (h : a.toNat + c.toNat < 2 ^ 64) :
    (a + c).toNat = a.toNat + c.toNat := by
  rw [UInt64.toNat_add, Nat.mod_eq_of_lt h]

/-- A sum that fits a word does not trap. -/
theorem add_eq_ok {a c : UInt64} (h : a.toNat + c.toNat < 2 ^ 64) : add a c = .ok (a + c) :=
  if_pos h

theorem toNat_saturatingSub (a c : UInt64) : (saturatingSub a c).toNat = a.toNat - c.toNat := by
  rw [saturatingSub]
  split_ifs with hle
  · exact UInt64.toNat_sub_of_le a c hle
  · rw [UInt64.le_iff_toNat_le] at hle
    rw [UInt64.toNat_zero]
    omega

namespace Buffer

/-! ### Bytes -/

/-- A number of bytes that are there is a word. -/
theorem toNat_ofNat_of_le (b : Buffer) {n : ℕ} (h : n ≤ b.bytes.length) :
    (UInt64.ofNat n).toNat = n := by
  have hlt := b.length_lt
  exact UInt64.toNat_ofNat_of_lt' (by rw [UInt64.size]; omega)

/-- A position that is not past the end is reached without wrapping around. -/
theorem toNat_add_of_le (b : Buffer) {a c : UInt64} (h : a.toNat + c.toNat ≤ b.bytes.length) :
    (a + c).toNat = a.toNat + c.toNat := by
  have hlt := b.length_lt
  exact toNat_add_of_lt (by omega)

@[simp] theorem toNat_size (b : Buffer) : b.size.toNat = b.bytes.length :=
  b.toNat_ofNat_of_le le_rfl

theorem lt_size_iff : start < b.size ↔ start.toNat < b.bytes.length := by
  rw [UInt64.lt_iff_toNat_lt, toNat_size]

theorem le_size_iff : start ≤ b.size ↔ start.toNat ≤ b.bytes.length := by
  rw [UInt64.le_iff_toNat_le, toNat_size]

theorem size_le_iff : b.size ≤ start ↔ b.bytes.length ≤ start.toNat := by
  rw [UInt64.le_iff_toNat_le, toNat_size]

/-- The bytes between two positions are there if the second one is not past the end. -/
theorem exists_range? (b : Buffer) (start stop : UInt64) (hstart : start.toNat ≤ stop.toNat)
    (hstop : stop.toNat ≤ b.bytes.length) :
    ∃ s : Buffer, b.range? start stop = some s ∧
      s.bytes = (b.bytes.drop start.toNat).take (stop.toNat - start.toNat) := by
  rw [range?, if_pos]
  · exact ⟨_, rfl, rfl⟩
  · exact ⟨UInt64.le_iff_toNat_le.2 hstart, le_size_iff.2 hstop⟩

/-- Nothing is between two positions the second of which is past the end. -/
theorem range?_eq_none (h : b.bytes.length < stop.toNat) : b.range? start stop = none := by
  rw [range?, if_neg]
  exact fun hinside => Nat.not_le.2 h (le_size_iff.1 hinside.2)

/-- A slice that is not past the end does not trap. -/
theorem exists_slice (b : Buffer) (start stop : UInt64) (hstart : start.toNat ≤ stop.toNat)
    (hstop : stop.toNat ≤ b.bytes.length) :
    ∃ s : Buffer, b.slice start stop = .ok s ∧
      s.bytes = (b.bytes.drop start.toNat).take (stop.toNat - start.toNat) := by
  obtain ⟨s, hs, hbytes⟩ := exists_range? b start stop hstart hstop
  exact ⟨s, by rw [slice, hs]; rfl, hbytes⟩

end Buffer

/-! ### Loops -/

/-- What one turn of a **walk** comes to. If it is taken at all, the position is not at the end, and
if the loop goes on, it has moved further on and not past the end, and what the walk results in from
there it results in from here, too. -/
inductive Turns (b : Buffer) (position : σ → UInt64) (Inv : σ → Prop) (Result : σ → α → Prop)
    (s : σ) : Run (Turn σ α) → Prop
  | stop {a : α} : Result s a → Turns b position Inv Result s (.ok (.stop a))
  | leave {a : α} : (position s).toNat < b.bytes.length → Result s a →
      Turns b position Inv Result s (.ok (.leave a))
  | go {next : σ} : Inv next → (position s).toNat < (position next).toNat →
      (position next).toNat ≤ b.bytes.length → (∀ a, Result next a → Result s a) →
      Turns b position Inv Result s (.ok (.go next))

variable {position : σ → UInt64} {Inv : σ → Prop} {Result : σ → α → Prop}
  {turn : σ → Run (Turn σ α)} {s : σ}

/-- A walk takes no more turns than there are bytes ahead. -/
theorem exists_repeatTurns (hturn : ∀ s, Inv s → Turns b position Inv Result s (turn s))
    {limit : ℕ} (hs : Inv s) (hahead : b.bytes.length - (position s).toNat ≤ limit) :
    ∃ a, repeatTurns turn limit s = .ok a ∧ Result s a := by
  -- On the limit: there are never more bytes ahead than turns left.
  induction limit generalizing s with
  | zero =>
      have hfirst := hturn s hs
      rw [repeatTurns]
      generalize turn s = outcome at hfirst
      cases hfirst with
      | stop ha => exact ⟨_, rfl, ha⟩
      | leave hlt _ => omega
      | go _ hlt hle _ => omega
  | succ limit ih =>
      have hfirst := hturn s hs
      rw [repeatTurns]
      generalize turn s = outcome at hfirst
      cases hfirst with
      | stop ha => exact ⟨_, rfl, ha⟩
      | leave _ ha => exact ⟨_, rfl, ha⟩
      | go hnext hlt hle hresult =>
          obtain ⟨a, hrun, ha⟩ := ih hnext (by omega)
          exact ⟨a, hrun, hresult a ha⟩

/-- **A walk ends**, and takes no more turns than there are bytes in the buffer. -/
theorem Buffer.exists_loop (hturn : ∀ s, Inv s → Turns b position Inv Result s (turn s))
    (hs : Inv s) : ∃ a, b.loop turn s = .ok a ∧ Result s a :=
  exists_repeatTurns hturn hs (Nat.sub_le _ _)

/-! ### Reading a whole buffer -/

variable {ε γ : Type} {p : UInt64} {read : UInt64 → Run (Except ε α × UInt64)} {put : α → List γ}
  {all : ℕ → Except ε (List γ)}

/-- What **reading at a position** comes to, if all that is read from there on is known: a fault, or
something to gather and a position further on and not past the end. -/
inductive ReadsPart (b : Buffer) (put : α → List γ) (all : ℕ → Except ε (List γ)) (p : UInt64) :
    Run (Except ε α × UInt64) → Prop
  | ok {x : α} {next : UInt64} : p.toNat < next.toNat → next.toNat ≤ b.bytes.length →
      all p.toNat = (all next.toNat).map (put x ++ ·) → ReadsPart b put all p (.ok (.ok x, next))
  | error {e : ε} {next : UInt64} : all p.toNat = .error e →
      ReadsPart b put all p (.ok (.error e, next))

/-- A loop that reads walks on past what it reads. -/
theorem turns_readNext (hend : ∀ n, b.bytes.length ≤ n → all n = .ok [])
    (hread : ∀ p : UInt64, p.toNat < b.bytes.length → ReadsPart b put all p (read p))
    (s : UInt64 × List γ) :
    Turns b Prod.fst (fun _ => True) (fun s a => a = (all s.1.toNat).map (s.2 ++ ·)) s
      (b.readNext read put s) := by
  obtain ⟨p, gathered⟩ := s
  rw [Buffer.readNext]
  split_ifs with hlt
  · rw [Buffer.lt_size_iff] at hlt
    have hpart := hread p hlt
    generalize read p = outcome at hpart
    cases hpart with
    | error he =>
        refine .leave hlt ?_
        rw [he]
        rfl
    | @ok x next hmoves hinside hall =>
        refine .go trivial hmoves hinside ?_
        rintro _ rfl
        rw [hall]
        cases all next.toNat with
        | error e => rfl
        | ok more => exact congrArg Except.ok (List.append_assoc gathered (put x) more)
  · rw [Buffer.lt_size_iff, Nat.not_lt] at hlt
    refine .stop ?_
    rw [hend _ hlt]
    exact congrArg Except.ok (List.append_nil gathered).symm

/-- **Reading a whole buffer does not trap** if reading at a position does not. -/
theorem Buffer.readAll_eq (hend : ∀ n, b.bytes.length ≤ n → all n = .ok [])
    (hread : ∀ p : UInt64, p.toNat < b.bytes.length → ReadsPart b put all p (read p)) :
    b.readAll read put = .ok (all 0) := by
  obtain ⟨answer, hrun, rfl⟩ := exists_loop (fun s _ => turns_readNext hend hread s) (s := (0, []))
    trivial
  rw [readAll, hrun]
  exact congrArg Except.ok (congrFun Except.map_id _)

end StrictJson.Machine
