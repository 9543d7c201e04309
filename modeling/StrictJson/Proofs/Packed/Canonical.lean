import StrictJson.Packed.Stream
import StrictJson.Proofs.Packed.Result
import StrictJson.Proofs.Packed.Row

/-!
# Canonical Streams

The binary format says everything in one way. What is unpacked is packed to the bytes that were
read, so a buffer of values is the concatenation of their units, and as no unit is the start of
another it falls into units in one way only. A buffer with anything else in it is read up to the
first place where no value stands, and what is wrong there is what is wrong with the buffer.

## Main definitions

* `IsStream`: the bytes of some values, one after the other.

## Main results

* `unpackAll_value_eq_ok_iff`: the values of a buffer are those whose stream it is.
* `flatten_units_inj`: a row of units is known from its bytes.
* `exists_leading_of_unpackAll`: where a buffer fails.
* `unpack_canonical`: all of this together with what a single read does.
-/

namespace StrictJson.Packed

variable {buffer bytes : List UInt8} {p q : ℕ}

/-! ### Carried positions -/

/-- A read that succeeds moves the position past the unit. -/
theorem unpackNext_eq_ok_iff {target : Target} {x : target.Carrier} :
    unpackNext target buffer p = (.ok x, q) ↔ unpack target buffer p = .ok (x, q) := by
  rw [unpackNext]
  rcases unpack target buffer p with e | ⟨y, next⟩ <;> simp

/-- A read that fails leaves the position where it was. -/
theorem unpackNext_eq_error_iff {target : Target} {e : UnpackFault} :
    unpackNext target buffer p = (.error e, q) ↔ unpack target buffer p = .error e ∧ q = p := by
  rw [unpackNext]
  rcases unpack target buffer p with f | ⟨x, next⟩ <;> simp [eq_comm]

theorem unpackNext_of_error {target : Target} {e : UnpackFault}
    (h : (unpackNext target buffer p).1 = .error e) : (unpackNext target buffer p).2 = p :=
  (unpackNext_eq_error_iff.1 (Prod.ext h rfl)).2

/-- What was read are the bytes between the two positions. -/
theorem take_drop_of_stands {unit : List UInt8} (h : unit <+: buffer.drop p) :
    (buffer.drop p).take (p + unit.length - p) = unit := by
  rw [Nat.add_sub_cancel_left, ← List.prefix_iff_eq_take.1 h]

/-- **A single read is canonical**: it moves the position, stays within the buffer, and its result
is packed to the bytes between the positions. -/
theorem pack_of_unpack {tag : Tag} {x : tag.target.Carrier}
    (h : unpack tag.target buffer p = .ok (x, q)) :
    pack tag (tag.target.source x) = .ok ((buffer.drop p).take (q - p)) := by
  obtain ⟨s, unit, hx, hs, hsource, hunit, hstands, rfl⟩ := exists_unit_of_unpack h
  rw [take_drop_of_stands hstands]
  exact pack_eq_ok_iff.2 ⟨s, hsource, tag_eq_of_ofScalar hs hx, hunit⟩

/-- A value that is read is packed to the bytes between the positions. -/
theorem packValue_of_unpack {v : Value} (h : unpack .value buffer p = .ok (v, q)) :
    packValue v = .ok ((buffer.drop p).take (q - p)) := by
  obtain ⟨unit, hunit, hstands, rfl⟩ := unpack_value_eq_ok_iff.1 h
  rw [take_drop_of_stands hstands, hunit]

/-! ### Rows of units -/

/-- The unit of any scalar, taken as the unit of itself. -/
def IsSomeUnit (own unit : List UInt8) : Prop :=
  own = unit ∧ ∃ s : Scalar, s.unitBytes = .ok unit

theorem isPrefixCode_isSomeUnit : IsPrefixCode IsSomeUnit where
  ne_nil := by
    rintro _ unit ⟨-, s, hs⟩
    exact ne_nil_of_unitBytes hs
  unique := by
    rintro _ _ unit unit' bytes ⟨rfl, s, hs⟩ ⟨rfl, s', hs'⟩ hstands hstands'
    have heq := unitBytes_prefix_inj hs hs' hstands hstands'
    exact ⟨heq, heq⟩

/-- A row of units is **known from its bytes**. -/
theorem flatten_units_inj {units units' : List (List UInt8)}
    (h : ∀ unit ∈ units, ∃ s : Scalar, s.unitBytes = .ok unit)
    (h' : ∀ unit ∈ units', ∃ s : Scalar, s.unitBytes = .ok unit)
    (hbytes : units.flatten = units'.flatten) : units = units' := by
  have hrow : IsRow IsSomeUnit units units.flatten :=
    ⟨units, List.forall₂_same.2 fun unit hunit => ⟨rfl, h unit hunit⟩, rfl⟩
  have hrow' : IsRow IsSomeUnit units' units.flatten :=
    ⟨units', List.forall₂_same.2 fun unit hunit => ⟨rfl, h' unit hunit⟩, hbytes.symm⟩
  exact hrow.unique isPrefixCode_isSomeUnit hrow'

/-! ### Streams of values -/

/-- The bytes are the **stream** of the values: their units, one after the other. -/
def IsStream (vs : List Value) (bytes : List UInt8) : Prop :=
  ∃ units, List.Forall₂ (fun v unit => packValue v = .ok unit) vs units ∧ units.flatten = bytes

@[simp] theorem isStream_nil_iff : IsStream [] bytes ↔ bytes = [] :=
  isRow_nil_iff

theorem isStream_cons_iff {v : Value} {vs : List Value} :
    IsStream (v :: vs) bytes ↔
      ∃ unit rest, packValue v = .ok unit ∧ IsStream vs rest ∧ unit ++ rest = bytes :=
  isRow_cons_iff

/-- The stream of some values is a row of units. -/
theorem exists_unitBytes_of_forall₂ {vs : List Value} {units : List (List UInt8)}
    (h : List.Forall₂ (fun v unit => packValue v = .ok unit) vs units) :
    ∀ unit ∈ units, ∃ s : Scalar, s.unitBytes = .ok unit := by
  induction h with
  | nil => nofun
  | cons hv _ ih =>
      obtain ⟨s, -, hs⟩ := packValue_eq_ok_iff.1 hv
      exact List.forall_mem_cons.2 ⟨⟨s, hs⟩, ih⟩

/-- The units of values are a prefix code: at one place there is one value. -/
theorem isPrefixCode_packValue : IsPrefixCode fun v unit => packValue v = .ok unit where
  ne_nil h := by
    obtain ⟨s, -, hs⟩ := packValue_eq_ok_iff.1 h
    exact ne_nil_of_unitBytes hs
  unique := by
    intro v v' unit unit' bytes hv hv' h h'
    have hread : unpack .value bytes 0 = .ok (v, 0 + unit.length) :=
      unpack_value_eq_ok_iff.2 ⟨unit, hv, h, rfl⟩
    have hread' : unpack .value bytes 0 = .ok (v', 0 + unit'.length) :=
      unpack_value_eq_ok_iff.2 ⟨unit', hv', h', rfl⟩
    obtain ⟨rfl, -⟩ := Prod.mk.inj (Except.ok.inj (hread.symm.trans hread'))
    exact ⟨rfl, Except.ok.inj (hv.symm.trans hv')⟩

/-! ### Reading a buffer -/

/-- Reading on ends where the buffer ends. -/
theorem unpackFrom_eq_ok_nil_iff (target : Target) :
    unpackFrom target buffer p = .ok [] ↔ buffer.length ≤ p := by
  rw [unpackFrom]
  split
  · next hp =>
    refine iff_of_false ?_ (Nat.not_le.2 hp)
    split
    · simp
    · split <;> simp
  · next hp => exact iff_of_true rfl (Nat.not_lt.1 hp)

/-- Reading on takes one unit and reads on behind it. -/
theorem unpackFrom_eq_ok_cons_iff (target : Target) {x : target.Carrier}
    {xs : List target.Carrier} :
    unpackFrom target buffer p = .ok (x :: xs) ↔
      ∃ next, unpack target buffer p = .ok (x, next) ∧ unpackFrom target buffer next = .ok xs := by
  rw [unpackFrom]
  constructor
  · intro h
    split at h
    · split at h
      · simp at h
      · next y next hy =>
        split at h
        · next ys hys =>
          obtain ⟨rfl, rfl⟩ := List.cons.inj (Except.ok.inj h)
          exact ⟨next, hy, hys⟩
        · simp at h
    · simp at h
  · rintro ⟨next, hx, hxs⟩
    obtain ⟨hlt, hle⟩ := unpack_progress hx
    rw [if_pos (Nat.lt_of_lt_of_le hlt hle)]
    split
    · next e he => simp [hx] at he
    · next y next' hy =>
      obtain ⟨rfl, rfl⟩ := Prod.mk.inj (Except.ok.inj (hx.symm.trans hy))
      rw [hxs]

/-- Reading on fails where the next unit fails, or behind it. -/
theorem unpack_or_unpackFrom_eq_error {target : Target} {e : UnpackFault}
    (h : unpackFrom target buffer p = .error e) :
    unpack target buffer p = .error e ∨ ∃ x next, unpack target buffer p = .ok (x, next) ∧
      unpackFrom target buffer next = .error e := by
  rw [unpackFrom] at h
  split at h
  · split at h
    · next e' he => exact .inl (Except.error.inj h ▸ he)
    · next x next hx =>
      split at h
      · simp at h
      · next e' he => exact .inr ⟨x, next, hx, Except.error.inj h ▸ he⟩
  · simp at h

/-- **The values from a position on are those whose stream is left.** -/
theorem unpackFrom_value_eq_ok_iff {vs : List Value} :
    unpackFrom .value buffer p = .ok vs ↔ IsStream vs (buffer.drop p) := by
  induction vs generalizing p with
  | nil =>
      refine (unpackFrom_eq_ok_nil_iff .value).trans ?_
      rw [isStream_nil_iff, List.drop_eq_nil_iff]
  | cons v vs ih =>
      refine (unpackFrom_eq_ok_cons_iff .value).trans ?_
      rw [isStream_cons_iff]
      constructor
      · rintro ⟨next, hv, hvs⟩
        obtain ⟨unit, hunit, ⟨rest, hrest⟩, rfl⟩ := unpack_value_eq_ok_iff.1 hv
        have hvs := ih.1 hvs
        rw [← List.drop_drop, ← hrest, List.drop_left] at hvs
        exact ⟨unit, rest, hunit, hvs, hrest⟩
      · rintro ⟨unit, rest, hunit, hvs, hrest⟩
        refine ⟨p + unit.length, unpack_value_eq_ok_iff.2 ⟨unit, hunit, ⟨rest, hrest⟩, rfl⟩, ?_⟩
        refine ih.2 ?_
        rwa [← List.drop_drop, ← hrest, List.drop_left]

/-- **The values of a buffer are those whose stream it is.** -/
theorem unpackAll_value_eq_ok_iff {vs : List Value} :
    unpackAll .value buffer = .ok vs ↔ IsStream vs buffer :=
  unpackFrom_value_eq_ok_iff

/-! ### Where a buffer fails -/

/-- Reading on fails behind some values, where no value is read. -/
theorem exists_leading_of_unpackFrom {e : UnpackFault}
    (h : unpackFrom .value buffer p = .error e) :
    ∃ vs front, IsStream vs front ∧ front <+: buffer.drop p ∧
      unpack .value buffer (p + front.length) = .error e := by
  induction hleft : buffer.length - p using Nat.strongRecOn generalizing p with
  | ind left ih =>
      obtain he | ⟨v, next, hv, he⟩ := unpack_or_unpackFrom_eq_error h
      · exact ⟨[], [], isStream_nil_iff.2 rfl, List.nil_prefix, he⟩
      · have hprogress := unpack_progress hv
        obtain ⟨vs, front, hvs, hfront, he⟩ := ih (buffer.length - next) (by omega) he rfl
        obtain ⟨unit, hunit, hstands, rfl⟩ := unpack_value_eq_ok_iff.1 hv
        refine ⟨v :: vs, unit ++ front, isStream_cons_iff.2 ⟨unit, front, hunit, hvs, rfl⟩,
          append_prefix_drop_iff.2 ⟨hstands, hfront⟩, ?_⟩
        rwa [List.length_append, ← Nat.add_assoc]

/-- **A buffer fails at the end of its longest stream of values**, for the reason for which no value
is read there. -/
theorem exists_leading_of_unpackAll {e : UnpackFault} (h : unpackAll .value buffer = .error e) :
    ∃ vs front, IsStream vs front ∧ front <+: buffer ∧
      (∀ vs' front', IsStream vs' front' → front' <+: buffer → vs' <+: vs ∧ front' <+: front) ∧
      unpack .value buffer front.length = .error e := by
  obtain ⟨vs, front, hvs, hfront, he⟩ := exists_leading_of_unpackFrom h
  rw [Nat.zero_add] at he
  refine ⟨vs, front, hvs, hfront, fun vs' front' => ?_, he⟩
  refine IsRow.longest isPrefixCode_packValue hvs hfront fun v unit hunit hstands => ?_
  rw [unpack_value_eq_ok_iff.2 ⟨unit, hunit, hstands, rfl⟩] at he
  simp at he

/-! ### The format -/

/-- **The binary format is canonical.**

What is read as a value, or at the own type of a tag, lies between the old and the new position, and
packing it gives the bytes that lie there; a read that fails leaves the position alone. So a buffer
is read as the values whose stream it is, its division into units is the only one, and where it is
not read as values its error is the one behind the longest run of values at its start. -/
theorem unpack_canonical (buffer : List UInt8) :
    (∀ p q v, unpackNext .value buffer p = (.ok v, q) →
      p < q ∧ q ≤ buffer.length ∧ packValue v = .ok ((buffer.drop p).take (q - p))) ∧
    (∀ (tag : Tag) p q x, unpackNext tag.target buffer p = (.ok x, q) →
      p < q ∧ q ≤ buffer.length ∧
        pack tag (tag.target.source x) = .ok ((buffer.drop p).take (q - p))) ∧
    (∀ target p e, (unpackNext target buffer p).1 = .error e →
      (unpackNext target buffer p).2 = p) ∧
    (∀ vs, unpackAll .value buffer = .ok vs ↔ IsStream vs buffer) ∧
    (∀ vs, unpackAll .value buffer = .ok vs → ∃! units : List (List UInt8),
      (∀ unit ∈ units, ∃ s : Scalar, s.unitBytes = .ok unit) ∧ units.flatten = buffer) ∧
    (∀ e, unpackAll .value buffer = .error e → ∃ vs front, IsStream vs front ∧ front <+: buffer ∧
      (∀ vs' front', IsStream vs' front' → front' <+: buffer → vs' <+: vs ∧ front' <+: front) ∧
      unpackNext .value buffer front.length = (.error e, front.length)) := by
  refine ⟨fun p q v h => ?_, fun tag p q x h => ?_, fun target p e => unpackNext_of_error,
    fun vs => unpackAll_value_eq_ok_iff, fun vs h => ?_, fun e h => ?_⟩
  · have hread := unpackNext_eq_ok_iff.1 h
    obtain ⟨hlt, hle⟩ := unpack_progress hread
    exact ⟨hlt, hle, packValue_of_unpack hread⟩
  · have hread := unpackNext_eq_ok_iff.1 h
    obtain ⟨hlt, hle⟩ := unpack_progress hread
    exact ⟨hlt, hle, pack_of_unpack hread⟩
  · obtain ⟨units, hunits, hbytes⟩ := unpackAll_value_eq_ok_iff.1 h
    have hall := exists_unitBytes_of_forall₂ hunits
    exact ⟨units, ⟨hall, hbytes⟩, fun units' h' =>
      flatten_units_inj h'.1 hall (h'.2.trans hbytes.symm)⟩
  · obtain ⟨vs, front, hvs, hfront, hlongest, he⟩ := exists_leading_of_unpackAll h
    exact ⟨vs, front, hvs, hfront, hlongest, by rw [unpackNext, he]⟩

/-- Null and true are read from the three bytes of their units, and the position ends at 3. -/
theorem unpack_canonical_nullTrue :
    unpackAll .value [0x4e, 0x62, 0x01] = .ok [.null, .boolean true] ∧
      packValue (.boolean true) = .ok [0x62, 0x01] := by
  obtain ⟨hvalue, -, -, hstream, -, -⟩ := unpack_canonical [0x4e, 0x62, 0x01]
  have hread : unpackNext .value [0x4e, 0x62, 0x01] 1 = (.ok (.boolean true), 3) := rfl
  obtain ⟨-, -, hpack⟩ := hvalue 1 3 (.boolean true) hread
  refine ⟨(hstream _).2 ⟨[[0x4e], [0x62, 0x01]], ?_, rfl⟩, hpack⟩
  exact .cons rfl (.cons hpack .nil)

end StrictJson.Packed
