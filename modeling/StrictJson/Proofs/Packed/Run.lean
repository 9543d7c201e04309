import StrictJson.Proofs.Packed.Canonical

/-!
# Runs of Packing

A run of requests to pack, some of them refused, and the reader that comes after it. A refused
request leaves no byte behind, so the buffer holds the units of the accepted ones and nothing
between them, and a reader who knows what to ask for finds everything again.

## Main definitions

* `Request.accepted?`: the scalar that a request packs.
* `Reads`: reading one unit after the other with one position.

## Main results

* `exists_units_of_performAll`: the bytes that a run appends.
* `reads_of_stands`: units that stand one after the other are read one after the other.
* `performAll_unpacked`: what was packed is unpacked.
-/

namespace StrictJson.Packed

variable {buffer : List UInt8} {p q : ℕ} {r : Request} {s : Scalar}

/-! ### One request -/

/-- The scalar that a request packs: that of its source, if the tag is its own and it **fits**. -/
def Request.accepted? (r : Request) : Option Scalar :=
  r.source.scalar?.filter fun s => s.tag = r.tag ∧ s.Fits

/-- The request is for a string, and what it offers are raw bytes that are **no text**. -/
def Request.Malformed (r : Request) : Prop :=
  r.tag = .string ∧ ∃ raw, r.source.Offers (.bytes raw) ∧ Utf8.isValid raw = false

/-- A request packs what its source offers, under the tag of the scalar and if this fits. -/
theorem accepted?_eq_some_iff :
    r.accepted? = some s ↔ r.source.Offers s ∧ s.tag = r.tag ∧ s.Fits := by
  rw [Request.accepted?, Option.filter_eq_some_iff, decide_eq_true_eq, scalar?_eq_some_iff]

/-- An accepted request appends the unit of its scalar. -/
theorem exists_unit_of_accepted (h : r.accepted? = some s) :
    ∃ unit, s.unitBytes = .ok unit ∧ ∀ buffer, r.perform buffer = (.ok (), buffer ++ unit) := by
  obtain ⟨hoffers, htag, hfits⟩ := accepted?_eq_some_iff.1 h
  obtain ⟨unit, hunit⟩ := exists_unitBytes_iff.2 hfits
  have hpack : pack r.tag r.source = .ok unit :=
    pack_eq_ok_iff.2 ⟨s, scalar?_of_offers hoffers, htag, hunit⟩
  exact ⟨unit, hunit, fun buffer => by rw [Request.perform, packInto, hpack]⟩

/-- **The code of a refusal**: one for raw bytes that are no text, and another for everything
else. -/
theorem code_of_pack_eq_error {e : PackFault} (h : pack r.tag r.source = .error e) :
    (r.Malformed → e.toError.code = .invalidUtf8) ∧
      (¬ r.Malformed → e.toError.code = .invalidArgument) := by
  simp only [Request.Malformed, ← scalar?_eq_some_iff]
  rw [pack] at h
  split at h
  · next hsource =>
    obtain rfl := Except.error.inj h
    refine ⟨?_, fun _ => rfl⟩
    rintro ⟨-, raw, hraw, -⟩
    simp [hsource] at hraw
  · next s hsource =>
    split_ifs at h with htag
    · obtain ⟨rfl, raw, rfl, hraw⟩ | ⟨⟨n, rfl⟩, hvalid⟩ := unitBytes_eq_error h
      · exact ⟨fun _ => rfl, fun hnot => absurd ⟨htag.symm, raw, hsource, hraw⟩ hnot⟩
      · refine ⟨?_, fun _ => rfl⟩
        rintro ⟨-, raw, hraw, hinvalid⟩
        obtain rfl := Option.some.inj (hsource.symm.trans hraw)
        simp [hvalid raw rfl] at hinvalid
    · obtain rfl := Except.error.inj h
      refine ⟨?_, fun _ => rfl⟩
      rintro ⟨hstring, raw, hraw, -⟩
      obtain rfl := Option.some.inj (hsource.symm.trans hraw)
      exact absurd hstring.symm htag

/-- A request that is not accepted **leaves the buffer as it was**. -/
theorem exists_fault_of_refused (h : r.accepted? = none) :
    ∃ e, pack r.tag r.source = .error e ∧ ∀ buffer, r.perform buffer = (.error e, buffer) := by
  cases hpack : pack r.tag r.source with
  | error e => exact ⟨e, rfl, fun buffer => by rw [Request.perform, packInto, hpack]⟩
  | ok unit =>
      obtain ⟨s, hsource, htag, hunit⟩ := pack_eq_ok_iff.1 hpack
      have haccepted : r.accepted? = some s :=
        accepted?_eq_some_iff.2
          ⟨scalar?_eq_some_iff.1 hsource, htag, exists_unitBytes_iff.1 ⟨unit, hunit⟩⟩
      simp [h] at haccepted

/-- **What one request does**: it appends the unit of its scalar, or it fails and appends
nothing. -/
theorem perform_cases (r : Request) (buffer : List UInt8) :
    ((r.perform buffer).1 = .ok () ↔
      ∃ s, r.source.Offers s ∧ s.tag = r.tag ∧ s.Fits) ∧
    ∀ e, (r.perform buffer).1 = .error e → (r.perform buffer).2 = buffer ∧
      (r.Malformed → e.toError.code = .invalidUtf8) ∧
      (¬ r.Malformed → e.toError.code = .invalidArgument) := by
  simp only [← accepted?_eq_some_iff]
  cases haccepted : r.accepted? with
  | some s =>
      obtain ⟨unit, -, hperform⟩ := exists_unit_of_accepted haccepted
      rw [hperform]
      exact ⟨iff_of_true rfl ⟨s, rfl⟩, nofun⟩
  | none =>
      obtain ⟨e, hpack, hperform⟩ := exists_fault_of_refused haccepted
      rw [hperform]
      refine ⟨iff_of_false nofun nofun, fun e' he => ⟨rfl, ?_⟩⟩
      obtain rfl := Except.error.inj he
      exact code_of_pack_eq_error hpack

/-! ### Runs -/

/-- **A run appends the units of the accepted scalars**, in their order. -/
theorem exists_units_of_performAll (before : List UInt8) (requests : List Request) :
    ∃ units, List.Forall₂ (fun s unit => s.unitBytes = .ok unit)
      (requests.filterMap Request.accepted?) units ∧
      (performAll before requests).2 = before ++ units.flatten := by
  induction requests generalizing before with
  | nil => exact ⟨[], .nil, (List.append_nil before).symm⟩
  | cons r requests ih =>
      cases haccepted : r.accepted? with
      | some s =>
          obtain ⟨unit, hunit, hperform⟩ := exists_unit_of_accepted haccepted
          obtain ⟨units, hunits, hfinal⟩ := ih (before ++ unit)
          rw [List.filterMap_cons_some haccepted]
          refine ⟨unit :: units, .cons hunit hunits, ?_⟩
          simp only [performAll, hperform]
          rw [hfinal, List.append_assoc, List.flatten_cons]
      | none =>
          obtain ⟨e, -, hperform⟩ := exists_fault_of_refused haccepted
          obtain ⟨units, hunits, hfinal⟩ := ih before
          rw [List.filterMap_cons_none haccepted]
          refine ⟨units, hunits, ?_⟩
          simp only [performAll, hperform]
          exact hfinal

/-- A request gets the same answer whatever was packed before it. -/
theorem answer_perform (r : Request) (buffer buffer' : List UInt8) :
    (r.perform buffer).1 = (r.perform buffer').1 := by
  cases haccepted : r.accepted? with
  | some s =>
      obtain ⟨unit, -, hperform⟩ := exists_unit_of_accepted haccepted
      rw [hperform, hperform]
  | none =>
      obtain ⟨e, -, hperform⟩ := exists_fault_of_refused haccepted
      rw [hperform, hperform]

/-- The answers of a run are those that the requests get one by one. -/
theorem answers_performAll (before : List UInt8) (requests : List Request) :
    (performAll before requests).1 = requests.map fun r => (r.perform before).1 := by
  induction requests generalizing before with
  | nil => rfl
  | cons r requests ih =>
      simp only [performAll, List.map_cons, List.cons.injEq, true_and]
      rw [ih]
      exact List.map_congr_left fun r' _ => answer_perform r' _ _

/-! ### Reading a run -/

/-- What fits is read as itself, or as the text that raw bytes spell. -/
theorem asRead_of_fits (h : s.Fits) :
    s.asRead = s ∨ ∃ t, s = .bytes (Utf8.ofString t) ∧ s.asRead = .text t := by
  cases s with
  | bytes raw =>
      obtain ⟨chars, hchars⟩ := Utf8.isValid_iff.1 h.1
      have hraw : raw = Utf8.ofString (String.ofList chars) := by
        rw [Utf8.ofString, String.toList_ofList, hchars]
      rw [hraw]
      exact .inr ⟨_, rfl, asRead_ofString _⟩
  | _ => exact .inl rfl

/-- **Reading with one position**: each target accepts the unit at the position, the result is the
scalar, and the position moves past exactly this unit. -/
inductive Reads (buffer : List UInt8) :
    ℕ → List Target → List Scalar → List (List UInt8) → ℕ → Prop
  | done {p : ℕ} : Reads buffer p [] [] [] p
  | next {p q : ℕ} {target : Target} {targets : List Target} {s : Scalar} {scalars : List Scalar}
      {unit : List UInt8} {units : List (List UInt8)} {x : target.Carrier} :
      unpackNext target buffer p = (.ok x, p + unit.length) → (target.source x).Offers s →
      Reads buffer (p + unit.length) targets scalars units q →
      Reads buffer p (target :: targets) (s :: scalars) (unit :: units) q

/-- A target that suits the tag of a scalar reads it where its unit stands. -/
theorem exists_read_of_stands {target : Target} {unit : List UInt8} (hunit : s.unitBytes = .ok unit)
    (hsuits : target.Suits s.tag) (hstands : unit <+: buffer.drop p) :
    ∃ x, unpackNext target buffer p = (.ok x, p + unit.length) ∧
      (target.source x).Offers s.asRead := by
  obtain ⟨hraw, htag, -⟩ := asRead_of_unitBytes hunit
  obtain ⟨x, hx⟩ := exists_ofScalar hraw (htag ▸ hsuits)
  have hread := unpack_eq_ok_iff.2 ⟨_, readUnit_of_stands hunit hstands, hx⟩
  exact ⟨x, unpackNext_eq_ok_iff.2 hread, scalar?_eq_some_iff.1 (scalar?_source hraw hx)⟩

/-- **Units that stand one after the other are read one after the other.** -/
theorem reads_of_stands {scalars : List Scalar} {units : List (List UInt8)}
    (hunits : List.Forall₂ (fun s unit => s.unitBytes = .ok unit) scalars units)
    {targets : List Target}
    (hsuit : List.Forall₂ (fun target s => target.Suits s.tag) targets scalars)
    (hstands : units.flatten <+: buffer.drop p) :
    Reads buffer p targets (scalars.map Scalar.asRead) units (p + units.flatten.length) := by
  induction hunits generalizing targets p with
  | nil =>
      obtain rfl := List.forall₂_nil_right_iff.1 hsuit
      exact .done
  | cons hunit _ ih =>
      obtain ⟨target, targets, hs, hsuits, rfl⟩ := List.forall₂_cons_right_iff.1 hsuit
      rw [List.flatten_cons, append_prefix_drop_iff] at hstands
      obtain ⟨x, hread, hx⟩ := exists_read_of_stands hunit hs hstands.1
      rw [List.flatten_cons, List.length_append, ← Nat.add_assoc]
      exact .next hread hx (ih hsuits hstands.2)

/-- What is no error is read as a value. -/
theorem exists_packValue {unit : List UInt8} (hunit : s.unitBytes = .ok unit)
    (herror : s.tag ≠ .error) :
    ∃ v, packValue v = .ok unit ∧ Source.Offers (.value v) s.asRead := by
  have hstands : unit <+: unit.drop 0 := List.prefix_rfl
  obtain ⟨v, hread, hv⟩ := exists_read_of_stands hunit (.value herror) hstands
  obtain ⟨-, -, hunit'⟩ := asRead_of_unitBytes hunit
  exact ⟨v, packValue_eq_ok_iff.2 ⟨_, scalar?_of_offers hv, hunit'⟩, hv⟩

/-- Units without errors among them are the stream of some values. -/
theorem exists_isStream {scalars : List Scalar} {units : List (List UInt8)}
    (hunits : List.Forall₂ (fun s unit => s.unitBytes = .ok unit) scalars units)
    (herror : ∀ s ∈ scalars, s.tag ≠ .error) :
    ∃ vs, IsStream vs units.flatten ∧
      List.Forall₂ (fun v s => Source.Offers (.value v) s.asRead) vs scalars := by
  induction hunits with
  | nil => exact ⟨[], isStream_nil_iff.2 rfl, .nil⟩
  | @cons s unit scalars units hunit _ ih =>
      rw [List.forall_mem_cons] at herror
      obtain ⟨v, hv, hscalar⟩ := exists_packValue hunit herror.1
      obtain ⟨vs, hvs, hscalars⟩ := ih herror.2
      exact ⟨v :: vs, isStream_cons_iff.2 ⟨unit, units.flatten, hv, hvs, rfl⟩,
        .cons hscalar hscalars⟩

/-- **What was packed is unpacked.**

A request succeeds exactly if its source offers a scalar with the tag that it names, which is a text
only if its bytes are well-formed and not too many. Otherwise it fails with the code for malformed
text or for a wrong argument, and leaves the buffer as it was. After a run the buffer holds what was
there before and then the units of the accepted scalars, in order.

With one position, which starts behind what was there before, these units are read by any targets
that suit their tags. Each read gives the scalar that was packed, which for raw bytes is the text
that they spell, moves past its unit, and the last one ends where the buffer ends. A buffer that was
empty, and got no error unit, is read as values from its start to its end. -/
theorem performAll_unpacked (before : List UInt8) (requests : List Request) :
    let accepted := requests.filterMap Request.accepted?
    let final := (performAll before requests).2
    (∀ (r : Request) (s : Scalar),
      r.accepted? = some s ↔ r.source.Offers s ∧ s.tag = r.tag ∧ s.Fits) ∧
    (∀ (r : Request) (buffer : List UInt8),
      ((r.perform buffer).1 = .ok () ↔
        ∃ s, r.source.Offers s ∧ s.tag = r.tag ∧ s.Fits) ∧
      ∀ e, (r.perform buffer).1 = .error e → (r.perform buffer).2 = buffer ∧
        (r.Malformed → e.toError.code = .invalidUtf8) ∧
        (¬ r.Malformed → e.toError.code = .invalidArgument)) ∧
    (performAll before requests).1 = requests.map (fun r => (r.perform before).1) ∧
    (∀ s ∈ accepted, s.asRead = s ∨
      ∃ t, s = .bytes (Utf8.ofString t) ∧ s.asRead = .text t) ∧
    ∃ units, List.Forall₂ (fun s unit => s.unitBytes = .ok unit) accepted units ∧
      final = before ++ units.flatten ∧
      (∀ targets, List.Forall₂ (fun target s => target.Suits s.tag) targets accepted →
        Reads final before.length targets (accepted.map Scalar.asRead) units final.length) ∧
      (before = [] → (∀ s ∈ accepted, s.tag ≠ .error) → ∃ vs, unpackAll .value final = .ok vs ∧
        List.Forall₂ (fun v s => Source.Offers (.value v) s.asRead) vs accepted) := by
  intro accepted final
  obtain ⟨units, hunits, hfinal⟩ := exists_units_of_performAll before requests
  have hfinal : final = before ++ units.flatten := hfinal
  refine ⟨fun _ _ => accepted?_eq_some_iff, perform_cases, answers_performAll before requests,
    fun s hs => ?_, units, hunits, hfinal, ?_, ?_⟩
  · obtain ⟨r, -, hr⟩ := List.mem_filterMap.1 hs
    exact asRead_of_fits (accepted?_eq_some_iff.1 hr).2.2
  · intro targets hsuit
    have hstands : units.flatten <+: final.drop before.length := by
      rw [hfinal, List.drop_left]
    have hreads := reads_of_stands hunits hsuit hstands
    rwa [← List.length_append, ← hfinal] at hreads
  · rintro rfl herror
    rw [hfinal, List.nil_append]
    obtain ⟨vs, hvs, hscalars⟩ := exists_isStream hunits herror
    exact ⟨vs, unpackAll_value_eq_ok_iff.2 hvs, hscalars⟩

/-- An integer is refused under the tag of reals, and a lone trail byte is refused as a string. The
text and the missing value between them are packed and read back. -/
theorem performAll_unpacked_refusals :
    let requests : List Request :=
      [⟨.real, .smallInteger 7⟩, ⟨.string, .bytes [0x41]⟩, ⟨.string, .bytes [0x80]⟩, ⟨.null, .none⟩]
    let final := [0xff, 0x73, 0, 0, 0, 1, 0x41, 0x4e]
    (performAll [0xff] requests).2 = final ∧
      ∃ units, Reads final 1 [.text, .value] [.text "A", .null] units 8 := by
  intro requests final
  have hfinal : (performAll [0xff] requests).2 = final := by decide +kernel
  obtain ⟨-, -, -, -, units, -, -, hreads, -⟩ := performAll_unpacked [0xff] requests
  have haccepted : requests.filterMap Request.accepted? = [.bytes [0x41], .null] := by
    decide +kernel
  have hletter : (Scalar.bytes [0x41]).asRead = .text "A" := asRead_ofString "A"
  have hnull : Scalar.null.asRead = .null := rfl
  rw [haccepted, hfinal, List.map_cons, List.map_singleton, hletter, hnull] at hreads
  exact ⟨hfinal, units, hreads _ (.cons (.own .string) (.cons (.value nofun) .nil))⟩

end StrictJson.Packed
