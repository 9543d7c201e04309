import StrictJson.Proofs.Value.Canonical
import StrictJson.Value.History

/-!
# An Object and Its History

What an object holds after any operations, told from what was done to it and from nothing else. A
run keeps a **ledger**: each operation that succeeds enters what it did, key by key, and one that
fails enters nothing. The ledger settles the object. A key is present if it was inserted and not
removed since; its value is the one written last; and the keys stand in the order of their births,
where a key is born when it is inserted while it is absent. So a member that is overwritten stays
where it is, one that is removed and inserted again moves to the end, and the others keep their
order.

All three are said with one notion, that something was done **since** which something else was not.
It looks at the end of the ledger, where a run adds to it, so one lemma says what an entry changes,
and a run is an induction over its operations.

## Main definitions

* `Members.Entry`, `Members.ledger`: what was done, and all that was done in a run.
* `Members.Present`, `Members.HasValue`, `Members.BornAt`: what a ledger says of a key.
* `Members.Follows`: the members are those that the ledger tells of.
* `Members.Coherent`: the observers of an object agree with each other.
* `Members.Operation.Responds`: an operation fails and answers as the ledger says.

## Main results

* `Members.Follows.entry`, `Members.Follows.after`: what one entry and one operation preserve.
* `Members.Follows.run`: the members of a run follow its ledger.
* `Members.run_follows_ledger`: the object follows its history.
-/

namespace StrictJson.Members

variable {α : Type}

/-! ### The ledger -/

/-- An **entry** of the ledger: what was done to a key, or to all. -/
inductive Entry (α : Type) where
  | insert (key : String) (value : α)
  | write (key : String) (value : α)
  | remove (key : String)
  | clear

namespace Entry

/-- The entry inserts the key. -/
def Inserts (key : String) (e : Entry α) : Prop :=
  ∃ value, e = insert key value

/-- The entry removes the key, alone or with all others. -/
def Removes (key : String) (e : Entry α) : Prop :=
  e = remove key ∨ e = clear

/-- The entry gives the key a value. -/
def Writes (key : String) (value : α) (e : Entry α) : Prop :=
  e = insert key value ∨ e = write key value

end Entry

/-- The pairs that a visit to all members writes. -/
def rewritten (f : String → α → Option α) (members : List (String × α)) : List (String × α) :=
  members.filterMap fun (k, v) => (f k v).map (k, ·)

/-- What an operation does when it succeeds. -/
def Operation.deeds (members : List (String × α)) : Operation α → List (Entry α)
  | collect pairs => .clear :: pairs.map fun (k, v) => .insert k v
  | insert key value => [.insert key value]
  | tryInsert key value => [.insert key value]
  | remove key => [.remove key]
  | assign key value => [.write key value]
  | extend pairs => pairs.map fun (k, v) => .insert k v
  | rewrite f => (rewritten f members).map fun (k, v) => .write k v
  | clear => [.clear]

/-- What an operation enters in the ledger: nothing if it fails. -/
def Operation.entries (members : List (String × α)) (op : Operation α) : List (Entry α) :=
  match op.apply members with
  | .ok _ => op.deeds members
  | .error _ => []

/-- The **ledger** of some operations. -/
def ledger : List (String × α) → List (Operation α) → List (Entry α)
  | _, [] => []
  | members, op :: ops => op.entries members ++ ledger (op.after members) ops

/-! ### What a ledger says -/

/-- Something was done **since** which something else was not: the ledger has an entry that fits
what stands before it, with no entry of the other kind after it. -/
def Since (done : List (Entry α) → Entry α → Prop) (undone : Entry α → Prop)
    (entries : List (Entry α)) : Prop :=
  ∃ before e later, entries = before ++ e :: later ∧ done before e ∧ ∀ x ∈ later, ¬ undone x

/-- A key is **present**: its last insertion comes after its last removal. -/
def Present (entries : List (Entry α)) (key : String) : Prop :=
  Since (fun _ => Entry.Inserts key) (Entry.Removes key) entries

/-- A key **has a value**: the value was written to it, and since then none was written to it and it
was not removed. -/
def HasValue (entries : List (Entry α)) (key : String) (value : α) : Prop :=
  Since (fun _ => Entry.Writes key value) (fun e => e.Removes key ∨ ∃ v, e.Writes key v) entries

/-- A key was **born** at a place of the ledger: there it was inserted while absent, and since then
it was not removed. -/
def BornAt (entries : List (Entry α)) (key : String) (i : ℕ) : Prop :=
  Since (fun before e => before.length = i ∧ e.Inserts key ∧ ¬ Present before key)
    (Entry.Removes key) entries

variable {members new : List (String × α)} {entries : List (Entry α)} {e : Entry α}
variable {key k : String} {value v : α} {i j : ℕ}
variable {done : List (Entry α) → Entry α → Prop} {undone : Entry α → Prop}

theorem not_since_nil : ¬ Since done undone [] := by
  rintro ⟨before, e, later, h, -⟩
  exact List.append_ne_nil_of_right_ne_nil _ (List.cons_ne_nil e later) h.symm

/-- **What a further entry changes**: it is done by it, or it was done before and is not undone by
it. -/
theorem since_concat :
    Since done undone (entries ++ [e]) ↔
      done entries e ∨ Since done undone entries ∧ ¬ undone e := by
  constructor
  · rintro ⟨before, e', later, h, hdone, hlater⟩
    rcases List.eq_nil_or_concat' later with rfl | ⟨later, last, rfl⟩
    · obtain ⟨rfl, hlast⟩ := List.append_inj' h rfl
      exact .inl (List.head_eq_of_cons_eq hlast ▸ hdone)
    · rw [← List.cons_append, ← List.append_assoc] at h
      obtain ⟨rfl, hlast⟩ := List.append_inj' h rfl
      obtain rfl := List.head_eq_of_cons_eq hlast
      rw [List.forall_mem_append, List.forall_mem_singleton] at hlater
      exact .inr ⟨⟨before, e', later, rfl, hdone, hlater.1⟩, hlater.2⟩
  · rintro (hdone | ⟨⟨before, e', later, rfl, hdone, hlater⟩, hlast⟩)
    · exact ⟨entries, e, [], rfl, hdone, List.forall_mem_nil _⟩
    · refine ⟨before, e', later ++ [e], by rw [List.append_assoc, List.cons_append], hdone, ?_⟩
      exact List.forall_mem_append.2 ⟨hlater, List.forall_mem_singleton.2 hlast⟩

theorem present_concat :
    Present (entries ++ [e]) key ↔ e.Inserts key ∨ Present entries key ∧ ¬ e.Removes key :=
  since_concat

theorem bornAt_concat :
    BornAt (entries ++ [e]) key i ↔
      (entries.length = i ∧ e.Inserts key ∧ ¬ Present entries key) ∨
        BornAt entries key i ∧ ¬ e.Removes key :=
  since_concat

theorem hasValue_concat :
    HasValue (entries ++ [e]) key value ↔ e.Writes key value ∨
      HasValue entries key value ∧ ¬ (e.Removes key ∨ ∃ v, e.Writes key v) :=
  since_concat

/-- What inserts a key does not remove it. -/
theorem Entry.Inserts.not_removes (h : e.Inserts key) : ¬ e.Removes k := by
  obtain ⟨v, rfl⟩ := h
  exact not_or.2 ⟨nofun, nofun⟩

/-- What has a birth is present. -/
theorem BornAt.present (h : BornAt entries key i) : Present entries key := by
  obtain ⟨before, e, later, rfl, ⟨-, hinserts, -⟩, hlater⟩ := h
  exact ⟨before, e, later, rfl, hinserts, hlater⟩

theorem BornAt.lt_length (h : BornAt entries key i) : i < entries.length := by
  obtain ⟨before, e, later, rfl, ⟨rfl, -, -⟩, -⟩ := h
  rw [List.length_append, List.length_cons]
  omega

/-- A key that is present is not born by a further entry. -/
theorem BornAt.of_concat (h : BornAt (entries ++ [e]) key i) (hkey : Present entries key) :
    BornAt entries key i := by
  rcases bornAt_concat.1 h with ⟨-, -, hno⟩ | ⟨hborn, -⟩
  · exact absurd hkey hno
  · exact hborn

/-- **A key that is present was born once.** -/
theorem Present.existsUnique_bornAt (h : Present entries key) : ∃! i, BornAt entries key i := by
  induction entries using List.reverseRecOn with
  | nil => exact absurd h not_since_nil
  | append_singleton entries e ih =>
      by_cases hkey : Present entries key
      · obtain ⟨i, hi, hunique⟩ := ih hkey
        have hkept : ¬ e.Removes key := by
          rcases present_concat.1 h with hinserts | ⟨-, hkept⟩
          · exact hinserts.not_removes
          · exact hkept
        exact ⟨i, bornAt_concat.2 (.inr ⟨hi, hkept⟩), fun j hj => hunique j (hj.of_concat hkey)⟩
      · have hinserts : e.Inserts key := by
          rcases present_concat.1 h with hinserts | ⟨hold, -⟩
          · exact hinserts
          · exact absurd hold hkey
        refine ⟨entries.length, bornAt_concat.2 (.inl ⟨rfl, hinserts, hkey⟩), fun j hj => ?_⟩
        rcases bornAt_concat.1 hj with ⟨hj, -⟩ | ⟨hj, -⟩
        · exact hj.symm
        · exact absurd hj.present hkey

/-! ### Members that follow a ledger -/

/-- Members **follow** a ledger: they have the keys that are present by it, in the order of their
births, and the values that it gives them. -/
structure Follows (members : List (String × α)) (entries : List (Entry α)) : Prop where
  present : ∀ key, key ∈ keys members ↔ Present entries key
  value : ∀ key value, members.lookup key = some value ↔ HasValue entries key value
  born : ∀ key ∈ keys members, ∃! i, BornAt entries key i
  order : (keys members).Pairwise fun a b =>
    ∀ i j, BornAt entries a i → BornAt entries b j → i < j

/-- What is present has a birth, so nothing is to be shown of births but their order. -/
theorem Follows.of_order (hpresent : ∀ key, key ∈ keys members ↔ Present entries key)
    (hvalue : ∀ key value, members.lookup key = some value ↔ HasValue entries key value)
    (horder : (keys members).Pairwise fun a b =>
      ∀ i j, BornAt entries a i → BornAt entries b j → i < j) : Follows members entries :=
  ⟨hpresent, hvalue, fun key hkey => ((hpresent key).1 hkey).existsUnique_bornAt, horder⟩

theorem follows_nil : Follows ([] : List (String × α)) [] :=
  .of_order (fun _ => iff_of_false List.not_mem_nil not_since_nil)
    (fun _ _ => iff_of_false (Option.some_ne_none _).symm not_since_nil) .nil

/-- Members that follow a ledger have distinct keys, since none is born before itself. -/
theorem Follows.nodup (h : Follows members entries) : (keys members).Nodup := by
  refine List.Pairwise.imp_of_mem (fun {a b} ha hb hab => ?_) h.order
  rintro rfl
  obtain ⟨i, hi, -⟩ := h.born a ha
  exact lt_irrefl i (hab i i hi hi)

/-- A further entry leaves the order of the keys that were there. -/
theorem Follows.order_concat (h : Follows members entries) {ks : List String}
    (hks : ks.Sublist (keys members)) : ks.Pairwise fun a b =>
      ∀ i j, BornAt (entries ++ [e]) a i → BornAt (entries ++ [e]) b j → i < j := by
  have hold : ∀ {a}, a ∈ ks → Present entries a := fun ha => (h.present _).1 (hks.subset ha)
  refine (h.order.sublist hks).imp_of_mem fun {a b} ha hb hab i j hi hj => ?_
  exact hab i j (hi.of_concat (hold ha)) (hj.of_concat (hold hb))

/-! ### One entry -/

theorem keys_insert : keys (insert key value members) =
    if key ∈ keys members then keys members else keys members ++ [key] :=
  map_fst_insert key value members

theorem mem_keys_insert :
    k ∈ keys (insert key value members) ↔ k = key ∨ k ∈ keys members := by
  rw [keys_insert]
  split_ifs with hkey
  · exact ⟨.inr, fun h => h.elim (fun hk => hk ▸ hkey) id⟩
  · rw [List.mem_append, List.mem_singleton, or_comm]

/-- Taking out a member takes out its key. -/
theorem keys_eraseP : keys (members.eraseP fun m => m.1 == key) = (keys members).erase key := by
  have hkey : (fun k => key == k) = fun k => k == key := funext fun k => Bool.beq_comm
  rw [keys, keys, List.erase_eq_eraseP, hkey, List.eraseP_map]
  rfl

/-- A member that is taken out is not found, and the others are. -/
theorem lookup_eraseP (h : (keys members).Nodup) (k : String) :
    (members.eraseP fun m => m.1 == key).lookup k =
      if k = key then none else members.lookup k := by
  induction members with
  | nil => rw [List.eraseP_nil, List.lookup_nil, ite_self]
  | cons m ms ih =>
      rw [keys, List.map_cons, List.nodup_cons] at h
      rw [List.eraseP_cons, Bool.cond_eq_ite, lookup_cons]
      by_cases hm : m.1 = key
      · rw [if_pos (beq_iff_eq.2 hm)]
        by_cases hk : k = key
        · rw [if_pos hk, hk, ← hm, List.lookup_eq_none_iff]
          exact fun m' hm' => bne_iff_ne.2 fun heq => h.1 (List.mem_map.2 ⟨m', hm', heq.symm⟩)
        · rw [if_neg hk, if_neg fun hk' => hk (hk'.trans hm)]
      · rw [if_neg (mt beq_iff_eq.1 hm), lookup_cons, ih h.2]
        by_cases hk : k = key
        · rw [if_pos hk, if_pos hk, if_neg fun hk' => hm (hk'.symm.trans hk)]
        · rw [if_neg hk, if_neg hk]

/-- The members as they are after an entry. -/
def Entry.apply (members : List (String × α)) : Entry α → List (String × α)
  | insert key value => Members.insert key value members
  | write key value => Members.insert key value members
  | remove key => members.eraseP fun m => m.1 == key
  | clear => []

/-- An entry **fits** members if it overwrites none but those that are there. -/
def Entry.Fits (members : List (String × α)) (e : Entry α) : Prop :=
  ∀ key value, e = write key value → key ∈ keys members

/-- The keys after an entry are told by it and by the keys before it, as presence is. -/
theorem mem_keys_apply (h : (keys members).Nodup) (he : e.Fits members) :
    key ∈ keys (e.apply members) ↔ e.Inserts key ∨ key ∈ keys members ∧ ¬ e.Removes key := by
  cases e with
  | insert k v =>
      rw [Entry.apply, mem_keys_insert]
      simp [Entry.Inserts, Entry.Removes, eq_comm]
  | write k v =>
      rw [Entry.apply, keys_insert, if_pos (he k v rfl)]
      simp [Entry.Inserts, Entry.Removes]
  | remove k =>
      rw [Entry.apply, keys_eraseP, List.Nodup.mem_erase_iff h]
      simp [Entry.Inserts, Entry.Removes, and_comm, eq_comm]
  | clear => simp [Entry.apply, Entry.Inserts, Entry.Removes, keys]

/-- The values after an entry are told by it and by the values before it, as the last written ones
are. -/
theorem lookup_apply (h : (keys members).Nodup) :
    (e.apply members).lookup key = some value ↔ e.Writes key value ∨
      members.lookup key = some value ∧ ¬ (e.Removes key ∨ ∃ v, e.Writes key v) := by
  cases e with
  | insert k v =>
      rw [Entry.apply, lookup_insert]
      by_cases hk : key = k <;> simp [Entry.Removes, Entry.Writes, hk, eq_comm]
  | write k v =>
      rw [Entry.apply, lookup_insert]
      by_cases hk : key = k <;> simp [Entry.Removes, Entry.Writes, hk, eq_comm]
  | remove k =>
      rw [Entry.apply, lookup_eraseP h]
      by_cases hk : key = k <;> simp [Entry.Removes, Entry.Writes, hk, eq_comm]
  | clear => simp [Entry.apply, Entry.Removes, Entry.Writes]

/-- **One entry**: members that follow a ledger follow it with the entry once it has taken place. -/
theorem Follows.entry (h : Follows members entries) (he : e.Fits members) :
    Follows (e.apply members) (entries ++ [e]) := by
  refine .of_order (fun k => ?_) (fun k v => ?_) ?_
  · rw [mem_keys_apply h.nodup he, present_concat, h.present]
  · rw [lookup_apply h.nodup, hasValue_concat, h.value]
  · cases e with
    | insert key value =>
        rw [Entry.apply, keys_insert]
        split_ifs with hkey
        · exact h.order_concat (.refl _)
        · -- The new key is born last, since all others were born before.
          refine List.pairwise_append.2 ⟨h.order_concat (.refl _), List.pairwise_singleton _ _,
            fun a ha b hb i j hi hj => ?_⟩
          obtain rfl := List.mem_singleton.1 hb
          have hlt := (hi.of_concat ((h.present a).1 ha)).lt_length
          rcases bornAt_concat.1 hj with ⟨hj, -⟩ | ⟨hj, -⟩
          · omega
          · exact absurd ((h.present b).2 hj.present) hkey
    | write key value =>
        rw [Entry.apply, keys_insert, if_pos (he key value rfl)]
        exact h.order_concat (.refl _)
    | remove key =>
        rw [Entry.apply, keys_eraseP]
        exact h.order_concat List.erase_sublist
    | clear => exact .nil

/-! ### One operation -/

/-- Pairs that are inserted one after the other. -/
theorem Follows.extend_insert (h : Follows members entries) (pairs : List (String × α)) :
    Follows (extend members pairs) (entries ++ pairs.map fun (k, v) => .insert k v) := by
  induction pairs generalizing members entries with
  | nil =>
      rw [List.map_nil, List.append_nil]
      exact h
  | cons p ps ih =>
      rw [List.map_cons, List.append_cons]
      exact ih (h.entry (e := .insert p.1 p.2) nofun)

/-- Pairs of keys that are there, written one after the other. -/
theorem Follows.extend_write (h : Follows members entries) {pairs : List (String × α)}
    (hpairs : ∀ p ∈ pairs, p.1 ∈ keys members) :
    Follows (extend members pairs) (entries ++ pairs.map fun (k, v) => .write k v) := by
  induction pairs generalizing members entries with
  | nil =>
      rw [List.map_nil, List.append_nil]
      exact h
  | cons p ps ih =>
      obtain ⟨hp, hps⟩ := List.forall_mem_cons.1 hpairs
      rw [List.map_cons, List.append_cons]
      refine ih (h.entry (e := .write p.1 p.2) fun k v hk => ?_) fun q hq => ?_
      · obtain ⟨rfl, -⟩ := Entry.write.inj hk
        exact hp
      · exact mem_keys_insert.2 (.inr (hps q hq))

/-- An insertion behind members of other keys. -/
theorem insert_append (h : key ∉ keys members) (more : List (String × α)) :
    insert key value (members ++ more) = members ++ insert key value more := by
  induction members with
  | nil => rfl
  | cons m ms ih =>
      rw [keys, List.map_cons, List.mem_cons, not_or] at h
      rw [List.cons_append, insert, if_neg (Ne.symm h.1), ih h.2, List.cons_append]

/-- **To visit all members is to write the pairs** one after the other. -/
theorem rewrite_eq_extend (f : String → α → Option α) (h : (keys members).Nodup) :
    rewrite f members = extend members (rewritten f members) := by
  -- The induction goes along the members that are left, behind those that were visited.
  have hfrom : ∀ visited : List (String × α), (keys (visited ++ members)).Nodup →
      visited ++ rewrite f members = extend (visited ++ members) (rewritten f members) := by
    clear h
    induction members with
    | nil => exact fun visited _ => rfl
    | cons m ms ih =>
        intro visited hnodup
        obtain ⟨k, v⟩ := m
        have hk : k ∉ keys visited := by
          rw [keys, List.map_append, List.nodup_append] at hnodup
          exact fun hmem => hnodup.2.2 k hmem k (List.mem_cons_self ..) rfl
        have hnext : ∀ w, (keys (visited ++ [(k, w)] ++ ms)).Nodup := by
          intro w
          rw [List.append_assoc]
          simpa [keys] using hnodup
        cases hf : f k v with
        | none =>
            have hih := ih (visited ++ [(k, v)]) (hnext v)
            rw [List.append_assoc, List.append_assoc] at hih
            simpa [rewrite, rewritten, hf] using hih
        | some w =>
            have hih := ih (visited ++ [(k, w)]) (hnext w)
            rw [List.append_assoc, List.append_assoc] at hih
            have hwritten : insert k w (visited ++ (k, v) :: ms) = visited ++ (k, w) :: ms := by
              rw [insert_append hk, insert, if_pos rfl]
            simpa [rewrite, rewritten, hf, extend, hwritten] using hih
  exact hfrom [] h

theorem mem_keys_of_mem_rewritten {f : String → α → Option α} {p : String × α}
    (h : p ∈ rewritten f members) : p.1 ∈ keys members := by
  obtain ⟨m, hm, hp⟩ := List.mem_filterMap.1 h
  obtain ⟨w, -, rfl⟩ := Option.map_eq_some_iff.1 hp
  show m.1 ∈ keys members
  exact List.mem_map_of_mem hm

namespace Operation

theorem apply_tryInsert : (tryInsert key value).apply members =
    if contains key members then .error (.duplicateMember key)
    else .ok (none, Members.insert key value members) := by
  rw [apply, Members.tryInsert]
  split_ifs <;> rfl

theorem apply_assign : (assign key value).apply members =
    if contains key members then .ok (none, Members.insert key value members)
    else .error (.noMember key) := by
  rw [apply, Members.assign]
  split_ifs <;> rfl

theorem apply_remove : (remove key).apply members =
    if contains key members then .ok (members.lookup key, members.eraseP fun m => m.1 == key)
    else .error (.noMember key) := by
  rw [apply, Members.remove, contains]
  cases members.lookup key <;> rfl

variable {op : Operation α} {old : Option α} {f : AccessFault}

theorem after_of_ok (h : op.apply members = .ok (old, new)) : op.after members = new := by
  rw [after, h]

theorem after_of_error (h : op.apply members = .error f) : op.after members = members := by
  rw [after, h]

theorem entries_of_ok (h : op.apply members = .ok (old, new)) :
    op.entries members = op.deeds members := by
  rw [entries, h]

theorem entries_of_error (h : op.apply members = .error f) : op.entries members = [] := by
  rw [entries, h]

end Operation

/-- **One operation**: members that follow a ledger follow it with what the operation enters. -/
theorem Follows.after (h : Follows members entries) (op : Operation α) :
    Follows (op.after members) (entries ++ op.entries members) := by
  cases happly : op.apply members with
  | error f =>
      rw [Operation.after_of_error happly, Operation.entries_of_error happly, List.append_nil]
      exact h
  | ok outcome =>
      obtain ⟨old, new⟩ := outcome
      rw [Operation.after_of_ok happly, Operation.entries_of_ok happly]
      cases op with
      | collect pairs =>
          obtain ⟨-, rfl⟩ := Prod.mk.inj (Except.ok.inj happly)
          rw [Operation.deeds, List.append_cons]
          exact (h.entry (e := .clear) nofun).extend_insert pairs
      | insert key value =>
          obtain ⟨-, rfl⟩ := Prod.mk.inj (Except.ok.inj happly)
          exact h.entry (e := .insert key value) nofun
      | tryInsert key value =>
          rw [Operation.apply_tryInsert] at happly
          split_ifs at happly
          obtain ⟨-, rfl⟩ := Prod.mk.inj (Except.ok.inj happly)
          exact h.entry (e := .insert key value) nofun
      | remove key =>
          rw [Operation.apply_remove] at happly
          split_ifs at happly
          obtain ⟨-, rfl⟩ := Prod.mk.inj (Except.ok.inj happly)
          exact h.entry (e := .remove key) nofun
      | assign key value =>
          rw [Operation.apply_assign] at happly
          split_ifs at happly with hkey
          obtain ⟨-, rfl⟩ := Prod.mk.inj (Except.ok.inj happly)
          refine h.entry (e := .write key value) fun k v hk => ?_
          obtain ⟨rfl, -⟩ := Entry.write.inj hk
          exact contains_iff.1 hkey
      | extend pairs =>
          obtain ⟨-, rfl⟩ := Prod.mk.inj (Except.ok.inj happly)
          exact h.extend_insert pairs
      | rewrite f =>
          obtain ⟨-, rfl⟩ := Prod.mk.inj (Except.ok.inj happly)
          rw [rewrite_eq_extend f h.nodup]
          exact h.extend_write fun p hp => mem_keys_of_mem_rewritten hp
      | clear =>
          obtain ⟨-, rfl⟩ := Prod.mk.inj (Except.ok.inj happly)
          exact h.entry (e := .clear) nofun

/-! ### A run -/

/-- **The members of a run follow its ledger.** -/
theorem Follows.run (h : Follows members entries) (ops : List (Operation α)) :
    Follows (run members ops) (entries ++ ledger members ops) := by
  induction ops generalizing members entries with
  | nil =>
      rw [ledger, List.append_nil]
      exact h
  | cons op ops ih =>
      rw [ledger, ← List.append_assoc]
      exact ih (h.after op)

/-! ### Observers and answers -/

/-- The **observers** of an object agree with the list of its members: each key stands there once
with its value, and is found with this value and no other. -/
structure Coherent (members : List (String × α)) : Prop where
  nodup : (keys members).Nodup
  zip : (keys members).zip (values members) = members
  length_keys : (keys members).length = members.length
  length_values : (values members).length = members.length
  contains : ∀ key, contains key members = true ↔ key ∈ keys members
  get_ok : ∀ key value, get key members = .ok value ↔ (key, value) ∈ members
  get_error : ∀ key f, get key members = .error f ↔ key ∉ keys members ∧ f = .noMember key

theorem get_eq_error_iff {f : AccessFault} :
    get key members = .error f ↔ key ∉ keys members ∧ f = .noMember key := by
  have hkey : (members.lookup key).isSome = true ↔ key ∈ keys members := contains_iff
  rw [← hkey, get]
  cases members.lookup key with
  | none => simp [eq_comm]
  | some v => simp

theorem get_eq_ok_iff : get key members = .ok value ↔ members.lookup key = some value := by
  rw [get]
  cases members.lookup key <;> simp

/-- Members with distinct keys are coherent. -/
theorem coherent_of_nodup (h : (keys members).Nodup) : Coherent members where
  nodup := h
  zip := (List.zip_of_prod rfl rfl).symm
  length_keys := List.length_map _
  length_values := List.length_map _
  contains _ := contains_iff
  get_ok _ _ := get_eq_ok_iff.trans (lookup_eq_some_iff h)
  get_error _ _ := get_eq_error_iff

/-- By a ledger an operation is **refused** with a fault: a new member is not written if the key is
present, and none is taken out or overwritten if it is absent. -/
def Operation.Refused (entries : List (Entry α)) (f : AccessFault) : Operation α → Prop
  | tryInsert key _ =>
    Present entries key ∧ f = .duplicateMember key ∧ f.toError.code = .duplicateKey
  | remove key => ¬ Present entries key ∧ f = .noMember key ∧ f.toError.code = .itemNotFound
  | assign key _ => ¬ Present entries key ∧ f = .noMember key ∧ f.toError.code = .itemNotFound
  | _ => False

theorem code_duplicateMember (key : String) :
    (AccessFault.duplicateMember key).toError.code = .duplicateKey := rfl

theorem code_noMember (key : String) :
    (AccessFault.noMember key).toError.code = .itemNotFound := rfl

/-- A fault settles its code. -/
theorem and_code_iff {f g : AccessFault} {code : ErrorCode} (h : g.toError.code = code) :
    f = g ∧ f.toError.code = code ↔ f = g :=
  and_iff_left_of_imp fun hf => hf ▸ h

/-- By a ledger an operation **displaces** a value: it writes over it or takes it out, and answers
with it. -/
def Operation.Displaces (entries : List (Entry α)) (value : α) : Operation α → Prop
  | insert key _ => HasValue entries key value
  | remove key => HasValue entries key value
  | _ => False

/-- An operation **responds** to members as the ledger says: it fails if it is refused, and then
nothing changes and nothing is entered, and otherwise it answers with what it displaces. -/
structure Operation.Responds (members : List (String × α)) (entries : List (Entry α))
    (op : Operation α) : Prop where
  error : ∀ f, op.apply members = .error f ↔ op.Refused entries f
  unchanged : ∀ f, op.apply members = .error f →
    op.after members = members ∧ op.entries members = []
  answer : ∀ old new, op.apply members = .ok (old, new) →
    ∀ value, old = some value ↔ op.Displaces entries value

/-- Operations respond to members that follow a ledger. -/
theorem Follows.responds (h : Follows members entries) (op : Operation α) :
    op.Responds members entries := by
  have hcontains : ∀ key, contains key members = true ↔ Present entries key :=
    fun key => contains_iff.trans (h.present key)
  refine ⟨fun f => ?_, fun f hf =>
    ⟨Operation.after_of_error hf, Operation.entries_of_error hf⟩, fun old new hok value => ?_⟩
  · cases op with
    | tryInsert key value =>
        rw [Operation.apply_tryInsert, Operation.Refused, ← hcontains,
          and_code_iff (code_duplicateMember key)]
        split_ifs with hkey <;> simp [hkey, eq_comm]
    | remove key =>
        rw [Operation.apply_remove, Operation.Refused, ← hcontains,
          and_code_iff (code_noMember key)]
        split_ifs with hkey <;> simp [hkey, eq_comm]
    | assign key value =>
        rw [Operation.apply_assign, Operation.Refused, ← hcontains,
          and_code_iff (code_noMember key)]
        split_ifs with hkey <;> simp [hkey, eq_comm]
    | collect pairs | insert key value | extend pairs | rewrite f | clear =>
        exact iff_of_false nofun id
  · cases op with
    | insert key value =>
        obtain ⟨rfl, -⟩ := Prod.mk.inj (Except.ok.inj hok)
        exact h.value _ _
    | remove key =>
        rw [Operation.apply_remove] at hok
        split_ifs at hok
        obtain ⟨rfl, -⟩ := Prod.mk.inj (Except.ok.inj hok)
        exact h.value _ _
    | tryInsert key value =>
        rw [Operation.apply_tryInsert] at hok
        split_ifs at hok
        obtain ⟨rfl, -⟩ := Prod.mk.inj (Except.ok.inj hok)
        exact iff_of_false nofun id
    | assign key value =>
        rw [Operation.apply_assign] at hok
        split_ifs at hok
        obtain ⟨rfl, -⟩ := Prod.mk.inj (Except.ok.inj hok)
        exact iff_of_false nofun id
    | collect pairs | extend pairs | rewrite f | clear =>
        obtain ⟨rfl, -⟩ := Prod.mk.inj (Except.ok.inj hok)
        exact iff_of_false nofun id

/-- **An object follows its history.** After any operations on an empty object, its keys, their
order and their values are those that the ledger tells, all observers agree on them, and whatever
operation comes next fails and answers as the ledger says. -/
theorem run_follows_ledger (ops : List (Operation α)) :
    Follows (run [] ops) (ledger [] ops) ∧ Coherent (run [] ops) ∧
      ∀ op : Operation α, op.Responds (run [] ops) (ledger [] ops) := by
  have h : Follows (run [] ops) (ledger [] ops) := follows_nil.run ops
  exact ⟨h, coherent_of_nodup h.nodup, h.responds⟩

/-- Overwriting keeps the place, and to remove and insert again moves to the end. -/
example : run [] [.collect [("a", 1), ("b", 2), ("c", 3)], .insert "a" 4, .remove "b",
    .tryInsert "c" 5, .tryInsert "b" 6] = [("a", 4), ("c", 3), ("b", 6)] := by
  decide

end StrictJson.Members
