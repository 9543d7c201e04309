import Mathlib.Data.List.Basic
import StrictJson.Files.Basic

/-!
# Writing One File

A write changes what is at one place and nothing anywhere else. Afterwards the same path reads what
was written: on the way to the place there are directories only, the place itself has been none, and
so the write has not touched the way.

## Main definitions

* `Files.IsUpdate`: one file holds other bytes, and nothing else has changed.

## Main results

* `Files.lookup?_store`: what is at a place when bytes have been stored.
* `Files.isUpdate_of_write`: a write changes one file.
-/

namespace StrictJson.Files

variable {files files' : Files} {path : String} {place start p q : Place} {names : List String}
  {content : List UInt8}

/-- The files are **updated** at a path: the file that the path leads to holds the content, all
other places have what they had, and the path is read as the content. -/
structure IsUpdate (files : Files) (path : String) (content : List UInt8) (files' : Files) :
    Prop where
  exists_place : ∃ place, files.locate path = .ok ⟨place, false⟩ ∧
    files'.lookup? place = some (.file content) ∧
    ∀ other, other ≠ place → files'.lookup? other = files.lookup? other
  here : files'.here = files.here
  read : files'.read path = .ok content

theorem lookup_filter_ne (entries : List (Place × Entry)) (h : q ≠ p) :
    (entries.filter fun entry => entry.1 ≠ p).lookup q = entries.lookup q := by
  induction entries with
  | nil => rfl
  | cons entry entries ih =>
      obtain ⟨p', entry⟩ := entry
      by_cases hp : p' = p
      · have hq : (q == p') = false := beq_eq_false_iff_ne.2 fun hq => h (hq.trans hp)
        rw [List.filter_cons_of_neg (by simpa using hp), ih, List.lookup_cons, hq]
      · rw [List.filter_cons_of_pos (by simpa using hp), List.lookup_cons, List.lookup_cons, ih]

/-- **What is at a place** when bytes have been stored at one that is not the root. -/
theorem lookup?_store (h : p ≠ []) (q : Place) :
    (files.store p content).lookup? q =
      if q = p then some (.file content) else files.lookup? q := by
  by_cases hq : q = p
  · subst hq
    rw [if_pos rfl, lookup?, if_neg h, store]
    simp
  · have hbeq : (q == p) = false := beq_eq_false_iff_ne.2 hq
    rw [if_neg hq, lookup?, lookup?, store]
    simp only [List.lookup_cons, hbeq, lookup_filter_ne _ hq]

/-- A way over directories is not changed by what is stored where there was none. -/
theorem follow_store (hp : files.lookup? p ≠ some .directory)
    (h : files.follow start names = .ok place) :
    (files.store p content).follow start names = .ok place := by
  have hroot : p ≠ [] := by
    rintro rfl
    exact hp rfl
  induction names generalizing start with
  | nil => exact h
  | cons name names ih =>
      rw [follow] at h ⊢
      cases hstart : files.lookup? start with
      | none => simp [hstart] at h
      | some entry =>
          cases entry with
          | file bytes => simp [hstart] at h
          | directory =>
              have hne : start ≠ p := by
                rintro rfl
                exact hp hstart
              rw [lookup?_store hroot, if_neg hne]
              simp only [hstart] at h ⊢
              split_ifs at h ⊢ with hdot hup
              · exact ih h
              · exact ih h
              · exact ih h

/-- A path leads where it led before something was stored where there was no directory. -/
theorem locate_store {location : Location} (hp : files.lookup? p ≠ some .directory)
    (h : files.locate path = .ok location) :
    (files.store p content).locate path = .ok location := by
  simp only [locate] at h ⊢
  have hstart : (files.store p content).start path.toList = files.start path.toList := rfl
  rw [hstart]
  split_ifs at h ⊢ with hempty
  split at h
  · next place hfollow =>
    rw [follow_store hp hfollow]
    exact h
  · simp at h

/-- **A write changes one file.** -/
theorem isUpdate_of_write (h : files.write path content = .ok files') :
    IsUpdate files path content files' := by
  rw [write] at h
  split at h
  · simp at h
  · next location hlocate =>
    obtain ⟨place, slash⟩ := location
    split_ifs at h with hrefused
    obtain rfl := Except.ok.inj h
    obtain ⟨hslash, hentry⟩ := not_or.1 hrefused
    obtain rfl : slash = false := Bool.eq_false_iff.2 hslash
    have hroot : place ≠ [] := by
      rintro rfl
      exact hentry rfl
    have hlocate' : (files.store place content).locate path = .ok ⟨place, false⟩ :=
      locate_store hentry hlocate
    refine ⟨⟨place, hlocate, ?_, fun other hother => ?_⟩, rfl, ?_⟩
    · rw [lookup?_store hroot, if_pos rfl]
    · rw [lookup?_store hroot, if_neg hother]
    · rw [read, hlocate']
      simp only [lookup?_store hroot, if_true, Bool.false_eq_true, if_false]

end StrictJson.Files
