import Mathlib.Logic.Relation
import StrictJson.Proofs.Syntax.Move

/-!
# Reached States

The states that the reader gets to from another one, step by step. On the way it takes the bytes
that lie between the two cursors, and it goes the same way whatever else can stand behind them. A
run gets to a state whose step ends it, so what is wanted of a run is an invariant of its steps and
a look at the last one.

## Main definitions

* `Steps`, `Reaches`: a step that goes on, and any number of them.

## Main results

* `exists_reaches`: a run gets to its last step.
* `Reaches.exists_replaces`: what lies behind a state that is reached can be replaced.
* `exists_last_of_run`: a run that fails gets to its last step whatever is read there.
-/

namespace StrictJson.Syntax

variable {o : Options}

/-- The reader goes from a state to the next one in a **step**. -/
def Steps (o : Options) (s next : State) : Prop :=
  step o s = .ok (.more next)

/-- The reader **reaches** a state from another one. -/
def Reaches (o : Options) : State → State → Prop :=
  Relation.ReflTransGen (Steps o)

/-- **A run gets to its last step**, which ends it with the outcome of the run. -/
theorem exists_reaches (o : Options) (s : State) :
    ∃ last, Reaches o s last ∧ step o last = (run o s).map .done := by
  fun_induction run o s with
  | case1 s f hf => exact ⟨s, .refl, hf⟩
  | case2 s v hv => exact ⟨s, .refl, hv⟩
  | case3 s next hnext ih =>
      obtain ⟨last, hreaches, hlast⟩ := ih
      exact ⟨last, hreaches.head hnext, hlast⟩

/-- A step takes white space and the token of a move. -/
theorem Steps.exists_move {s next : State} (h : Steps o s next) :
    ∃ (space : Space) (token : List UInt8) (stops : UInt8 → Bool),
      Move o s.stack s.goal token stops next.stack next.goal ∧ Stops stops next.cursor.rest ∧
      s.cursor.Between (space.text ++ token) next.cursor := by
  obtain ⟨token, stops, hmove, hstops, htoken, hposition⟩ := step_eq_more_iff.1 h
  obtain ⟨space, hspace, hposition', -⟩ := exists_space s.cursor
  exact ⟨space, token, stops, hmove, hstops, .trans ⟨hspace, hposition'⟩ ⟨htoken, hposition⟩⟩

/-- **What lies behind a state that is reached can be replaced**, and the state is reached as
before. -/
theorem Reaches.exists_replaces {s last : State} (h : Reaches o s last) :
    ∃ text, s.cursor.Between text last.cursor ∧
      ∀ more, last.goal.Replaces last.cursor.rest more →
        s.goal.Replaces s.cursor.rest (text ++ more) ∧
        run o ⟨⟨s.cursor.position, text ++ more⟩, s.stack, s.goal⟩ =
          run o ⟨⟨last.cursor.position, more⟩, last.stack, last.goal⟩ := by
  induction h using Relation.ReflTransGen.head_induction_on with
  | refl => exact ⟨[], .refl _, fun more hmore => ⟨hmore, rfl⟩⟩
  | @head s next hnext _ ih =>
      obtain ⟨text, htext, hlast⟩ := ih
      obtain ⟨space, token, stops, hmove, hstops, htoken⟩ := hnext.exists_move
      have hbetween := htoken.trans htext
      refine ⟨space.text ++ token ++ text, hbetween, fun more hmore => ?_⟩
      obtain ⟨hreplaces, hrun⟩ := hlast more hmore
      have hne : space.text ++ token ++ text ≠ [] := by
        simp [hmove.ne_nil]
      refine ⟨hbetween.rest_eq ▸ s.goal.replaces_append hne _ more, ?_⟩
      rw [← hrun, List.append_assoc, List.append_assoc, run_space,
        run_of_more (step_of_move hmove (hmove.stops_of_replaces hstops hreplaces)),
        htoken.position_eq, List.length_append, Nat.add_assoc]

/-- **A run that fails gets to its last step whatever is read there.** The bytes that the last step
is about can be replaced, and the run is then what it is from there on. -/
theorem exists_last_of_run {s : State} {f : Failure} (h : run o s = .error f) :
    ∃ text rest stack goal, s.cursor.rest = text ++ rest ∧
      step o ⟨⟨s.cursor.position + text.length, rest⟩, stack, goal⟩ = .error f ∧
      ∀ more, goal.Replaces rest more → s.goal.Replaces s.cursor.rest (text ++ more) ∧
        run o ⟨⟨s.cursor.position, text ++ more⟩, s.stack, s.goal⟩ =
          run o ⟨⟨s.cursor.position + text.length, more⟩, stack, goal⟩ := by
  obtain ⟨⟨⟨p, rest⟩, stack, goal⟩, hreaches, hlast⟩ := exists_reaches o s
  obtain ⟨text, ⟨hrest, rfl⟩, hreplaces⟩ := hreaches.exists_replaces
  exact ⟨text, rest, stack, goal, hrest, hlast.trans (h ▸ rfl), hreplaces⟩

end StrictJson.Syntax
