import Mathlib

/-!
# Enumeration by a cursor

A cursor has a step that either moves to an item or reports the end, and may
fail, and an observation of the current item.  `Yields` says that a cursor's steps
enumerate a list and then report the end, with no failure on the way.  The rule
derives it from a relation between cursors and the items still to come.
`stepAgain` is the outcome of a step that has others before it.  `YieldsAlong` is the
same enumeration when every step is another function.
-/

namespace Foundation

universe u v

variable {σ : Type u} {α : Type v}

/-- Stepping from a cursor moves to exactly the items of a list, in order, and
then reports the end.  No step up to that one fails, and no observation does. -/
def Yields (next : σ → Option (Bool × σ)) (item : σ → Option α) : σ → List α → Prop
  | s, [] => ∃ s', next s = some (false, s')
  | s, x :: xs => ∃ s', next s = some (true, s') ∧ item s' = some x ∧ Yields next item s' xs

variable {next : σ → Option (Bool × σ)} {item : σ → Option α}

/-- The simulation rule: the items still to come are a list that loses its head
with every step. -/
theorem yields_of_rel (rel : σ → List α → Prop)
    (hend : ∀ s, rel s [] → ∃ s', next s = some (false, s'))
    (hmove : ∀ s x xs, rel s (x :: xs) →
      ∃ s', next s = some (true, s') ∧ item s' = some x ∧ rel s' xs)
    {s : σ} {xs : List α} (hrel : rel s xs) : Yields next item s xs := by
  induction xs generalizing s with
  | nil => exact hend s hrel
  | cons x xs ih =>
      obtain ⟨s', hnext, hitem, hrel'⟩ := hmove s x xs hrel
      exact ⟨s', hnext, hitem, ih hrel'⟩

/-- The outcome of one more step after the given number of steps. -/
def stepAgain (next : σ → Option (Bool × σ)) : Nat → σ → Option (Bool × σ)
  | 0, s => next s
  | steps + 1, s => (next s).bind fun out => stepAgain next steps out.2

/-- The last step starts from some cursor. -/
theorem exists_of_stepAgain {steps : Nat} {s s' : σ} {moved : Bool}
    (h : stepAgain next steps s = some (moved, s')) : ∃ mid, next mid = some (moved, s') := by
  induction steps generalizing s with
  | zero => exact ⟨s, h⟩
  | succ steps ih =>
      obtain ⟨_, _, hrest⟩ := Option.bind_eq_some_iff.mp h
      exact ih hrest

/-- A cursor that yields a list reports the end after as many steps. -/
theorem Yields.exists_stepAgain {s : σ} {xs : List α} (h : Yields next item s xs) :
    ∃ s', stepAgain next xs.length s = some (false, s') := by
  induction xs generalizing s with
  | nil => exact h
  | cons x xs ih =>
      obtain ⟨mid, hnext, _, hrest⟩ := h
      obtain ⟨s', hlast⟩ := ih hrest
      refine ⟨s', ?_⟩
      rw [List.length_cons, stepAgain, hnext, Option.bind_some]
      exact hlast

/-- The enumeration of a list when step number `k` is `next k`, as it is when what the
cursor goes over changes between the steps. -/
def YieldsAlong (next : Nat → σ → Option (Bool × σ)) (item : σ → Option α) :
    Nat → σ → List α → Prop
  | k, s, [] => ∃ s', next k s = some (false, s')
  | k, s, x :: xs => ∃ s', next k s = some (true, s') ∧ item s' = some x ∧
      YieldsAlong next item (k + 1) s' xs

end Foundation
