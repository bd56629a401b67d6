import Mathlib

/-!
# Counted loops

A `for` loop with an unsigned counter, a strict upper bound and a fixed
stride is a state transformer.  This module defines it once, as the recursion
that the machine performs, and supplies the rules by which every such loop of
a development is discharged:

* `forLoop_rule` is the invariant rule: what holds at the first index and is
  preserved by the body holds at some index past the bound;
* `forLoop_counted` removes a companion counter that is incremented with the
  index, replacing it by the quotient of the index by the stride;
* `forLoop_eq_foldl` turns the loop into a fold over the iteration numbers;
* `forLoop_record` takes a loop that keeps a record apart into the loop and its record.

Nothing here refers to a particular program.
-/

namespace Foundation

universe u

variable {σ : Type u}

/-- `for (i = start; i < stop; i += step) state = body i state`.  The body may
use the comparison that admitted its iteration. -/
def forLoop (stop step : Nat) (hstep : 0 < step)
    (body : (i : Nat) → i < stop → σ → σ) (i : Nat) (state : σ) : σ :=
  if h : i < stop then
    forLoop stop step hstep body (i + step) (body i h state)
  else
    state
termination_by stop - i

variable {stop step : Nat} (hstep : 0 < step)
  (body : (i : Nat) → i < stop → σ → σ)

theorem forLoop_of_lt {i : Nat} (h : i < stop) (state : σ) :
    forLoop stop step hstep body i state =
      forLoop stop step hstep body (i + step) (body i h state) := by
  rw [forLoop, dif_pos h]

theorem forLoop_of_le {i : Nat} (h : stop ≤ i) (state : σ) :
    forLoop stop step hstep body i state = state := by
  rw [forLoop, dif_neg (Nat.not_lt.mpr h)]

/-- The invariant rule.  The index at which the loop leaves is the first one
past the bound, so it exceeds the bound by less than one stride unless the
loop was never entered. -/
theorem forLoop_rule (motive : Nat → σ → Prop)
    (hpres : ∀ (i : Nat) (hi : i < stop) (state : σ),
      motive i state → motive (i + step) (body i hi state))
    (start : Nat) (state : σ) (hinit : motive start state) :
    ∃ exit, stop ≤ exit ∧ (exit = start ∨ exit < stop + step) ∧
      step ∣ exit - start ∧ start ≤ exit ∧
      motive exit (forLoop stop step hstep body start state) := by
  induction start, state using forLoop.induct stop step hstep body with
  | case1 start state h ih =>
      obtain ⟨exit, hstop, hnear, hdvd, hle, hexit⟩ := ih (hpres start h state hinit)
      refine ⟨exit, hstop, Or.inr ?_, ?_, by omega, ?_⟩
      · rcases hnear with hnear | hnear <;> omega
      · have hsplit : exit - start = (exit - (start + step)) + step := by omega
        rw [hsplit]
        exact (Nat.dvd_add_right hdvd).mpr (Nat.dvd_refl step)
      · rw [forLoop_of_lt hstep body h]
        exact hexit
  | case2 start state h =>
      refine ⟨start, Nat.not_lt.mp h, Or.inl rfl, by simp, Nat.le_refl _, ?_⟩
      rw [forLoop_of_le hstep body (Nat.not_lt.mp h)]
      exact hinit

/-- Two loops whose bodies are related step by step leave related states. -/
theorem forLoop_rel {τ : Type u} (other : (i : Nat) → i < stop → τ → τ)
    (rel : Nat → σ → τ → Prop)
    (hpres : ∀ (i : Nat) (hi : i < stop) (s : σ) (t : τ),
      rel i s t → rel (i + step) (body i hi s) (other i hi t))
    (start : Nat) (s : σ) (t : τ) (hinit : rel start s t) :
    ∃ exit, stop ≤ exit ∧
      rel exit (forLoop stop step hstep body start s)
        (forLoop stop step hstep other start t) := by
  induction start, s using forLoop.induct stop step hstep body generalizing t with
  | case1 start s h ih =>
      obtain ⟨exit, hstop, hexit⟩ := ih (other start h t) (hpres start h s t hinit)
      refine ⟨exit, hstop, ?_⟩
      rw [forLoop_of_lt hstep body h, forLoop_of_lt hstep other h]
      exact hexit
  | case2 start s h =>
      refine ⟨start, Nat.not_lt.mp h, ?_⟩
      rw [forLoop_of_le hstep body (Nat.not_lt.mp h),
        forLoop_of_le hstep other (Nat.not_lt.mp h)]
      exact hinit

/-- A counter that starts at zero and is incremented with the index equals the
quotient of the index by the stride, so the loop can be read without it. -/
theorem forLoop_counted
    (work : (i : Nat) → i < stop → Nat → σ → σ) (state : σ) :
    (forLoop stop step hstep
      (fun i hi (s : Nat × σ) => (s.1 + 1, work i hi s.1 s.2)) 0 (0, state)).2 =
      forLoop stop step hstep
        (fun i hi s => work i hi (i / step) s) 0 state := by
  obtain ⟨_, _, hrel⟩ := forLoop_rel hstep
    (fun i hi (s : Nat × σ) => (s.1 + 1, work i hi s.1 s.2))
    (fun i hi s => work i hi (i / step) s)
    (fun i (s : Nat × σ) (t : σ) => s.1 = i / step ∧ s.2 = t)
    (by
      rintro i hi ⟨c, s⟩ t ⟨hc, hs⟩
      simp only at hc hs
      subst hc hs
      exact ⟨(Nat.add_div_right i hstep).symm, rfl⟩)
    0 (0, state) state ⟨by simp, rfl⟩
  exact hrel.2

/-- The number of iterations of a loop from zero is the ceiling of the bound
by the stride; the loop is the fold over its iteration numbers. -/
theorem forLoop_eq_foldl (work : Nat → σ → σ) (state : σ) :
    forLoop stop step hstep (fun i _ s => work i s) 0 state =
      (List.range (stop ⌈/⌉ step)).foldl (fun s k => work (k * step) s) state := by
  obtain ⟨exit, hstop, hnear, ⟨k, hk⟩, hle, hexit⟩ :=
    forLoop_rule hstep (fun i (_ : i < stop) s => work i s)
      (fun i s => step ∣ i ∧
        s = (List.range (i / step)).foldl (fun s k => work (k * step) s) state)
      (by
        rintro i hi s ⟨⟨k, rfl⟩, rfl⟩
        refine ⟨⟨k + 1, by ring⟩, ?_⟩
        rw [Nat.add_div_right _ hstep, Nat.mul_div_cancel_left k hstep,
          List.range_succ, List.foldl_append]
        simp [Nat.mul_comm])
      0 state ⟨by simp, by simp⟩
  have hexitEq : exit = step * k := by omega
  have hcount : exit / step = stop ⌈/⌉ step := by
    rw [Nat.ceilDiv_eq_add_pred_div, hexitEq, Nat.mul_div_cancel_left k hstep]
    have hlow : stop ≤ step * k := hexitEq ▸ hstop
    have hhigh : step * k < stop + step ∨ k = 0 := by
      rcases hnear with h | h
      · right
        have : step * k = 0 := by omega
        rcases Nat.mul_eq_zero.mp this with h0 | h0
        · omega
        · exact h0
      · left
        omega
    symm
    rw [Nat.div_eq_iff hstep]
    rcases hhigh with h | h
    · constructor
      · rw [Nat.mul_comm]; omega
      · rw [Nat.mul_comm]; omega
    · subst h
      constructor <;> omega
  rw [← hcount]
  exact hexit.2

/-- A loop that also records something in each iteration, which depends on the index only. -/
theorem forLoop_record {α : Type*} (work : Nat → σ → σ) (record : Nat → List α) (state : σ) :
    forLoop stop step hstep
      (fun i _ (s : σ × List α) => (work i s.1, s.2 ++ record i)) 0 (state, []) =
      (forLoop stop step hstep (fun i _ s => work i s) 0 state,
        (List.range (stop ⌈/⌉ step)).flatMap fun k => record (k * step)) := by
  have hfold : ∀ n, (List.range n).foldl
      (fun (s : σ × List α) k => (work (k * step) s.1, s.2 ++ record (k * step))) (state, []) =
      ((List.range n).foldl (fun s k => work (k * step) s) state,
        (List.range n).flatMap fun k => record (k * step)) := by
    intro n
    induction n with
    | zero => rfl
    | succ n ih =>
        rw [List.range_succ, List.foldl_append, List.foldl_append, List.flatMap_append, ih,
          List.flatMap_singleton]
        rfl
  have hloop := @forLoop_eq_foldl _ stop _ hstep
    (fun i (s : σ × List α) => (work i s.1, s.2 ++ record i)) (state, [])
  rw [hloop, hfold, forLoop_eq_foldl]

end Foundation
