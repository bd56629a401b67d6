import Mathlib
import ByteSlice.Foundation.WorkSharing

/-!
# Programs of work-sharing loops

A master thread runs one work-sharing loop after another on an array.  For each it forks a
team, of a size that may be another one every time; at the end of a loop there is a barrier,
where it waits until the team has finished.  The body of a loop may depend on what the array
holds when the loop begins.

`Step` is one step of anybody, `none` being the outcome of an access to something that is not
there.  `Leads` says what the loops compute one by one.  From it follows what every run of the
whole program does: it does not fail, it can go on until the end of the program, it comes to
that end, and there the array is the one that the loops lead to.
-/

namespace Foundation

universe u v w x

variable {Op : Type x} {α : Type u} {τ : Type v} {ρ : Type w}

/-- Where a program is: between two loops, or inside one. -/
inductive ForkJoin (Op : Type x) (α : Type u) (τ : Type v) (ρ : Type w)
  | between (cells : List α) (rest : List Op)
  | inside (body : StepwiseBody α τ ρ) (m : Nat) (team : Team m α τ ρ) (rest : List Op)

namespace ForkJoin

variable [AddCommMonoid ρ] (body : Op → List α → StepwiseBody α τ ρ)

/-- What may happen next. -/
inductive Step : ForkJoin Op α τ ρ → Option (ForkJoin Op α τ ρ) → Prop
  | fork {cells : List α} {op : Op} {rest : List Op} {m : Nat} (hm : 0 < m) :
      Step (.between cells (op :: rest))
        (some (.inside (body op cells) m (Team.start m cells) rest))
  | work {b : StepwiseBody α τ ρ} {m : Nat} {team : Team m α τ ρ} {rest : List Op}
      {e : Event m} (henabled : team.Enabled e) :
      Step (.inside b m team rest) ((team.act b e).map fun team => .inside b m team rest)
  | join {b : StepwiseBody α τ ρ} {m : Nat} {team : Team m α τ ρ} {rest : List Op}
      (hdone : team.Finished) : Step (.inside b m team rest) (some (.between team.cells rest))

/-- A run of any length. -/
def Reaches : ForkJoin Op α τ ρ → ForkJoin Op α τ ρ → Prop :=
  Relation.ReflTransGen fun s s' => Step body s (some s')

/-- What every run of a program does. -/
structure Computes (cells : List α) (ops : List Op) (out : List α) : Prop where
  no_failure : ∀ s, Reaches body (.between cells ops) s → ¬ Step body s none
  progress : ∀ s, Reaches body (.between cells ops) s →
    (∃ cells', s = .between cells' []) ∨ ∃ s', Step body s (some s')
  terminates : Acc (fun s' s => Step body s (some s')) (.between cells ops)
  outcome : ∀ out', Reaches body (.between cells ops) (.between out' []) → out' = out

/-- The loops, each on what the one before has computed, lead to `out`. -/
def Leads : List α → List Op → List α → Prop
  | cells, [], out => cells = out
  | cells, op :: rest, out => ∃ cells',
      (∀ m, 0 < m → ∃ sum, Team.Computes (body op cells) m cells cells' sum) ∧
      Leads cells' rest out

/-- The invariant: the loops that remain lead to `out`, after the one that is running. -/
def Valid (out : List α) : ForkJoin Op α τ ρ → Prop
  | .between cells rest => Leads body cells rest out
  | .inside b m team rest => ∃ cells cells' sum events, Team.Computes b m cells cells' sum ∧
      Team.Run b (Team.start m cells) events team ∧ Leads body cells' rest out

variable {body} {out : List α} {s s' : ForkJoin Op α τ ρ}

/-- The step lemma. -/
theorem Valid.step (h : Valid body out s) (hstep : Step body s (some s')) :
    Valid body out s' := by
  generalize hnext : some s' = next at hstep
  cases hstep with
  | fork hm =>
      obtain rfl := Option.some.inj hnext
      obtain ⟨cells', hloop, hrest⟩ := h
      obtain ⟨sum, hcomputes⟩ := hloop _ hm
      exact ⟨_, cells', sum, [], hcomputes, .nil, hrest⟩
  | work henabled =>
      obtain ⟨team', hact, rfl⟩ := Option.map_eq_some_iff.mp hnext.symm
      obtain ⟨cells, cells', sum, events, hcomputes, hrun, hrest⟩ := h
      exact ⟨cells, cells', sum, _, hcomputes, .snoc hrun henabled hact, hrest⟩
  | join hdone =>
      obtain rfl := Option.some.inj hnext
      obtain ⟨cells, cells', sum, events, hcomputes, hrun, hrest⟩ := h
      show Leads body _ _ out
      rw [(hcomputes.outcome events _ hrun hdone).1]
      exact hrest

theorem Valid.reaches (h : Valid body out s) (hrun : Reaches body s s') : Valid body out s' := by
  induction hrun with
  | refl => exact h
  | tail _ hstep ih => exact ih.step hstep

theorem Valid.not_fails (h : Valid body out s) : ¬ Step body s none := by
  intro hstep
  generalize hnext : none = next at hstep
  cases hstep with
  | fork hm => cases hnext
  | work henabled =>
      obtain ⟨cells, cells', sum, events, hcomputes, hrun, _⟩ := h
      obtain ⟨team', hact⟩ := hcomputes.exists_act events _ hrun _ henabled
      rw [hact] at hnext
      cases hnext
  | join hdone => cases hnext

/-- Whoever waits at the barrier waits for a team that can go on. -/
theorem Valid.progress (h : Valid body out s) :
    (∃ cells', s = .between cells' []) ∨ ∃ s', Step body s (some s') := by
  cases s with
  | between cells rest =>
      cases rest with
      | nil => exact Or.inl ⟨cells, rfl⟩
      | cons op rest => exact Or.inr ⟨_, .fork Nat.one_pos⟩
  | inside b m team rest =>
      obtain ⟨cells, cells', sum, events, hcomputes, hrun, _⟩ := h
      by_cases hdone : team.Finished
      · exact Or.inr ⟨_, .join hdone⟩
      · rw [hcomputes.finished_iff events team hrun, not_forall] at hdone
        obtain ⟨e, he⟩ := hdone
        have henabled := not_not.mp he
        obtain ⟨team', hact⟩ := hcomputes.exists_act events team hrun e henabled
        have hstep : Step body (.inside b m team rest)
            ((team.act b e).map fun team => .inside b m team rest) := .work henabled
        rw [hact] at hstep
        exact Or.inr ⟨_, hstep⟩

/-- A loop ends, since its runs are bounded; what is left of the bound decreases. -/
theorem acc_inside {b : StepwiseBody α τ ρ} {m : Nat} {cells cells' : List α} {sum : ρ}
    {rest : List Op} (hcomputes : Team.Computes b m cells cells' sum)
    (hrest : Acc (fun s' s => Step body s (some s')) (.between cells' rest))
    {events : List (Event m)} {team : Team m α τ ρ}
    (hrun : Team.Run b (Team.start m cells) events team) :
    Acc (fun s' s => Step body s (some s')) (.inside b m team rest) := by
  obtain ⟨bound, hbound⟩ := hcomputes.bounded
  induction hleft : bound - events.length using Nat.strong_induction_on generalizing events team with
  | _ left ih =>
      refine Acc.intro _ fun s' hstep => ?_
      generalize hnext : some s' = next at hstep
      cases hstep with
      | work henabled =>
          obtain ⟨team', hact, rfl⟩ := Option.map_eq_some_iff.mp hnext.symm
          have hrun' := Team.Run.snoc hrun henabled hact
          have hlen := hbound _ _ hrun'
          rw [List.length_append, List.length_singleton] at hlen
          refine ih _ ?_ hrun' rfl
          rw [List.length_append, List.length_singleton]
          omega
      | join hdone =>
          obtain rfl := Option.some.inj hnext
          rw [(hcomputes.outcome events _ hrun hdone).1]
          exact hrest

theorem Leads.acc {cells : List α} {rest : List Op} (h : Leads body cells rest out) :
    Acc (fun s' s => Step body s (some s')) (.between cells rest) := by
  induction rest generalizing cells with
  | nil =>
      refine Acc.intro _ fun s' hstep => ?_
      generalize hnext : some s' = next at hstep
      cases hstep
  | cons op rest ih =>
      obtain ⟨cells', hloop, hrest⟩ := h
      refine Acc.intro _ fun s' hstep => ?_
      generalize hnext : some s' = next at hstep
      cases hstep with
      | fork hm =>
          obtain rfl := Option.some.inj hnext
          obtain ⟨sum, hcomputes⟩ := hloop _ hm
          exact acc_inside hcomputes (ih hrest) .nil

/-- **Programs of loops.**  When the loops one by one compute what they should, so does every
run of the program. -/
theorem computes_of_leads {cells : List α} {ops : List Op} (h : Leads body cells ops out) :
    Computes body cells ops out where
  no_failure _ hrun := Valid.not_fails (Valid.reaches (s := .between cells ops) h hrun)
  progress _ hrun := Valid.progress (Valid.reaches (s := .between cells ops) h hrun)
  terminates := h.acc
  outcome _ hrun := Valid.reaches (s := .between cells ops) h hrun

end ForkJoin

end Foundation
