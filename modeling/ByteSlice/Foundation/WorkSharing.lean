import Mathlib

/-!
# Work-sharing loops

A team of threads shares the iterations of a loop.  A thread that has none asks for
one of those still pending and then runs its body in small steps; between any two of
them the other threads may run.  Which pending iteration is handed out, and whose turn
it is, is not specified, so every way of dealing out the iterations is covered.  Each
thread keeps a private copy of the reduction variable, and the copies are added up at
the end of the loop.

`StepwiseBody` is a body cut into such steps, `complete` the same body run without
interruption, and `Run` an interleaving.  An iteration accesses the shared array in the
cell of its own index only; from this, and from the fact that no iteration is handed out
twice, `Inv` says that what is left of an iteration does what it would have done alone.
The outcome of every run follows: no step of it fails, it cannot go on for ever, it can
only end with all work done, and then the cells and the sum are those of the
uninterrupted bodies.
-/

namespace Foundation

universe u v w

variable {α : Type u} {τ : Type v} {ρ : Type w}

/-- The body of a loop, cut into steps.  In iteration `i` a step takes the cell `i` of
the shared array and the registers of the thread that runs it; it either goes on with
new registers or ends the iteration with its contribution to the reduction.  It fails
when it accesses something that is not there. -/
structure StepwiseBody (α : Type u) (τ : Type v) (ρ : Type w) where
  start : Nat → τ
  step : Nat → α → τ → Option (α × (τ ⊕ ρ))
  rank : Nat → τ → Nat
  rank_lt : ∀ {i : Nat} {a a' : α} {regs regs' : τ},
    step i a regs = some (a', .inl regs') → rank i regs' < rank i regs

/-- A thread: the iteration it is in, with its registers, and its copy of the reduction
variable. -/
structure Thread (τ : Type v) (ρ : Type w) where
  held : Option (Nat × τ)
  part : ρ

/-- A team of `m` threads at work on an array. -/
structure Team (m : Nat) (α : Type u) (τ : Type v) (ρ : Type w) where
  pending : List Nat
  threads : Fin m → Thread τ ρ
  cells : List α

/-- What may happen next: a thread is handed an iteration, or takes a step of its own. -/
inductive Event (m : Nat)
  | take (t : Fin m) (i : Nat)
  | work (t : Fin m)

/-- What a thread has contributed, together with the value of the iteration it is in. -/
def Thread.due [AddCommMonoid ρ] (value : Nat → ρ) (thread : Thread τ ρ) : ρ :=
  match thread.held with
  | none => thread.part
  | some (i, _) => thread.part + value i

/-- A bound on the steps that a thread has still to take in its iteration. -/
def Thread.toCome (body : StepwiseBody α τ ρ) (thread : Thread τ ρ) : Nat :=
  match thread.held with
  | none => 0
  | some (i, regs) => body.rank i regs + 1

namespace StepwiseBody

variable (body : StepwiseBody α τ ρ)

/-- The rest of an iteration, without interruption. -/
def complete (i : Nat) (a : α) (regs : τ) : Option (α × ρ) :=
  match _h : body.step i a regs with
  | none => none
  | some (a', .inl regs') => complete i a' regs'
  | some (a', .inr value) => some (a', value)
termination_by body.rank i regs
decreasing_by exact body.rank_lt ‹_›

theorem complete_of_inl {i : Nat} {a a' : α} {regs regs' : τ}
    (h : body.step i a regs = some (a', .inl regs')) :
    body.complete i a regs = body.complete i a' regs' := by
  rw [complete]
  split
  · next hnone => rw [hnone] at h; cases h
  · next hstep =>
      rw [hstep] at h
      cases h
      rfl
  · next hstep => rw [hstep] at h; cases h

theorem complete_of_inr {i : Nat} {a a' : α} {regs : τ} {value : ρ}
    (h : body.step i a regs = some (a', .inr value)) :
    body.complete i a regs = some (a', value) := by
  rw [complete]
  split
  · next hnone => rw [hnone] at h; cases h
  · next hstep => rw [hstep] at h; cases h
  · next hstep =>
      rw [hstep] at h
      cases h
      rfl

/-- A body that completes can take its next step, and still completes. -/
theorem exists_step_of_complete {i : Nat} {a : α} {regs : τ} {result : α × ρ}
    (h : body.complete i a regs = some result) :
    (∃ a' regs', body.step i a regs = some (a', .inl regs') ∧
      body.complete i a' regs' = some result) ∨
    body.step i a regs = some (result.1, .inr result.2) := by
  cases hstep : body.step i a regs with
  | none =>
      rw [complete] at h
      split at h
      · cases h
      · next hsome => rw [hstep] at hsome; cases hsome
      · next hsome => rw [hstep] at hsome; cases hsome
  | some next =>
      obtain ⟨a', regs' | value⟩ := next
      · rw [body.complete_of_inl hstep] at h
        exact Or.inl ⟨a', regs', rfl, h⟩
      · rw [body.complete_of_inr hstep] at h
        obtain rfl := Option.some.inj h
        exact Or.inr rfl

end StepwiseBody

namespace Team

variable {m : Nat}

/-- The state in which the loop is entered: every iteration is pending, and the private
copies hold the neutral element. -/
def start [Zero ρ] (m : Nat) (cells : List α) : Team m α τ ρ where
  pending := List.range cells.length
  threads := fun _ => ⟨none, 0⟩
  cells := cells

/-- A team with one thread replaced. -/
def withThread (s : Team m α τ ρ) (t : Fin m) (thread : Thread τ ρ) (pending : List Nat)
    (cells : List α) : Team m α τ ρ where
  pending := pending
  threads := Function.update s.threads t thread
  cells := cells

/-- A thread without an iteration may be handed a pending one; a thread with one may go
on with it. -/
def Enabled (s : Team m α τ ρ) : Event m → Prop
  | .take t i => (s.threads t).held = none ∧ i ∈ s.pending
  | .work t => (s.threads t).held ≠ none

/-- Thread `t` is handed iteration `i`. -/
def handOut (body : StepwiseBody α τ ρ) (t : Fin m) (i : Nat) (s : Team m α τ ρ) :
    Team m α τ ρ :=
  s.withThread t ⟨some (i, body.start i), (s.threads t).part⟩ (s.pending.erase i) s.cells

/-- Thread `t` takes a step in iteration `i`, after which the cell holds `a'`. -/
def goOn (t : Fin m) (i : Nat) (a' : α) (regs' : τ) (s : Team m α τ ρ) : Team m α τ ρ :=
  s.withThread t ⟨some (i, regs'), (s.threads t).part⟩ s.pending (s.cells.set i a')

/-- Thread `t` takes the last step of iteration `i`. -/
def finish [Add ρ] (t : Fin m) (i : Nat) (a' : α) (value : ρ) (s : Team m α τ ρ) :
    Team m α τ ρ :=
  s.withThread t ⟨none, (s.threads t).part + value⟩ s.pending (s.cells.set i a')

/-- The effect of an event. -/
def act [Add ρ] (body : StepwiseBody α τ ρ) (s : Team m α τ ρ) : Event m → Option (Team m α τ ρ)
  | .take t i => some (s.handOut body t i)
  | .work t =>
      match (s.threads t).held with
      | none => none
      | some (i, regs) =>
          (s.cells[i]?).bind fun a =>
            (body.step i a regs).map fun next =>
              match next.2 with
              | .inl regs' => s.goOn t i next.1 regs'
              | .inr value => s.finish t i next.1 value

/-- An interleaving: a list of events, each enabled when it happens. -/
inductive Run [Add ρ] (body : StepwiseBody α τ ρ) :
    Team m α τ ρ → List (Event m) → Team m α τ ρ → Prop
  | nil {s : Team m α τ ρ} : Run body s [] s
  | snoc {s mid s' : Team m α τ ρ} {events : List (Event m)} {e : Event m} :
      Run body s events mid → mid.Enabled e → mid.act body e = some s' →
        Run body s (events ++ [e]) s'

/-- All iterations are done. -/
def Finished (s : Team m α τ ρ) : Prop :=
  s.pending = [] ∧ ∀ t, (s.threads t).held = none

/-- The end of the loop: the private copies are added up. -/
def total [AddCommMonoid ρ] (s : Team m α τ ρ) : ρ := ∑ t, (s.threads t).part

/-- Some thread is in iteration `i`. -/
def Holds (s : Team m α τ ρ) (t : Fin m) (i : Nat) : Prop :=
  ∃ regs, (s.threads t).held = some (i, regs)

/-! ## One event -/

section Act

variable [Add ρ] {body : StepwiseBody α τ ρ} {s s' : Team m α τ ρ}

/-- What an event does, with everything it relied on. -/
theorem act_cases {e : Event m} (hact : s.act body e = some s') :
    (∃ t i, e = .take t i ∧ s' = s.handOut body t i) ∨
    (∃ t i regs a a' regs', e = .work t ∧ (s.threads t).held = some (i, regs) ∧
      s.cells[i]? = some a ∧ body.step i a regs = some (a', .inl regs') ∧
      s' = s.goOn t i a' regs') ∨
    (∃ t i regs a a' value, e = .work t ∧ (s.threads t).held = some (i, regs) ∧
      s.cells[i]? = some a ∧ body.step i a regs = some (a', .inr value) ∧
      s' = s.finish t i a' value) := by
  cases e with
  | take t i => exact Or.inl ⟨t, i, rfl, (Option.some.inj hact).symm⟩
  | work t =>
      rw [act] at hact
      cases hheld : (s.threads t).held with
      | none =>
          rw [hheld] at hact
          cases hact
      | some current =>
          obtain ⟨i, regs⟩ := current
          rw [hheld] at hact
          obtain ⟨a, ha, hact⟩ := Option.bind_eq_some_iff.mp hact
          obtain ⟨⟨a', next⟩, hstep, hs'⟩ := Option.map_eq_some_iff.mp hact
          cases next with
          | inl regs' =>
              exact Or.inr (Or.inl ⟨t, i, regs, a, a', regs', rfl, hheld, ha, hstep, hs'.symm⟩)
          | inr value =>
              exact Or.inr (Or.inr ⟨t, i, regs, a, a', value, rfl, hheld, ha, hstep, hs'.symm⟩)

end Act

section WithThread

variable (s : Team m α τ ρ) (t : Fin m) (thread : Thread τ ρ) (pending : List Nat)
  (cells : List α)

theorem withThread_threads_self : (s.withThread t thread pending cells).threads t = thread :=
  Function.update_self _ _ _

theorem withThread_threads_of_ne {u : Fin m} (hu : u ≠ t) :
    (s.withThread t thread pending cells).threads u = s.threads u :=
  Function.update_of_ne hu _ _

/-- Who holds what, after one thread was replaced. -/
theorem holds_withThread {u : Fin m} {j : Nat} :
    (s.withThread t thread pending cells).Holds u j ↔
      (u = t ∧ ∃ regs, thread.held = some (j, regs)) ∨ (u ≠ t ∧ s.Holds u j) := by
  unfold Holds
  by_cases hu : u = t
  · subst hu
    simp [withThread_threads_self]
  · simp [withThread_threads_of_ne _ _ _ _ _ hu, hu]

/-- A sum over the threads changes by the summand of the thread that changed. -/
theorem exists_sum_withThread {M : Type*} [AddCommMonoid M] (f : Thread τ ρ → M) :
    ∃ rest, ∑ u, f (s.threads u) = f (s.threads t) + rest ∧
      ∑ u, f ((s.withThread t thread pending cells).threads u) = f thread + rest := by
  refine ⟨∑ u ∈ Finset.univ.erase t, f (s.threads u),
    (Finset.add_sum_erase _ _ (Finset.mem_univ t)).symm, ?_⟩
  rw [← Finset.add_sum_erase _ _ (Finset.mem_univ t), withThread_threads_self]
  congr 1
  refine Finset.sum_congr rfl fun u hu => ?_
  rw [withThread_threads_of_ne _ _ _ _ _ (Finset.ne_of_mem_erase hu)]

end WithThread

/-! ## The invariant -/

/-- Iteration `i` alone would turn its cell into that of `cells'` and contribute `value i`.
The pending iterations have not begun, those that a thread is in will end as they would
alone, and the others have. -/
structure Inv [AddCommMonoid ρ] (body : StepwiseBody α τ ρ) (cells cells' : List α)
    (value : Nat → ρ) (s : Team m α τ ρ) : Prop where
  length_cells : s.cells.length = cells.length
  nodup : s.pending.Nodup
  pending_lt : ∀ i ∈ s.pending, i < cells.length
  unique : ∀ t t' i, s.Holds t i → s.Holds t' i → t = t'
  not_pending : ∀ t i, s.Holds t i → i ∉ s.pending
  cell_pending : ∀ i ∈ s.pending, s.cells[i]? = cells[i]?
  cell_held : ∀ t i regs, (s.threads t).held = some (i, regs) →
    ∃ a a', s.cells[i]? = some a ∧ cells'[i]? = some a' ∧
      body.complete i a regs = some (a', value i)
  cell_done : ∀ i, i < cells.length → i ∉ s.pending → (∀ t, ¬ s.Holds t i) →
    s.cells[i]? = cells'[i]?
  sum : (s.pending.map value).sum + ∑ t, (s.threads t).due value =
    ((List.range cells.length).map value).sum

section Invariant

variable [AddCommMonoid ρ] {body : StepwiseBody α τ ρ} {cells cells' : List α}
  {value : Nat → ρ} {s : Team m α τ ρ}

theorem inv_start : Inv body cells cells' value (start m cells : Team m α τ ρ) := by
  refine ⟨rfl, List.nodup_range, fun i hi => List.mem_range.mp hi, ?_, ?_, fun i _ => rfl, ?_, ?_,
    ?_⟩
  · rintro t t' i ⟨regs, hregs⟩ _
    cases hregs
  · rintro t i ⟨regs, hregs⟩
    cases hregs
  · rintro t i regs hregs
    cases hregs
  · intro i hi hnot
    exact absurd (List.mem_range.mpr hi) hnot
  · have hzero : ∀ t, ((start m cells : Team m α τ ρ).threads t).due value = 0 := fun t => rfl
    simp only [hzero, Finset.sum_const_zero, add_zero]
    rfl

/-- Handing out an iteration. -/
theorem Inv.handOut (h : Inv body cells cells' value s)
    (hbody : ∀ i a, cells[i]? = some a → ∃ a', cells'[i]? = some a' ∧
      body.complete i a (body.start i) = some (a', value i))
    {t : Fin m} {i : Nat} (hidle : (s.threads t).held = none) (hi : i ∈ s.pending) :
    Inv body cells cells' value (s.handOut body t i) := by
  have hlt := h.pending_lt i hi
  have hcell : cells[i]? = some cells[i] := List.getElem?_eq_getElem hlt
  -- afterwards `t` holds `i`, and the others what they held
  have hholds : ∀ u j, (s.handOut body t i).Holds u j ↔
      (u = t ∧ j = i) ∨ (u ≠ t ∧ s.Holds u j) := by
    intro u j
    refine (holds_withThread _ _ _ _ _).trans (or_congr_left (and_congr_right fun _ => ?_))
    constructor
    · rintro ⟨regs, hregs⟩
      exact (Prod.mk.inj (Option.some.inj hregs)).1.symm
    · rintro rfl
      exact ⟨_, rfl⟩
  refine ⟨h.length_cells, h.nodup.erase i, fun j hj => h.pending_lt j (List.mem_of_mem_erase hj),
    ?_, ?_, fun j hj => h.cell_pending j (List.mem_of_mem_erase hj), ?_, ?_, ?_⟩
  · intro u u' j hu hu'
    rcases (hholds u j).mp hu with ⟨rfl, rfl⟩ | ⟨_, hold⟩
    · rcases (hholds u' j).mp hu' with ⟨rfl, _⟩ | ⟨_, hold'⟩
      · rfl
      · exact absurd hi (h.not_pending u' j hold')
    · rcases (hholds u' j).mp hu' with ⟨rfl, rfl⟩ | ⟨_, hold'⟩
      · exact absurd hi (h.not_pending u j hold)
      · exact h.unique u u' j hold hold'
  · intro u j hu hmem
    rcases (hholds u j).mp hu with ⟨_, rfl⟩ | ⟨_, hold⟩
    · exact (h.nodup.mem_erase_iff.mp hmem).1 rfl
    · exact h.not_pending u j hold (List.mem_of_mem_erase hmem)
  · intro u j regs hregs
    by_cases hu : u = t
    · subst hu
      rw [Team.handOut, withThread_threads_self] at hregs
      obtain ⟨rfl, rfl⟩ := Prod.mk.inj (Option.some.inj hregs)
      obtain ⟨a', ha', hcomplete⟩ := hbody i _ hcell
      exact ⟨cells[i], a', (h.cell_pending i hi).trans hcell, ha', hcomplete⟩
    · rw [Team.handOut, withThread_threads_of_ne _ _ _ _ _ hu] at hregs
      exact h.cell_held u j regs hregs
  · intro j hj hnot hfree
    have hji : j ≠ i := fun hji => hfree t ((hholds t j).mpr (Or.inl ⟨rfl, hji⟩))
    refine h.cell_done j hj (fun hmem => hnot (h.nodup.mem_erase_iff.mpr ⟨hji, hmem⟩))
      fun u hu => hfree u ((hholds u j).mpr (Or.inr ⟨?_, hu⟩))
    rintro rfl
    obtain ⟨regs, hregs⟩ := hu
    rw [hidle] at hregs
    cases hregs
  -- the value of `i` moves from the pending ones to the thread
  · obtain ⟨rest, hold, hnew⟩ := exists_sum_withThread s t
      ⟨some (i, body.start i), (s.threads t).part⟩ (s.pending.erase i) s.cells (Thread.due value)
    have hdue : (s.threads t).due value = (s.threads t).part := by
      unfold Thread.due
      rw [hidle]
    have hsum := h.sum
    rw [hold, hdue, ((List.perm_cons_erase hi).map value).sum_eq, List.map_cons,
      List.sum_cons] at hsum
    rw [← hsum]
    refine (congrArg _ hnew).trans ?_
    show ((s.pending.erase i).map value).sum + ((s.threads t).part + value i + rest) = _
    abel

/-- A step inside an iteration. -/
theorem Inv.goOn (h : Inv body cells cells' value s) {t : Fin m} {i : Nat} {regs regs' : τ} {a a' : α}
    (hheld : (s.threads t).held = some (i, regs)) (ha : s.cells[i]? = some a)
    (hstep : body.step i a regs = some (a', .inl regs')) :
    Inv body cells cells' value (s.goOn t i a' regs') := by
  have hlt : i < s.cells.length := (List.getElem?_eq_some_iff.mp ha).1
  have hti : s.Holds t i := ⟨regs, hheld⟩
  have hholds : ∀ u j, (s.goOn t i a' regs').Holds u j ↔ s.Holds u j := by
    intro u j
    refine (holds_withThread _ _ _ _ _).trans ?_
    by_cases hu : u = t
    · subst hu
      simp [Holds, hheld]
    · simp [hu]
  refine ⟨(List.length_set ..).trans h.length_cells, h.nodup, h.pending_lt, ?_, ?_, ?_, ?_, ?_, ?_⟩
  · intro u u' j hu hu'
    exact h.unique u u' j ((hholds u j).mp hu) ((hholds u' j).mp hu')
  · intro u j hu
    exact h.not_pending u j ((hholds u j).mp hu)
  · intro j hj
    have hij : i ≠ j := by
      rintro rfl
      exact h.not_pending t i hti hj
    exact (List.getElem?_set_ne hij).trans (h.cell_pending j hj)
  · intro u j regsU hregs
    by_cases hu : u = t
    · subst hu
      rw [Team.goOn, withThread_threads_self] at hregs
      obtain ⟨rfl, rfl⟩ := Prod.mk.inj (Option.some.inj hregs)
      obtain ⟨b, b', hb, hb', hcomplete⟩ := h.cell_held u i regs hheld
      obtain rfl := Option.some.inj (ha.symm.trans hb)
      rw [body.complete_of_inl hstep] at hcomplete
      exact ⟨a', b', List.getElem?_set_self hlt, hb', hcomplete⟩
    · rw [Team.goOn, withThread_threads_of_ne _ _ _ _ _ hu] at hregs
      obtain ⟨b, b', hb, hb', hcomplete⟩ := h.cell_held u j regsU hregs
      have hij : i ≠ j := by
        rintro rfl
        exact hu (h.unique u t i ⟨regsU, hregs⟩ hti)
      exact ⟨b, b', (List.getElem?_set_ne hij).trans hb, hb', hcomplete⟩
  · intro j hj hnot hfree
    have hij : i ≠ j := by
      rintro rfl
      exact hfree t ((hholds t i).mpr hti)
    exact (List.getElem?_set_ne hij).trans
      (h.cell_done j hj hnot fun u hu => hfree u ((hholds u j).mpr hu))
  · obtain ⟨rest, hold, hnew⟩ := exists_sum_withThread s t
      ⟨some (i, regs'), (s.threads t).part⟩ s.pending (s.cells.set i a') (Thread.due value)
    have hdue : (s.threads t).due value = (s.threads t).part + value i := by
      unfold Thread.due
      rw [hheld]
    have hsum := h.sum
    rw [hold, hdue] at hsum
    exact (congrArg _ hnew).trans hsum

/-- The last step of an iteration. -/
theorem Inv.finish (h : Inv body cells cells' value s) {t : Fin m} {i : Nat} {regs : τ} {a a' : α}
    {r : ρ} (hheld : (s.threads t).held = some (i, regs)) (ha : s.cells[i]? = some a)
    (hstep : body.step i a regs = some (a', .inr r)) :
    Inv body cells cells' value (s.finish t i a' r) := by
  have hlt : i < s.cells.length := (List.getElem?_eq_some_iff.mp ha).1
  have hti : s.Holds t i := ⟨regs, hheld⟩
  have hholds : ∀ u j, (s.finish t i a' r).Holds u j ↔ u ≠ t ∧ s.Holds u j := by
    intro u j
    refine (holds_withThread _ _ _ _ _).trans ?_
    simp
  -- the iteration has done what it would have done alone
  obtain ⟨b, b', hb, hb', hcomplete⟩ := h.cell_held t i regs hheld
  obtain rfl := Option.some.inj (ha.symm.trans hb)
  rw [body.complete_of_inr hstep] at hcomplete
  obtain ⟨rfl, rfl⟩ := Prod.mk.inj (Option.some.inj hcomplete)
  refine ⟨(List.length_set ..).trans h.length_cells, h.nodup, h.pending_lt, ?_, ?_, ?_, ?_, ?_, ?_⟩
  · intro u u' j hu hu'
    exact h.unique u u' j ((hholds u j).mp hu).2 ((hholds u' j).mp hu').2
  · intro u j hu
    exact h.not_pending u j ((hholds u j).mp hu).2
  · intro j hj
    have hij : i ≠ j := by
      rintro rfl
      exact h.not_pending t i hti hj
    exact (List.getElem?_set_ne hij).trans (h.cell_pending j hj)
  · intro u j regsU hregs
    obtain ⟨hu, _⟩ := (hholds u j).mp ⟨regsU, hregs⟩
    rw [Team.finish, withThread_threads_of_ne _ _ _ _ _ hu] at hregs
    obtain ⟨b, b', hb, hb', hcomplete⟩ := h.cell_held u j regsU hregs
    have hij : i ≠ j := by
      rintro rfl
      exact hu (h.unique u t i ⟨regsU, hregs⟩ hti)
    exact ⟨b, b', (List.getElem?_set_ne hij).trans hb, hb', hcomplete⟩
  · intro j hj hnot hfree
    by_cases hij : i = j
    · subst hij
      exact (List.getElem?_set_self hlt).trans hb'.symm
    · refine (List.getElem?_set_ne hij).trans (h.cell_done j hj hnot fun u hu =>
        hfree u ((hholds u j).mpr ⟨?_, hu⟩))
      rintro rfl
      obtain ⟨regsU, hregs⟩ := hu
      rw [hheld] at hregs
      exact hij (Prod.mk.inj (Option.some.inj hregs)).1
  · obtain ⟨rest, hold, hnew⟩ := exists_sum_withThread s t
      ⟨none, (s.threads t).part + value i⟩ s.pending (s.cells.set i a') (Thread.due value)
    have hdue : (s.threads t).due value = (s.threads t).part + value i := by
      unfold Thread.due
      rw [hheld]
    have hsum := h.sum
    rw [hold, hdue] at hsum
    exact (congrArg _ hnew).trans hsum

/-- The step lemma. -/
theorem Inv.act (h : Inv body cells cells' value s)
    (hbody : ∀ i a, cells[i]? = some a → ∃ a', cells'[i]? = some a' ∧
      body.complete i a (body.start i) = some (a', value i))
    {e : Event m} {s' : Team m α τ ρ} (henabled : s.Enabled e) (hact : s.act body e = some s') :
    Inv body cells cells' value s' := by
  rcases act_cases hact with ⟨t, i, rfl, rfl⟩ | ⟨t, i, regs, a, a', regs', _, hheld, ha, hstep, rfl⟩ |
    ⟨t, i, regs, a, a', r, _, hheld, ha, hstep, rfl⟩
  · exact h.handOut hbody henabled.1 henabled.2
  · exact h.goOn hheld ha hstep
  · exact h.finish hheld ha hstep

/-- The run lemma. -/
theorem Inv.run (h : Inv body cells cells' value s)
    (hbody : ∀ i a, cells[i]? = some a → ∃ a', cells'[i]? = some a' ∧
      body.complete i a (body.start i) = some (a', value i))
    {events : List (Event m)} {s' : Team m α τ ρ} (hrun : Run body s events s') :
    Inv body cells cells' value s' := by
  induction hrun with
  | nil => exact h
  | snoc _ henabled hact ih => exact ih.act hbody henabled hact

/-- An event that may happen finds what it accesses. -/
theorem Inv.exists_act (h : Inv body cells cells' value s) {e : Event m} (henabled : s.Enabled e) :
    ∃ s', s.act body e = some s' := by
  cases e with
  | take t i => exact ⟨_, rfl⟩
  | work t =>
      obtain ⟨⟨i, regs⟩, hheld⟩ := Option.ne_none_iff_exists'.mp henabled
      obtain ⟨a, _, ha, _, hcomplete⟩ := h.cell_held t i regs hheld
      rcases body.exists_step_of_complete hcomplete with ⟨a', regs', hstep, _⟩ | hstep
      · exact ⟨_, by simp [Team.act, hheld, ha, hstep]; rfl⟩
      · exact ⟨_, by simp [Team.act, hheld, ha, hstep]; rfl⟩

/-- With all iterations done, the cells and the sum are those of the iterations alone. -/
theorem Inv.of_finished (h : Inv body cells cells' value s) (hlen : cells'.length = cells.length)
    (hdone : s.Finished) :
    s.cells = cells' ∧ s.total = ((List.range cells.length).map value).sum := by
  obtain ⟨hpending, hidle⟩ := hdone
  constructor
  · refine List.ext_getElem? fun i => ?_
    by_cases hi : i < cells.length
    · have hnot : i ∉ s.pending := by
        rw [hpending]
        exact List.not_mem_nil
      have hfree : ∀ t, ¬ s.Holds t i := by
        rintro t ⟨regs, hregs⟩
        rw [hidle t] at hregs
        cases hregs
      exact h.cell_done i hi hnot hfree
    · rw [List.getElem?_eq_none (by rw [h.length_cells]; omega),
        List.getElem?_eq_none (by rw [hlen]; omega)]
  · have hdue : ∀ t, (s.threads t).due value = (s.threads t).part := by
      intro t
      unfold Thread.due
      rw [hidle t]
    rw [← h.sum, hpending, List.map_nil, List.sum_nil, zero_add]
    exact Finset.sum_congr rfl fun t _ => (hdue t).symm

end Invariant

/-! ## Progress -/

section Progress

variable {body : StepwiseBody α τ ρ} {s s' : Team m α τ ρ}

/-- Until all iterations are done, some thread can go on. -/
theorem exists_enabled (hm : 0 < m) (hdone : ¬ s.Finished) : ∃ e, s.Enabled e := by
  by_cases hidle : ∀ t, (s.threads t).held = none
  · have hpending : s.pending ≠ [] := fun hnil => hdone ⟨hnil, hidle⟩
    obtain ⟨i, hi⟩ := List.exists_mem_of_ne_nil _ hpending
    exact ⟨.take ⟨0, hm⟩ i, hidle _, hi⟩
  · obtain ⟨t, ht⟩ := not_forall.mp hidle
    exact ⟨.work t, ht⟩

/-- Once they are, nothing more happens. -/
theorem not_enabled_of_finished (hdone : s.Finished) (e : Event m) : ¬ s.Enabled e := by
  cases e with
  | take t i =>
      rintro ⟨_, hi⟩
      rw [hdone.1] at hi
      exact List.not_mem_nil hi
  | work t => exact fun hheld => hheld (hdone.2 t)

/-- A bound on the events that are still to come. -/
def toCome (body : StepwiseBody α τ ρ) (s : Team m α τ ρ) : Nat :=
  (s.pending.map fun i => body.rank i (body.start i) + 2).sum +
    ∑ t, (s.threads t).toCome body

/-- Every event brings the end closer. -/
theorem toCome_lt [Add ρ] {e : Event m} (henabled : s.Enabled e) (hact : s.act body e = some s') :
    s'.toCome body < s.toCome body := by
  rcases act_cases hact with ⟨t, i, rfl, rfl⟩ | ⟨t, i, regs, a, a', regs', _, hheld, _, hstep, rfl⟩ |
    ⟨t, i, regs, a, a', r, _, hheld, _, _, rfl⟩
  · obtain ⟨hidle, hi⟩ := henabled
    obtain ⟨rest, hold, hnew⟩ := exists_sum_withThread s t
      ⟨some (i, body.start i), (s.threads t).part⟩ (s.pending.erase i) s.cells (Thread.toCome body)
    have hpending := ((List.perm_cons_erase hi).map
      fun i => body.rank i (body.start i) + 2).sum_eq
    rw [List.map_cons, List.sum_cons] at hpending
    have hzero : (s.threads t).toCome body = 0 := by
      unfold Thread.toCome
      rw [hidle]
    unfold toCome
    rw [hold, hzero, hpending]
    refine (congrArg (_ + ·) hnew).trans_lt ?_
    show ((s.pending.erase i).map _).sum + (body.rank i (body.start i) + 1 + rest) < _
    omega
  · obtain ⟨rest, hold, hnew⟩ := exists_sum_withThread s t
      ⟨some (i, regs'), (s.threads t).part⟩ s.pending (s.cells.set i a') (Thread.toCome body)
    have hrank := body.rank_lt hstep
    have hbefore : (s.threads t).toCome body = body.rank i regs + 1 := by
      unfold Thread.toCome
      rw [hheld]
    unfold toCome
    rw [hold, hbefore]
    refine (congrArg (_ + ·) hnew).trans_lt ?_
    show (s.pending.map _).sum + (body.rank i regs' + 1 + rest) < _
    omega
  · obtain ⟨rest, hold, hnew⟩ := exists_sum_withThread s t
      ⟨none, (s.threads t).part + r⟩ s.pending (s.cells.set i a') (Thread.toCome body)
    have hbefore : (s.threads t).toCome body = body.rank i regs + 1 := by
      unfold Thread.toCome
      rw [hheld]
    unfold toCome
    rw [hold, hbefore]
    refine (congrArg (_ + ·) hnew).trans_lt ?_
    show (s.pending.map _).sum + (0 + rest) < _
    omega

/-- No interleaving is longer than the bound. -/
theorem Run.length_add_le [Add ρ] {events : List (Event m)} (hrun : Run body s events s') :
    events.length + s'.toCome body ≤ s.toCome body := by
  induction hrun with
  | nil => simp
  | snoc _ henabled hact ih =>
      have hlt := toCome_lt henabled hact
      rw [List.length_append, List.length_singleton]
      omega

end Progress

/-! ## All runs -/

/-- What a loop guarantees whatever the interleaving: no event fails, there is a bound on
the length of all runs, a run can be continued until all iterations are done and not
beyond, and then the array and the reduction variable hold `cells'` and `sum`. -/
structure Computes [AddCommMonoid ρ] (body : StepwiseBody α τ ρ) (m : Nat) (cells cells' : List α)
    (sum : ρ) : Prop where
  exists_act : ∀ events (s : Team m α τ ρ), Run body (start m cells) events s →
    ∀ e, s.Enabled e → ∃ s', s.act body e = some s'
  bounded : ∃ bound, ∀ events (s : Team m α τ ρ), Run body (start m cells) events s →
    events.length ≤ bound
  finished_iff : ∀ events (s : Team m α τ ρ), Run body (start m cells) events s →
    (s.Finished ↔ ∀ e, ¬ s.Enabled e)
  outcome : ∀ events (s : Team m α τ ρ), Run body (start m cells) events s → s.Finished →
    s.cells = cells' ∧ s.total = sum

/-- The main result: when every iteration alone succeeds, the loop computes in every
interleaving what the iterations alone do. -/
theorem computes_of_complete [AddCommMonoid ρ] {body : StepwiseBody α τ ρ} {cells cells' : List α}
    {value : Nat → ρ} (hm : 0 < m) (hlen : cells'.length = cells.length)
    (hbody : ∀ i a, cells[i]? = some a → ∃ a', cells'[i]? = some a' ∧
      body.complete i a (body.start i) = some (a', value i)) :
    Computes body m cells cells' ((List.range cells.length).map value).sum := by
  have hinv : ∀ events (s : Team m α τ ρ), Run body (start m cells) events s →
      Inv body cells cells' value s := fun _ _ hrun => inv_start.run hbody hrun
  refine ⟨fun events s hrun e => (hinv events s hrun).exists_act,
    ⟨(start m cells : Team m α τ ρ).toCome body, fun events s hrun => ?_⟩, fun events s _ => ?_,
    fun events s hrun => (hinv events s hrun).of_finished hlen⟩
  · have := hrun.length_add_le
    omega
  · refine ⟨not_enabled_of_finished, fun hnone => ?_⟩
    by_contra hdone
    obtain ⟨e, he⟩ := exists_enabled hm hdone
    exact hnone e he

end Team

end Foundation
