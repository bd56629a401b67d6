import Mathlib
import ByteSlice.Foundation.Cells
import ByteSlice.Foundation.Simulation

/-!
# Loop fusion

Two loops over the same cells, one after the other, are one loop that does both bodies on
each cell, and so are any number of them.  The iterations may fail; then the fused loop fails
too, though it may have reached the failing iteration earlier or later.
-/

namespace Foundation

universe u v

variable {α : Type u} {body body₁ body₂ : Nat → α → Option α}

theorem runCells_append (order order' : List Nat) (cells : List α) :
    runCells body (order ++ order') cells =
      (runCells body order cells).bind (runCells body order') :=
  List.foldlM_append

/-- Only the listed iterations matter. -/
theorem runCells_congr {order : List Nat} (h : ∀ i ∈ order, body₁ i = body₂ i)
    (cells : List α) : runCells body₁ order cells = runCells body₂ order cells := by
  induction order generalizing cells with
  | nil => rfl
  | cons i rest ih =>
      have hstep : stepCell body₁ cells i = stepCell body₂ cells i := by
        unfold stepCell
        rw [h i List.mem_cons_self]
      rw [runCells_cons, runCells_cons, hstep]
      exact congrArg _ (funext (ih fun j hj => h j (List.mem_cons_of_mem _ hj)))

/-- Both bodies on one cell. -/
theorem stepCell_bind (cells : List α) (i : Nat) :
    (stepCell body₁ cells i).bind (fun cells => stepCell body₂ cells i) =
      stepCell (fun i a => (body₁ i a).bind (body₂ i)) cells i := by
  cases hcell : cells[i]? with
  | none => simp [stepCell, hcell]
  | some old =>
      have hlt : i < cells.length := (List.getElem?_eq_some_iff.mp hcell).1
      cases hbody : body₁ i old with
      | none => simp [stepCell, hcell, hbody]
      | some mid =>
          have hfirst : stepCell body₁ cells i = some (cells.set i mid) :=
            stepCell_eq_some_iff.mpr ⟨old, mid, hcell, hbody, rfl⟩
          rw [hfirst, Option.bind_some]
          unfold stepCell
          rw [List.getElem?_set_self hlt, hcell]
          dsimp only
          rw [hbody, Option.bind_some]
          simp only [List.set_set]

/-- An iteration may be moved in front of a loop that does not run it. -/
theorem runCells_bind_stepCell {order : List Nat} {i : Nat} (hi : i ∉ order) (cells : List α) :
    (runCells body₁ order cells).bind (fun cells => stepCell body₂ cells i) =
      (stepCell body₂ cells i).bind (runCells body₁ order) := by
  -- one body that is the second at `i` and the first elsewhere
  let both : Nat → α → Option α := fun j => if j = i then body₂ j else body₁ j
  have hstep : ∀ cells, stepCell body₂ cells i = runCells both [i] cells := by
    intro cells
    have hcell : stepCell both cells i = stepCell body₂ cells i := by
      unfold stepCell
      rw [show both i = body₂ i from if_pos rfl]
    rw [runCells_cons, hcell]
    exact (Option.bind_fun_some _).symm
  have horder : ∀ cells, runCells body₁ order cells = runCells both order cells := fun cells =>
    runCells_congr (fun j hj => (if_neg fun h : j = i => hi (h ▸ hj)).symm) cells
  calc
    (runCells body₁ order cells).bind (fun cells => stepCell body₂ cells i) =
        (runCells both order cells).bind (runCells both [i]) := by
          rw [horder]
          exact congrArg _ (funext hstep)
    _ = runCells both (order ++ [i]) cells := (runCells_append order [i] cells).symm
    _ = runCells both ([i] ++ order) cells := runCells_perm List.perm_append_comm cells
    _ = (runCells both [i] cells).bind (runCells both order) := runCells_append [i] order cells
    _ = (stepCell body₂ cells i).bind (runCells body₁ order) := by
          rw [hstep]
          exact congrArg _ (funext horder).symm

/-- Two loops are one. -/
theorem runCells_bind (body₁ body₂ : Nat → α → Option α) {order : List Nat}
    (hnodup : order.Nodup) (cells : List α) :
    (runCells body₁ order cells).bind (runCells body₂ order) =
      runCells (fun i a => (body₁ i a).bind (body₂ i)) order cells := by
  induction order generalizing cells with
  | nil => rfl
  | cons i rest ih =>
      obtain ⟨hi, hrest⟩ := List.nodup_cons.mp hnodup
      calc
        (runCells body₁ (i :: rest) cells).bind (runCells body₂ (i :: rest)) =
            (stepCell body₁ cells i).bind fun cells =>
              ((runCells body₁ rest cells).bind fun cells => stepCell body₂ cells i).bind
                (runCells body₂ rest) := by
              rw [runCells_cons, Option.bind_assoc]
              exact congrArg _ (funext fun cells => (Option.bind_assoc _ _ _).symm)
        _ = (stepCell body₁ cells i).bind fun cells =>
              (stepCell body₂ cells i).bind fun cells =>
                (runCells body₁ rest cells).bind (runCells body₂ rest) := by
              refine congrArg _ (funext fun cells => ?_)
              rw [runCells_bind_stepCell hi, Option.bind_assoc]
        _ = ((stepCell body₁ cells i).bind fun cells => stepCell body₂ cells i).bind
              (runCells (fun i a => (body₁ i a).bind (body₂ i)) rest) := by
              rw [Option.bind_assoc]
              exact congrArg _ (funext fun cells => congrArg _ (funext (ih hrest)))
        _ = runCells (fun i a => (body₁ i a).bind (body₂ i)) (i :: rest) cells := by
              rw [stepCell_bind, runCells_cons]

/-- A loop keeps the number of cells. -/
theorem length_of_runCells {order : List Nat} {cells out : List α}
    (hrun : runCells body order cells = some out) : out.length = cells.length := by
  induction order generalizing cells with
  | nil => exact congrArg List.length (Option.some.inj hrun).symm
  | cons i rest ih =>
      obtain ⟨mid, hmid, hout⟩ := Option.bind_eq_some_iff.mp hrun
      obtain ⟨_, _, _, _, rfl⟩ := stepCell_eq_some_iff.mp hmid
      exact (ih hout).trans List.length_set

/-- Without a body, a loop over the cells does nothing. -/
theorem runCells_some {order : List Nat} {cells : List α} (h : ∀ i ∈ order, i < cells.length) :
    runCells (fun _ a => some a) order cells = some cells := by
  induction order with
  | nil => rfl
  | cons i rest ih =>
      have hlt := h i List.mem_cons_self
      have hstep : stepCell (fun _ a => some a) cells i = some cells :=
        stepCell_eq_some_iff.mpr ⟨cells[i], cells[i], List.getElem?_eq_getElem hlt, rfl,
          (List.set_getElem_self hlt).symm⟩
      rw [runCells_cons, hstep]
      exact ih fun j hj => h j (List.mem_cons_of_mem _ hj)

/-- **Loop fusion.**  A sequence of loops over all cells, each in an order of its own, is one
loop over the cells, in any order, that runs the whole sequence on each. -/
theorem runOps_runCells {Op : Type v} (body : Op → Nat → α → Option α) (orders : Op → List Nat)
    {ops : List Op} {cells : List α}
    (horders : ∀ op ∈ ops, (orders op).Perm (List.range cells.length)) {order : List Nat}
    (horder : order.Perm (List.range cells.length)) :
    runOps (fun cells op => runCells (body op) (orders op) cells) cells ops =
      runCells (fun i a => runOps (fun a op => body op i a) a ops) order cells := by
  induction ops generalizing cells with
  | nil => exact (runCells_some fun i hi => List.mem_range.mp (horder.mem_iff.mp hi)).symm
  | cons op ops ih =>
      have hnodup : order.Nodup := horder.nodup_iff.mpr List.nodup_range
      have hop : runCells (body op) (orders op) cells = runCells (body op) order cells :=
        runCells_perm ((horders op List.mem_cons_self).trans horder.symm) cells
      have hfused := runCells_bind (body op)
        (fun i a => runOps (fun a op => body op i a) a ops) hnodup cells
      refine Eq.trans ?_ hfused
      rw [runOps_cons, hop]
      cases hrun : runCells (body op) order cells with
      | none => rfl
      | some mid =>
          have hlen := length_of_runCells hrun
          exact ih (fun op' hop' => hlen ▸ horders op' (List.mem_cons_of_mem _ hop'))
            (hlen ▸ horder)

end Foundation
