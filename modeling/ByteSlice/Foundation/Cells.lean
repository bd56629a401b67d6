import Mathlib
import ByteSlice.Foundation.Loop

/-!
# Cell-wise loops

Many loops own, in iteration `i`, exactly one cell of an array: they read it,
compute a new value and write it back.  Such iterations commute, so the loop
has the same effect in every order, and its effect on each cell can be read off
without mentioning the loop.

Two forms are provided.

* `Cells σ α` is an array inside a state `σ` that is total on its index range:
  `sweep` visits a list of indices, `get_sweep` reads the result, and
  `get_forLoop_set` does the same for a strided `for` loop.  `forLoop_record_cells`
  is for such a loop that records something on its way.
* `runCells` visits cells of a list whose bodies may fail.  `runCells_perm` is
  order independence, failure included, and `runCells_eq_some_iff` describes the
  result cell by cell.
-/

namespace Foundation

universe u v w

variable {σ : Type u} {α : Type v}

/-- An array of `size` cells inside a state, with its only law: writing a cell
changes that cell and no other. -/
structure Cells (σ : Type u) (α : Type v) where
  size : Nat
  get : σ → Nat → α
  set : σ → Nat → α → σ
  get_set : ∀ (s : σ) (i : Nat) (v : α) (j : Nat), j < size →
    get (set s i v) j = if i = j then v else get s j

/-- Read a cell of a fixed-length region of memory.  A read outside the region
has no meaning in the source; here it yields the default value. -/
def load [Inhabited α] {n : Nat} (mem : Vector α n) (i : Nat) : α :=
  mem.getD i default

/-- Write a cell of a fixed-length region; a write outside it is dropped. -/
def store {n : Nat} (mem : Vector α n) (i : Nat) (value : α) : Vector α n :=
  mem.setIfInBounds i value

section Memory

variable [Inhabited α] {n : Nat}

theorem load_of_lt (mem : Vector α n) {i : Nat} (hi : i < n) : load mem i = mem[i] := by
  simp [load, Vector.getD, Array.getD, hi]

theorem getElem?_toList (mem : Vector α n) {i : Nat} (hi : i < n) :
    mem.toList[i]? = some (load mem i) := by
  rw [Vector.getElem?_toList, Vector.getElem?_eq_getElem hi, load_of_lt mem hi]

theorem load_store (mem : Vector α n) (i : Nat) (value : α) {j : Nat} (hj : j < n) :
    load (store mem i value) j = if i = j then value else load mem j := by
  rw [load_of_lt _ hj, load_of_lt _ hj]
  exact Vector.getElem_setIfInBounds hj

/-- A write leaves every other cell alone, also where there is none. -/
theorem load_store_of_ne (mem : Vector α n) {i j : Nat} (value : α) (hij : i ≠ j) :
    load (store mem i value) j = load mem j := by
  by_cases hj : j < n
  · rw [load_store _ _ _ hj, if_neg hij]
  · simp [load, Vector.getD, hj]

@[simp] theorem load_replicate (value : α) {i : Nat} (hi : i < n) :
    load (Vector.replicate n value) i = value := by
  rw [load_of_lt _ hi, Vector.getElem_replicate]

/-- Two regions with the same readable cells are equal. -/
theorem ext_load {mem mem' : Vector α n} (h : ∀ i, i < n → load mem i = load mem' i) :
    mem = mem' := by
  apply Vector.ext
  intro i hi
  rw [← load_of_lt mem hi, ← load_of_lt mem' hi]
  exact h i hi

variable (α n) in
/-- A fixed-length region of memory is an array of cells. -/
def Cells.vector : Cells (Vector α n) α where
  size := n
  get := load
  set := store
  get_set mem i value _ hj := load_store mem i value hj

end Memory

namespace Cells

variable (C : Cells σ α)

/-- Visit the listed cells in turn, replacing each by a function of its own
current content. -/
def sweep (f : Nat → α → α) (order : List Nat) (s : σ) : σ :=
  order.foldl (fun s i => C.set s i (f i (C.get s i))) s

/-- A sweep without repetitions updates exactly the listed cells, each from its
content before the sweep. -/
theorem get_sweep (f : Nat → α → α) {order : List Nat} (hnodup : order.Nodup)
    (s : σ) {j : Nat} (hj : j < C.size) :
    C.get (C.sweep f order s) j = if j ∈ order then f j (C.get s j) else C.get s j := by
  induction order generalizing s with
  | nil => simp [sweep]
  | cons i rest ih =>
      obtain ⟨hi, hrest⟩ := List.nodup_cons.mp hnodup
      have hstep : C.sweep f (i :: rest) s =
          C.sweep f rest (C.set s i (f i (C.get s i))) := rfl
      rw [hstep, ih hrest, C.get_set _ _ _ _ hj]
      by_cases hij : i = j
      · subst hij
        simp [hi]
      · have hji : j ≠ i := fun h => hij h.symm
        simp [hij, hji]

/-- The strided form: iteration `i` owns cell `i / step`. -/
theorem get_forLoop_set (f : Nat → α → α) (stop step : Nat) (hstep : 0 < step)
    (s : σ) {j : Nat} (hj : j < C.size) :
    C.get (forLoop stop step hstep
      (fun i _ s => C.set s (i / step) (f i (C.get s (i / step)))) 0 s) j =
      if j * step < stop then f (j * step) (C.get s j) else C.get s j := by
  rw [forLoop_eq_foldl hstep (fun i s => C.set s (i / step) (f i (C.get s (i / step))))]
  -- iteration `k * step` works on cell `k`, so the loop is a sweep over the cells
  have hsweep : (List.range (stop ⌈/⌉ step)).foldl
      (fun s k => C.set s (k * step / step)
        (f (k * step) (C.get s (k * step / step)))) s =
      C.sweep (fun k v => f (k * step) v) (List.range (stop ⌈/⌉ step)) s := by
    simp only [Nat.mul_div_cancel _ hstep]
    rfl
  rw [hsweep, C.get_sweep _ List.nodup_range s hj]
  have hmem : j ∈ List.range (stop ⌈/⌉ step) ↔ j * step < stop := by
    rw [List.mem_range, ← not_le, ceilDiv_le_iff_le_mul hstep, not_le, Nat.mul_comm]
  simp only [hmem]

/-- The unit-stride form. -/
theorem get_forLoop_set_one (f : Nat → α → α) (stop : Nat) (s : σ) {j : Nat}
    (hj : j < C.size) :
    C.get (forLoop stop 1 Nat.one_pos
      (fun i _ s => C.set s i (f i (C.get s i))) 0 s) j =
      if j < stop then f j (C.get s j) else C.get s j := by
  simpa only [Nat.div_one, Nat.mul_one] using
    C.get_forLoop_set f stop 1 Nat.one_pos s hj

end Cells

/-- A strided loop that replaces one cell in each iteration, and records something about the
content that it finds there, records that about the content before the loop: the frame
condition is all that is needed, also for cells that do not exist. -/
theorem forLoop_record_cells {β : Type w} {get : σ → Nat → α} {set : σ → Nat → α → σ}
    (hframe : ∀ (s : σ) (i : Nat) (value : α) (j : Nat), i ≠ j → get (set s i value) j = get s j)
    (f : Nat → α → α) (record : Nat → α → List β) (stop step : Nat) (hstep : 0 < step) (s : σ) :
    forLoop stop step hstep
      (fun i _ (r : σ × List β) =>
        (set r.1 (i / step) (f i (get r.1 (i / step))), r.2 ++ record i (get r.1 (i / step))))
      0 (s, []) =
      (forLoop stop step hstep (fun i _ s => set s (i / step) (f i (get s (i / step)))) 0 s,
        (List.range (stop ⌈/⌉ step)).flatMap fun k => record (k * step) (get s k)) := by
  let write : Nat → σ → σ := fun i s => set s (i / step) (f i (get s (i / step)))
  -- the cells from the current one on are still the old ones
  have hfold : ∀ n,
      (List.range n).foldl (fun (r : σ × List β) k =>
          (write (k * step) r.1, r.2 ++ record (k * step) (get r.1 (k * step / step)))) (s, []) =
        ((List.range n).foldl (fun s k => write (k * step) s) s,
          (List.range n).flatMap fun k => record (k * step) (get s k)) ∧
      ∀ k, n ≤ k → get ((List.range n).foldl (fun s k => write (k * step) s) s) k = get s k := by
    intro n
    induction n with
    | zero => exact ⟨rfl, fun _ _ => rfl⟩
    | succ n ih =>
        obtain ⟨hrun, hkept⟩ := ih
        have hdiv : n * step / step = n := Nat.mul_div_cancel n hstep
        constructor
        · rw [List.range_succ, List.foldl_append, List.foldl_append, List.flatMap_append, hrun]
          simp only [List.foldl_cons, List.foldl_nil, List.flatMap_singleton, hdiv,
            hkept n (Nat.le_refl n)]
        · intro k hk
          rw [List.range_succ, List.foldl_append]
          refine (hframe _ _ _ _ ?_).trans (hkept k (by omega))
          rw [hdiv]
          omega
  have hloop := @forLoop_eq_foldl _ stop _ hstep
    (fun i (r : σ × List β) => (write i r.1, r.2 ++ record i (get r.1 (i / step)))) (s, [])
  have hplain := @forLoop_eq_foldl _ stop _ hstep write s
  refine hloop.trans ((hfold _).1.trans ?_)
  rw [← hplain]

/-! ## Encoded writes -/

/-- An array whose writes store an encoding of the value: reading back the
written index yields the encoded value, every other index is unchanged. -/
structure Slots (σ : Type u) (V : Type v) (α : Type w) where
  size : Nat
  read : σ → Nat → α
  write : σ → Nat → V → σ
  encode : V → α
  read_write : ∀ (s : σ) (i : Nat) (v : V) (j : Nat), j < size →
    read (write s i v) j = if i = j then encode v else read s j

/-- Writing consecutive values is, at every index, the write that hits it. -/
theorem Slots.read_forLoop_write {V : Type v} {α : Type w} (S : Slots σ V α)
    (values : Nat → V) (num start : Nat) (s : σ) {j : Nat} (hj : j < S.size) :
    S.read (forLoop num 1 Nat.one_pos
      (fun i _ s => S.write s (start + i) (values i)) 0 s) j =
      if start ≤ j ∧ j < start + num then S.encode (values (j - start)) else S.read s j := by
  obtain ⟨exit, hstop, hnear, _, _, hexit⟩ := forLoop_rule Nat.one_pos
    (fun i (_ : i < num) s => S.write s (start + i) (values i))
    (fun i s' => S.read s' j =
      if start ≤ j ∧ j < start + i then S.encode (values (j - start)) else S.read s j)
    (by
      intro i _ s' hs'
      rw [S.read_write _ _ _ _ hj]
      by_cases hij : start + i = j
      · subst hij
        rw [if_pos rfl, if_pos (by omega), Nat.add_sub_cancel_left]
      · rw [if_neg hij, hs']
        by_cases hin : start ≤ j ∧ j < start + i
        · rw [if_pos hin, if_pos (by omega)]
        · rw [if_neg hin, if_neg (by omega)])
    0 s (by rw [if_neg (by omega)])
  rw [hexit]
  by_cases hin : start ≤ j ∧ j < start + num
  · rw [if_pos hin, if_pos (by omega)]
  · rw [if_neg hin, if_neg (by omega)]

/-! ## Cells of a list, with bodies that may fail -/

/-- One iteration that owns cell `i`: it fails when the cell does not exist or
when the body fails on it. -/
def stepCell (body : Nat → α → Option α) (cells : List α) (i : Nat) : Option (List α) :=
  match cells[i]? with
  | none => none
  | some old => (body i old).map fun new => cells.set i new

/-- A change of all cells that an access commutes with. -/
theorem stepCell_map {body : Nat → α → Option α} {f : α → α}
    (hf : ∀ i a, body i (f a) = (body i a).map f) (cells : List α) (i : Nat) :
    stepCell body (cells.map f) i = (stepCell body cells i).map (List.map f) := by
  unfold stepCell
  rw [List.getElem?_map]
  cases cells[i]? with
  | none => rfl
  | some old =>
      show (body i (f old)).map _ = ((body i old).map _).map _
      rw [hf, Option.map_map, Option.map_map]
      congr 1
      funext new
      exact List.map_set.symm

/-- Run the iterations in the given order. -/
def runCells (body : Nat → α → Option α) (order : List Nat) (cells : List α) :
    Option (List α) :=
  order.foldlM (stepCell body) cells

variable {body : Nat → α → Option α}

@[simp] theorem runCells_nil (cells : List α) : runCells body [] cells = some cells := rfl

theorem runCells_cons (i : Nat) (order : List Nat) (cells : List α) :
    runCells body (i :: order) cells =
      (stepCell body cells i).bind (runCells body order) := rfl

theorem stepCell_eq_some_iff {cells out : List α} {i : Nat} :
    stepCell body cells i = some out ↔
      ∃ old new, cells[i]? = some old ∧ body i old = some new ∧ out = cells.set i new := by
  unfold stepCell
  cases hcell : cells[i]? with
  | none => simp
  | some old =>
      cases hbody : body i old with
      | none => simp [hbody]
      | some new => simp [hbody, eq_comm]

/-- Two iterations that own different cells succeed when both bodies succeed on the
original content. -/
theorem bind_stepCell_eq_some_iff {cells out : List α} {i j : Nat} (hij : i ≠ j) :
    (stepCell body cells i).bind (fun c => stepCell body c j) = some out ↔
      ∃ oldI newI oldJ newJ, cells[i]? = some oldI ∧ body i oldI = some newI ∧
        cells[j]? = some oldJ ∧ body j oldJ = some newJ ∧
          out = (cells.set i newI).set j newJ := by
  rw [Option.bind_eq_some_iff]
  constructor
  · rintro ⟨mid, hmid, hout⟩
    obtain ⟨oldI, newI, holdI, hnewI, rfl⟩ := stepCell_eq_some_iff.mp hmid
    obtain ⟨oldJ, newJ, holdJ, hnewJ, rfl⟩ := stepCell_eq_some_iff.mp hout
    rw [List.getElem?_set_ne hij] at holdJ
    exact ⟨oldI, newI, oldJ, newJ, holdI, hnewI, holdJ, hnewJ, rfl⟩
  · rintro ⟨oldI, newI, oldJ, newJ, holdI, hnewI, holdJ, hnewJ, rfl⟩
    rw [← List.getElem?_set_ne hij (a := newI)] at holdJ
    exact ⟨cells.set i newI, stepCell_eq_some_iff.mpr ⟨oldI, newI, holdI, hnewI, rfl⟩,
      stepCell_eq_some_iff.mpr ⟨oldJ, newJ, holdJ, hnewJ, rfl⟩⟩

/-- Iterations that own different cells commute, failures included. -/
theorem stepCell_comm (cells : List α) (i j : Nat) :
    (stepCell body cells i).bind (fun c => stepCell body c j) =
      (stepCell body cells j).bind (fun c => stepCell body c i) := by
  by_cases hij : i = j
  · subst hij
    rfl
  · apply Option.ext
    intro out
    rw [bind_stepCell_eq_some_iff hij, bind_stepCell_eq_some_iff (Ne.symm hij)]
    constructor
    · rintro ⟨oldI, newI, oldJ, newJ, holdI, hnewI, holdJ, hnewJ, rfl⟩
      exact ⟨oldJ, newJ, oldI, newI, holdJ, hnewJ, holdI, hnewI, List.set_comm _ _ hij⟩
    · rintro ⟨oldJ, newJ, oldI, newI, holdJ, hnewJ, holdI, hnewI, rfl⟩
      exact ⟨oldI, newI, oldJ, newJ, holdI, hnewI, holdJ, hnewJ,
        List.set_comm _ _ (Ne.symm hij)⟩

/-- Order independence: a permutation of the iterations has the same outcome. -/
theorem runCells_perm {order order' : List Nat} (hperm : order.Perm order')
    (cells : List α) : runCells body order cells = runCells body order' cells := by
  induction hperm generalizing cells with
  | nil => rfl
  | cons i _ ih =>
      rw [runCells_cons, runCells_cons]
      exact congrArg _ (funext ih)
  | swap i j rest =>
      simp only [runCells_cons]
      have hcomm : ((stepCell body cells j).bind fun c => stepCell body c i) =
          (stepCell body cells i).bind fun c => stepCell body c j := stepCell_comm cells j i
      calc
        ((stepCell body cells j).bind fun c => (stepCell body c i).bind (runCells body rest)) =
            ((stepCell body cells j).bind fun c => stepCell body c i).bind
              (runCells body rest) := by rw [Option.bind_assoc]
        _ = ((stepCell body cells i).bind fun c => stepCell body c j).bind
              (runCells body rest) := by rw [hcomm]
        _ = (stepCell body cells i).bind fun c =>
              (stepCell body c j).bind (runCells body rest) := by rw [Option.bind_assoc]
  | trans _ _ ih₁ ih₂ => exact (ih₁ cells).trans (ih₂ cells)

/-- The run lemma: without repetitions the loop succeeds exactly when every
listed cell exists and its body succeeds on the original content, and then it
leaves the body's result there and every other cell alone. -/
theorem runCells_eq_some_iff {order : List Nat} (hnodup : order.Nodup)
    (cells out : List α) :
    runCells body order cells = some out ↔
      out.length = cells.length ∧
      (∀ i ∈ order, ∃ old new,
        cells[i]? = some old ∧ body i old = some new ∧ out[i]? = some new) ∧
      (∀ i, i ∉ order → out[i]? = cells[i]?) := by
  induction order generalizing cells with
  | nil =>
      simp only [runCells_nil, Option.some.injEq, List.not_mem_nil, false_implies, implies_true,
        not_false_eq_true, true_implies, true_and]
      constructor
      · rintro rfl
        simp
      · rintro ⟨_, h⟩
        exact (List.ext_getElem? h).symm
  | cons i rest ih =>
      obtain ⟨hi, hrest⟩ := List.nodup_cons.mp hnodup
      rw [runCells_cons]
      constructor
      · intro hrun
        obtain ⟨mid, hmid, hout⟩ := Option.bind_eq_some_iff.mp hrun
        obtain ⟨old, new, hold, hnew, rfl⟩ := stepCell_eq_some_iff.mp hmid
        obtain ⟨hlen, hin, hnot⟩ := (ih hrest _).mp hout
        have hilt : i < cells.length := (List.getElem?_eq_some_iff.mp hold).1
        refine ⟨by simpa using hlen, ?_, ?_⟩
        -- the rest of the order does not list `i`, so it keeps what the first step put there
        · intro j hj
          rcases List.mem_cons.mp hj with rfl | hj
          · refine ⟨old, new, hold, hnew, ?_⟩
            rw [hnot j hi]
            exact List.getElem?_set_self hilt
          · obtain ⟨oldJ, newJ, holdJ, hnewJ, houtJ⟩ := hin j hj
            have hij : i ≠ j := fun h => hi (h ▸ hj)
            rw [List.getElem?_set_ne hij] at holdJ
            exact ⟨oldJ, newJ, holdJ, hnewJ, houtJ⟩
        · intro j hj
          have hij : i ≠ j := fun h => hj (h ▸ List.mem_cons_self)
          rw [hnot j fun h => hj (List.mem_cons_of_mem _ h), List.getElem?_set_ne hij]
      · rintro ⟨hlen, hin, hnot⟩
        obtain ⟨old, new, hold, hnew, houtI⟩ := hin i List.mem_cons_self
        have hilt : i < cells.length := (List.getElem?_eq_some_iff.mp hold).1
        refine Option.bind_eq_some_iff.mpr ⟨cells.set i new,
          stepCell_eq_some_iff.mpr ⟨old, new, hold, hnew, rfl⟩, (ih hrest _).mpr ⟨?_, ?_, ?_⟩⟩
        · simpa using hlen
        · intro j hj
          obtain ⟨oldJ, newJ, holdJ, hnewJ, houtJ⟩ := hin j (List.mem_cons_of_mem _ hj)
          have hij : i ≠ j := fun h => hi (h ▸ hj)
          exact ⟨oldJ, newJ, by rw [List.getElem?_set_ne hij]; exact holdJ, hnewJ, houtJ⟩
        · intro j hj
          by_cases hij : i = j
          · subst hij
            rw [houtI, List.getElem?_set_self hilt]
          · rw [List.getElem?_set_ne hij]
            refine hnot j fun h => ?_
            rcases List.mem_cons.mp h with h | h
            · exact hij h.symm
            · exact hj h

/-- Steps that all fall on one cell are one update of it. -/
theorem foldlM_stepCell_of_index {κ : Type w} (index : κ → Nat) (update : κ → α → α)
    {steps : List κ} {cells : List α} {i : Nat} {old : α} (hold : cells[i]? = some old)
    (hindex : ∀ k ∈ steps, index k = i) :
    steps.foldlM (fun cells k => stepCell (fun _ a => some (update k a)) cells (index k)) cells =
      some (cells.set i (steps.foldl (fun a k => update k a) old)) := by
  induction steps generalizing cells old with
  | nil =>
      have hset : cells.set i old = cells := by
        obtain ⟨hi, rfl⟩ := List.getElem?_eq_some_iff.mp hold
        exact List.set_getElem_self hi
      rw [List.foldlM_nil, List.foldl_nil, hset]
      rfl
  | cons k steps ih =>
      have hi := (List.getElem?_eq_some_iff.mp hold).1
      have hstep : stepCell (fun _ a => some (update k a)) cells (index k) =
          some (cells.set i (update k old)) :=
        stepCell_eq_some_iff.mpr ⟨old, _, by rw [hindex k List.mem_cons_self]; exact hold, rfl,
          by rw [hindex k List.mem_cons_self]⟩
      have hold' : (cells.set i (update k old))[i]? = some (update k old) :=
        List.getElem?_set_self hi
      rw [List.foldlM_cons, hstep]
      refine (ih hold' fun k' hk' => hindex k' (List.mem_cons_of_mem _ hk')).trans ?_
      rw [List.set_set, List.foldl_cons]

/-- The form used for loops over all cells: when the body succeeds on each
cell, the loop succeeds in every order and acts pointwise. -/
theorem exists_runCells {cells : List α} {order : List Nat}
    (hperm : order.Perm (List.range cells.length))
    (hbody : ∀ i old, cells[i]? = some old → ∃ new, body i old = some new) :
    ∃ out, runCells body order cells = some out ∧ out.length = cells.length ∧
      ∀ i old, cells[i]? = some old →
        ∃ new, body i old = some new ∧ out[i]? = some new := by
  have hnodup : order.Nodup := hperm.nodup_iff.mpr List.nodup_range
  -- the outcome is known beforehand: the results of the body, cell by cell
  choose! result hresult using hbody
  let out := cells.zipIdx.map fun p => result p.2 p.1
  have hget : ∀ i, out[i]? = (cells[i]?).map (result i) := by
    intro i
    simp only [out, List.getElem?_map, List.getElem?_zipIdx, Option.map_map, Nat.zero_add]
    rfl
  have hrun : runCells body order cells = some out := by
    refine (runCells_eq_some_iff hnodup cells out).mpr ⟨by simp [out], ?_, ?_⟩
    · intro i hi
      have hlt : i < cells.length := List.mem_range.mp (hperm.mem_iff.mp hi)
      have hcell : cells[i]? = some cells[i] := List.getElem?_eq_getElem hlt
      exact ⟨cells[i], result i cells[i], hcell, hresult i _ hcell, by rw [hget, hcell]; rfl⟩
    · intro i hi
      have hge : cells.length ≤ i := by
        by_contra hlt
        exact hi (hperm.mem_iff.mpr (List.mem_range.mpr (Nat.lt_of_not_le hlt)))
      rw [hget, List.getElem?_eq_none hge]
      rfl
  refine ⟨out, hrun, by simp [out], ?_⟩
  intro i old hold
  exact ⟨result i old, hresult i old hold, by rw [hget, hold]; rfl⟩

end Foundation
