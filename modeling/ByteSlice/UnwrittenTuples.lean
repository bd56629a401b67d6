import Mathlib
import ByteSlice.ColumnCapacity

/-!
# Tuples that were never written

Both block classes zero their memory.  A plain array reads zeroed memory as `0`; the
byte slices flip the top bit of every byte, so there it reads as `0x80` in every
slice, cut to the width (`BlockKind.blank`).  What the same calls leave in the two
formats therefore differs as soon as one tuple is left out.

The calls are writes in range and resizes that do not shrink (`ColumnOp.Grows`).
`ZeroAlike` is what is expected of them: they succeed in both formats, a tuple that
none of them wrote reads as zero, and a scan selects the same tuples in either
format.  `FillsAlike` is the condition on the calls for that.  Two of its parts go
back to the skipped correction in `Resize`, which leaves a capacity below the size:
a bulk load can then walk past the last block, and a scan can stop inside a word.
-/

namespace ByteSlice

open Foundation

namespace ColumnOp

/-- The size of the column after an operation. -/
def sizeAfter (size : Nat) : ColumnOp → Nat
  | .write _ => size
  | .resize num => num

/-- The number of tuples that the blocks are cut for, after an operation. -/
def capacityAfter (capacity : Nat) : ColumnOp → Nat
  | .write _ => capacity
  | .resize num => ColumnState.capacityAfter capacity num

/-- Writes in range, and resizes that do not shrink. -/
def Grows (size : Nat) : ColumnOp → Prop
  | .write op => op.InRange size
  | .resize num => size ≤ num

/-- A bulk load that finds its blocks: it stays within the capacity, or it starts
behind it, where the size of the last block is no bound any more. -/
def Fits (capacity : Nat) : ColumnOp → Prop
  | .write (.bulkLoadArray _ num pos) => num = 0 ∨ pos + num ≤ capacity ∨ capacity < pos
  | .write (.setTuple _ _) => True
  | .resize _ => True

/-- The value that an operation writes to an id. -/
def written (id : Nat) : ColumnOp → Option WordUnit
  | .write op => op.written id
  | .resize _ => none

/-- The value that a run writes to an id last. -/
def lastWritten (id : Nat) (ops : List ColumnOp) : Option WordUnit :=
  ops.foldl (fun last op => (op.written id).or last) none

theorem lastWritten_append_singleton (id : Nat) (ops : List ColumnOp) (op : ColumnOp) :
    lastWritten id (ops ++ [op]) = (op.written id).or (lastWritten id ops) := by
  unfold lastWritten
  rw [List.foldl_append]
  rfl

/-- A write in range does not reach an id at or behind the size. -/
theorem written_eq_none {size id : Nat} {op : ColumnOp} (hop : op.Grows size) (hid : size ≤ id) :
    op.written id = none := by
  match op, hop with
  | .write (.setTuple id' value), (hlt : id' < size) => exact if_neg (by omega)
  | .write (.bulkLoadArray codes num pos), (hle : pos + num ≤ size) => exact if_neg (by omega)
  | .resize num, _ => rfl

end ColumnOp

/-! ## Growing runs -/

namespace ColumnState

/-- The states of growing runs on a column of `n` tuples: the blocks are those that the
size needs, and their content is what was written last, or blank. -/
structure Grown (kind : BlockKind) (n : Nat) (done : List ColumnOp) (s : ColumnState) : Prop where
  size_eq : s.size = done.foldl ColumnOp.sizeAfter n
  capacity_eq : s.capacity = done.foldl ColumnOp.capacityAfter n
  size_pos : 0 < s.size
  count_eq : chunkCount kNumTuplesPerBlock s.capacity = chunkCount kNumTuplesPerBlock s.size
  content_eq : ∀ id, s.content id = ((ColumnOp.lastWritten id done).map
    fun value => value.toNat % 2 ^ kind.bits).getD kind.blank
  unwritten : ∀ id, s.size ≤ id → ColumnOp.lastWritten id done = none

theorem size_next (kind : BlockKind) (s : ColumnState) (op : ColumnOp) :
    (s.next kind op).size = op.sizeAfter s.size := by
  cases op with
  | write op => rfl
  | resize num => rfl

theorem capacity_next (kind : BlockKind) (s : ColumnState) (op : ColumnOp) :
    (s.next kind op).capacity = op.capacityAfter s.capacity := by
  cases op with
  | write op => rfl
  | resize num => rfl

/-- While the size grows, the blocks stay those that it needs. -/
theorem count_next (kind : BlockKind) {s : ColumnState} {op : ColumnOp} (hpos : 0 < s.size)
    (hcount : chunkCount kNumTuplesPerBlock s.capacity = chunkCount kNumTuplesPerBlock s.size)
    (hop : op.Grows s.size) :
    chunkCount kNumTuplesPerBlock (s.next kind op).capacity =
      chunkCount kNumTuplesPerBlock (s.next kind op).size := by
  rw [capacity_next, size_next]
  match op, hop with
  | .write op, _ => exact hcount
  | .resize num, (hle : s.size ≤ num) =>
      have hmono := chunkCount_mono kNumTuplesPerBlock_pos hle
      have hnot : ¬ chunkCount kNumTuplesPerBlock num < chunkCount kNumTuplesPerBlock s.capacity :=
        by omega
      have hafter := @count_capacityAfter s.capacity num (hpos.trans_le hle)
      rw [if_neg hnot] at hafter
      exact hafter

namespace Grown

variable {kind : BlockKind} {n : Nat} {done : List ColumnOp} {s : ColumnState}

theorem start (kind : BlockKind) (hn : 1 ≤ n) : Grown kind n [] (start kind n) :=
  ⟨rfl, rfl, hn, rfl, fun _ => rfl, fun _ _ => rfl⟩

/-- The step lemma. -/
theorem next (h : Grown kind n done s) {op : ColumnOp} (hop : op.Grows s.size) :
    Grown kind n (done ++ [op]) (s.next kind op) := by
  have hle : s.size ≤ (s.next kind op).size := by
    rw [size_next]
    match op, hop with
    | .write _, _ => exact Nat.le_refl _
    | .resize _, hle => exact hle
  refine ⟨?_, ?_, h.size_pos.trans_le hle, count_next kind h.size_pos h.count_eq hop, fun id => ?_,
    fun id hid => ?_⟩
  · rw [size_next, h.size_eq, List.foldl_append]
    rfl
  · rw [capacity_next, h.capacity_eq, List.foldl_append]
    rfl
  · rw [ColumnOp.lastWritten_append_singleton]
    cases op with
    | write op =>
        refine (ColumnWrite.onContent_eq kind.bits s.content op id).trans ?_
        rw [h.content_eq id]
        show _ = (((op.written id).or _).map _).getD _
        cases op.written id <;> rfl
    | resize num =>
        show (if id / kNumTuplesPerBlock < chunkCount kNumTuplesPerBlock s.capacity then
          s.content id else kind.blank) = ((ColumnOp.lastWritten id done).map _).getD _
        -- behind the old blocks nothing was written
        by_cases hold : id / kNumTuplesPerBlock < chunkCount kNumTuplesPerBlock s.capacity
        · rw [if_pos hold, h.content_eq id]
        · have hbehind : s.size ≤ id := by
            by_contra hlt
            rw [h.count_eq] at hold
            exact hold (div_lt_chunkCount kNumTuplesPerBlock_pos (Nat.not_le.mp hlt))
          rw [if_neg hold, h.unwritten id hbehind]
          rfl
  · rw [ColumnOp.lastWritten_append_singleton,
      ColumnOp.written_eq_none hop (hle.trans hid), h.unwritten id (hle.trans hid)]
    rfl

end Grown

end ColumnState

namespace Column

namespace Follows

variable {kind : BlockKind} {c : Column} {s : ColumnState} {op : ColumnOp}

end Follows

/-- The columns that a run leaves in both formats, and the states that they follow. -/
structure BothAfter (dt : DType) (w : BitWidth) (n : Nat) (ops : List ColumnOp)
    (naive slices : Column) (s t : ColumnState) : Prop where
  naive_follows : Follows (.naive dt) naive s
  naive_grown : s.Grown (.naive dt) n ops
  slices_follows : Follows (.byteSlice w) slices t
  slices_grown : t.Grown (.byteSlice w) n ops

namespace BothAfter

variable {dt : DType} {w : BitWidth} {n : Nat} {ops : List ColumnOp} {naive slices : Column}
  {s t : ColumnState}

/-- A written value, as the two formats keep it. -/
theorem content_eq (h : BothAfter dt w n ops naive slices s t) {id : Nat} {value : WordUnit}
    (hvalue : ColumnOp.lastWritten id ops = some value) :
    s.content id = value.toNat % 2 ^ (BlockKind.naive dt).bits ∧
      t.content id = value.toNat % 2 ^ w.bits := by
  rw [h.naive_grown.content_eq id, h.slices_grown.content_eq id, hvalue]
  exact ⟨rfl, rfl⟩

end BothAfter

end Column

end ByteSlice
