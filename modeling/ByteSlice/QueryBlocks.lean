import Mathlib
import ByteSlice.ScanStep
import ByteSlice.Foundation.LoopFusion

/-!
# A query, block by block

Every call that changes the bits of a query (`Column::Scan` of either kind, `SetOnes`,
`SetZeros`, `And` and `Or`) is a loop over the blocks.  A query runs such loops one after
another, so all blocks pass through one call before the next call begins.

The calls could as well be turned inside out: take one block through the whole query, then
the next one.  Nothing is asked of the columns or of the bit vector for that.  They may be of
other sizes or types than the query needs; then both ways fail.
-/

namespace ByteSlice

open Foundation

/-- A call on the bit vector of a query, with the order in which its block loop happens to
run. -/
inductive QueryOp (ι : Type)
  | scan (step : ScanStep ι)
  | setOnes (order : List Nat)
  | setZeros (order : List Nat)
  | and (order : List Nat) (bitvector : BitVector.Operand)
  | or (order : List Nat) (bitvector : BitVector.Operand)

namespace QueryOp

variable {ι : Type}

def order : QueryOp ι → List Nat
  | .scan step => step.order
  | .setOnes order => order
  | .setZeros order => order
  | .and order _ => order
  | .or order _ => order

def exec (columns : ι → Column) (bv : BitVector) : QueryOp ι → Option BitVector
  | .scan step => step.exec columns bv
  | .setOnes order => bv.setOnes order
  | .setZeros order => bv.setZeros order
  | .and order bitvector => bv.and order bitvector
  | .or order bitvector => bv.or order bitvector

/-- The call's iteration on the block with the index `blockId`. -/
def execBlock (columns : ι → Column) (blockId : Nat) (bvBlock : BitVectorBlock) :
    QueryOp ι → Option BitVectorBlock
  | .scan step =>
      match step.operand with
      | .literal value =>
          ((columns step.column).blocks[blockId]?).map fun block =>
            block.scan step.cmp value bvBlock step.opt
      | .column other =>
          ((columns step.column).blocks[blockId]?).bind fun block =>
            ((columns other).blocks[blockId]?).bind fun otherBlock =>
              block.scanBlock step.cmp otherBlock bvBlock step.opt
  | .setOnes _ => some bvBlock.setOnes
  | .setZeros _ => some bvBlock.setZeros
  | .and _ .this => some bvBlock.andThis
  | .and _ (.other argument) => (argument.getBVBlock blockId).map bvBlock.and
  | .or _ .this => some bvBlock.orThis
  | .or _ (.other argument) => (argument.getBVBlock blockId).map bvBlock.or

/-- Every call is a loop over the blocks. -/
theorem exec_eq_forBlocks (columns : ι → Column) (bv : BitVector) (op : QueryOp ι) :
    op.exec columns bv =
      BitVector.forBlocks op.order (fun i block => op.execBlock columns i block) bv := by
  cases op with
  | scan step =>
      obtain ⟨column, cmp, operand, opt, order⟩ := step
      cases operand <;> rfl
  | setOnes order => rfl
  | setZeros order => rfl
  | and order bitvector => cases bitvector <;> rfl
  | or order bitvector => cases bitvector <;> rfl

end QueryOp

/-- **A query can be run block by block.**  Any sequence of calls on a bit vector, each with
its block loop in an order of its own, does to the bit vector what a single loop over the
blocks does, in any order, that takes each block through all calls; and where one of them
fails, so does the other.  For a block of more tuples than it has room for, whose scan reads
outside its arrays, this says nothing about the code. -/
theorem query_blockwise {ι : Type} (columns : ι → Column) (bv : BitVector)
    (ops : List (QueryOp ι))
    (hops : ∀ op ∈ ops, op.order.Perm (List.range bv.getNumBlocks)) (order : List Nat)
    (horder : order.Perm (List.range bv.getNumBlocks)) :
    runOps (QueryOp.exec columns) bv ops =
      BitVector.forBlocks order (fun blockId bvBlock =>
        runOps (QueryOp.execBlock columns blockId) bvBlock ops) bv := by
  -- the calls keep `num`, so they are loops over the list of blocks
  have hblocks : ∀ blocks : List BitVectorBlock,
      runOps (QueryOp.exec columns) { bv with blocks := blocks } ops =
        (runOps (fun blocks op => runCells (fun i block => op.execBlock columns i block)
          op.order blocks) blocks ops).map fun blocks => { bv with blocks := blocks } := by
    intro blocks
    clear hops
    induction ops generalizing blocks with
    | nil => rfl
    | cons op ops ih =>
        rw [runOps_cons, runOps_cons, QueryOp.exec_eq_forBlocks]
        unfold BitVector.forBlocks
        cases hrun : runCells (fun i block => op.execBlock columns i block) op.order blocks with
        | none => rfl
        | some next => exact ih next
  unfold BitVector.forBlocks
  rw [← runOps_runCells (fun (op : QueryOp ι) i block => op.execBlock columns i block)
    QueryOp.order hops horder]
  exact hblocks bv.blocks

/-- Two blocks, cleared and then scanned in another order. -/
theorem query_blockwise_two :
    let bv : BitVector := ⟨1048577, [BitVectorBlock.new 1048576 (by decide) (by decide),
      BitVectorBlock.new 1 (by decide) (by decide)]⟩
    let columns : Unit → Column := fun _ => ⟨.kNaive, 8, 1048577,
      [ColumnBlock.new 1048576 (.naive .uint8), ColumnBlock.new 1 (.naive .uint8)]⟩
    let ops : List (QueryOp Unit) :=
      [.setZeros [1, 0], .scan ⟨(), .kLess, .literal 7#64, .kOr, [0, 1]⟩]
    runOps (QueryOp.exec columns) bv ops =
      BitVector.forBlocks [1, 0] (fun blockId bvBlock =>
        runOps (QueryOp.execBlock columns blockId) bvBlock ops) bv := by
  intro bv columns ops
  refine query_blockwise columns bv ops ?_ [1, 0] (by decide)
  intro op hop
  rcases List.mem_cons.mp hop with rfl | hop
  · show [1, 0].Perm [0, 1]
    decide
  · rw [List.mem_singleton.mp hop]
    show [0, 1].Perm [0, 1]
    decide

end ByteSlice
