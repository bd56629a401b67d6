import Mathlib
import ByteSlice.ColumnArray

/-!
# Parallel block loops are order independent

The block loops of `Column::Scan` and of `BitVector` run under OpenMP with dynamic
scheduling.  Column and bit vector are cut into the same blocks, and an iteration
reads and writes the bit vector block of its own index only; so every order of the
iterations finds its blocks and leaves the same bit vector, whatever bits it held
before.  The columns are read only: a scan returns a bit vector and nothing else.
-/

namespace ByteSlice

open Foundation

/-- In every order of its iterations the loop succeeds with the same outcome.
Ascending order is one of them. -/
def OrderIndependent {α : Type} (n : Nat) (loop : List Nat → Option α) : Prop :=
  ∃ out, ∀ order, BitVector.IsSchedule n order → loop order = some out

/-- Whenever an iteration starts, after any of the others, the blocks of both
columns and of the bit vector are there and have the same size. -/
def IterationsFindBlocks (n : Nat) (c other : Column) (loop : List Nat → Option BitVector) :
    Prop :=
  ∀ before i after, BitVector.IsSchedule n (before ++ i :: after) →
    ∃ mid bvBlock block otherBlock, loop before = some mid ∧
      mid.getBVBlock i = some bvBlock ∧ c.blocks[i]? = some block ∧
      other.blocks[i]? = some otherBlock ∧ block.numTuples = bvBlock.num ∧
      otherBlock.numTuples = bvBlock.num

namespace BitVector

variable {bv : BitVector} {n : Nat}

/-- A loop whose body succeeds on every block and keeps its size. -/
theorem orderIndependent_forBlocks (hlaid : bv.LaidOut) (hnum : bv.num = n)
    {body : Nat → BitVectorBlock → Option BitVectorBlock}
    (hbody : ∀ i block, bv.blocks[i]? = some block →
      ∃ new, body i block = some new ∧ new.num = block.num) :
    OrderIndependent n (fun order => forBlocks order body bv) := by
  subst hnum
  obtain ⟨out, hout, _⟩ := exists_forBlocks hlaid (isSchedule_ascending bv.num) hbody
  refine ⟨out, fun order horder => ?_⟩
  rw [← hout]
  exact forBlocks_perm horder body bv

theorem orderIndependent_combine (hlaid : bv.LaidOut) (hnum : bv.num = n)
    {argument : BitVector} (hargument : argument.LaidOut) (hargumentNum : argument.num = n)
    {operand : Operand} (hoperand : operand = .this ∨ operand = .other argument)
    {this : BitVectorBlock → BitVectorBlock}
    {other : BitVectorBlock → BitVectorBlock → BitVectorBlock}
    (hthis : ∀ b, (this b).num = b.num) (hother : ∀ b b', (other b b').num = b.num) :
    OrderIndependent n (fun order => combine this other order bv operand) := by
  refine orderIndependent_forBlocks hlaid hnum fun i block hblock => ?_
  rcases hoperand with rfl | rfl
  · exact ⟨this block, rfl, hthis block⟩
  · rw [LaidOut, hargumentNum] at hargument
    rw [LaidOut, hnum] at hlaid
    obtain ⟨block', hblock', _⟩ := hlaid.exists_block_of_block hargument hblock
    exact ⟨other block block', by simp [getBVBlock, hblock'], hother block block'⟩

end BitVector

namespace Column

variable {c other : Column} {kind : BlockKind} {n : Nat} {content otherContent : Nat → Nat}
  {bv : BitVector}

/-- The body of a scan against another column succeeds on every block. -/
theorem Stores.scanColumn_body (h : Stores c kind n content)
    (hother : Stores other kind n otherContent) (hlaid : bv.LaidOut) (hnum : bv.num = n)
    (cmp : Comparator) (opt : Bitwise) (i : Nat) (bvBlock : BitVectorBlock)
    (hbvBlock : bv.blocks[i]? = some bvBlock) :
    ∃ new, ((c.blocks[i]?).bind fun block => (other.blocks[i]?).bind fun otherBlock =>
      block.scanBlock cmp otherBlock bvBlock opt) = some new ∧ new.num = bvBlock.num := by
  obtain ⟨block, hblock, _, hkind, _⟩ := h.exists_block_of_bvBlock hlaid hnum hbvBlock
  obtain ⟨otherBlock, hotherBlock, _, hotherKind, _⟩ :=
    hother.exists_block_of_bvBlock hlaid hnum hbvBlock
  rw [hblock, hotherBlock]
  exact ColumnBlock.exists_scanBlock block (hotherKind.trans hkind.symm) cmp bvBlock opt

/-- The iterations of a loop over the bit vector's blocks find the blocks of two
columns of the same size. -/
theorem Stores.iterationsFindBlocks (h : Stores c kind n content)
    (hother : Stores other kind n otherContent) (hlaid : bv.LaidOut) (hnum : bv.num = n)
    {body : Nat → BitVectorBlock → Option BitVectorBlock}
    (hbody : ∀ i block, bv.blocks[i]? = some block → ∃ new, body i block = some new) :
    IterationsFindBlocks n c other (fun order => BitVector.forBlocks order body bv) := by
  intro before i after horder
  rw [← hnum] at horder
  obtain ⟨mid, bvBlock, hmid, hget, hbvBlock⟩ :=
    BitVector.exists_forBlocks_before hlaid horder hbody
  obtain ⟨block, hblock, hsize, _⟩ := h.exists_block_of_bvBlock hlaid hnum hbvBlock
  obtain ⟨otherBlock, hotherBlock, hotherSize, _⟩ :=
    hother.exists_block_of_bvBlock hlaid hnum hbvBlock
  exact ⟨mid, bvBlock, block, otherBlock, hmid, hget, hblock, hotherBlock, hsize, hotherSize⟩

end Column

/-- **The parallel block loops are order independent.**  For two columns built for
one type, width and size, and any bit vectors of that size: every order of the
iterations of either scan finds the blocks present with equal sizes and leaves the
same bit vector, and so do the loops of `And` and `Or` (on `this` or on another
vector), `SetOnes` and `SetZeros`; the sum of `CountOnes` is the same in every
order. -/
theorem blockLoops_orderIndependent (type : ColumnType) (bitWidth n : Nat) (c other : Column)
    (hc : c.Built type bitWidth n) (hother : other.Built type bitWidth n)
    (bv argument : BitVector) (hlaid : bv.LaidOut) (hnum : bv.num = n)
    (hargument : argument.LaidOut) (hargumentNum : argument.num = n)
    (cmp : Comparator) (literal : WordUnit) (opt : Bitwise) (operand : BitVector.Operand)
    (hoperand : operand = .this ∨ operand = .other argument) :
    IterationsFindBlocks n c other (fun order => c.scanIn order cmp literal bv opt) ∧
    OrderIndependent n (fun order => c.scanIn order cmp literal bv opt) ∧
    IterationsFindBlocks n c other (fun order => c.scanColumnIn order cmp other bv opt) ∧
    OrderIndependent n (fun order => c.scanColumnIn order cmp other bv opt) ∧
    OrderIndependent n (fun order => bv.and order operand) ∧
    OrderIndependent n (fun order => bv.or order operand) ∧
    OrderIndependent n (fun order => bv.setOnes order) ∧
    OrderIndependent n (fun order => bv.setZeros order) ∧
    OrderIndependent n (fun order => bv.countOnesIn order) := by
  obtain ⟨kind, _, hstores⟩ := Column.exists_kind_of_built type bitWidth
  have h := hstores n c hc
  have h' := hstores n other hother
  have hscan := Column.LaidOut.scan_body h.laidOut hlaid (hnum.trans h.num_eq.symm) cmp literal
    opt
  have hscanColumn := h.scanColumn_body h' hlaid hnum cmp opt
  refine ⟨h.iterationsFindBlocks h' hlaid hnum fun i block hblock =>
      (hscan i block hblock).imp fun _ hnew => hnew.1,
    BitVector.orderIndependent_forBlocks hlaid hnum hscan,
    h.iterationsFindBlocks h' hlaid hnum fun i block hblock =>
      (hscanColumn i block hblock).imp fun _ hnew => hnew.1,
    BitVector.orderIndependent_forBlocks hlaid hnum hscanColumn, ?_, ?_, ?_, ?_, ?_⟩
  · exact BitVector.orderIndependent_combine hlaid hnum hargument hargumentNum hoperand
      (fun _ => BitVectorBlock.num_combineWords _ _ _)
      fun _ _ => BitVectorBlock.num_combineWords _ _ _
  · exact BitVector.orderIndependent_combine hlaid hnum hargument hargumentNum hoperand
      (fun _ => BitVectorBlock.num_combineWords _ _ _)
      fun _ _ => BitVectorBlock.num_combineWords _ _ _
  · exact BitVector.orderIndependent_forBlocks hlaid hnum fun _ block _ =>
      ⟨block.setOnes, rfl, block.num_setOnes⟩
  · exact BitVector.orderIndependent_forBlocks hlaid hnum fun _ block _ =>
      ⟨block.setZeros, rfl, block.num_setZeros⟩
  · subst hnum
    exact ⟨_, fun order horder => BitVector.countOnesIn_eq_sum hlaid horder⟩

/-- Columns of `2^20 + 1` tuples have two blocks: scanning them last block first
leaves the same vector as in ascending order. -/
theorem blockLoops_orderIndependent_two :
    ∃ c bv out, Column.new .kNaive 8 1048577 = some c ∧ BitVector.new 1048577 = some bv ∧
      c.scanIn [1, 0] .kLess 5#64 bv .kAnd = some out ∧
      c.scanIn [0, 1] .kLess 5#64 bv .kAnd = some out := by
  have hkind : Column.blockKind .kNaive 8 = some (.naive .uint8) := rfl
  obtain ⟨c, hnew, _⟩ := Column.exists_new hkind 1048577
  obtain ⟨bv, hbv, hholds⟩ := BitVector.exists_new 1048577
  have hbuilt := Column.built_new hnew
  have hcount : chunkCount kNumTuplesPerBlock 1048577 = 2 :=
    chunkCount_eq_succ kNumTuplesPerBlock_pos (by decide) (by decide)
  have hasc : BitVector.IsSchedule 1048577 [0, 1] := by
    rw [BitVector.IsSchedule, hcount]
    decide
  have hdesc : BitVector.IsSchedule 1048577 [1, 0] := by
    rw [BitVector.IsSchedule, hcount]
    decide
  obtain ⟨_, ⟨out, hout⟩, _⟩ := blockLoops_orderIndependent .kNaive 8 1048577 c c hbuilt hbuilt
    bv bv hholds.laidOut hholds.num_eq hholds.laidOut hholds.num_eq .kLess 5#64 .kAnd .this
    (Or.inl rfl)
  exact ⟨c, bv, out, hnew, hbv, hout _ hdesc, hout _ hasc⟩

end ByteSlice
