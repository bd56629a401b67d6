import Mathlib
import ByteSlice.BitVectorBlock
import ByteSlice.Foundation.Blocks

/-!
# `BitVector`

A bit vector is cut into blocks the way a column is.  Its block loops run under
OpenMP with dynamic scheduling, so each of them takes the order in which its
iterations happened as an argument; an iteration owns the block it names.  The
outcome `none` stands for an access to a block that does not exist.

`BitVector.LaidOut` is what the constructor establishes and every operation
keeps: the number of blocks and the size of each.  `bit` is the content of the
vector as a function of the position, the abstraction in which all results are
stated.
-/

namespace ByteSlice

open Foundation

structure BitVector where
  num : Nat
  blocks : List BitVectorBlock

namespace BitVector

/-- The argument of `And` and `Or`: a pointer that may be `this`. -/
inductive Operand
  | this
  | other (bitvector : BitVector)

def getNumBlocks (bv : BitVector) : Nat := bv.blocks.length

def getBVBlock (bv : BitVector) (id : Nat) : Option BitVectorBlock := bv.blocks[id]?

/-- A parallel loop over the blocks, with its iterations in the given order. -/
def forBlocks (order : List Nat) (body : Nat → BitVectorBlock → Option BitVectorBlock)
    (bv : BitVector) : Option BitVector :=
  (runCells body order bv.blocks).map fun blocks => { bv with blocks := blocks }

def setOnes (order : List Nat) (bv : BitVector) : Option BitVector :=
  forBlocks order (fun _ block => some block.setOnes) bv

def setZeros (order : List Nat) (bv : BitVector) : Option BitVector :=
  forBlocks order (fun _ block => some block.setZeros) bv

/-- The loop of `And` and `Or`: each block is combined with the block of the same
index, or with itself when the argument is `this`. -/
def combine (this : BitVectorBlock → BitVectorBlock)
    (other : BitVectorBlock → BitVectorBlock → BitVectorBlock) (order : List Nat)
    (bv : BitVector) (bitvector : Operand) : Option BitVector :=
  forBlocks order (fun i block =>
    match bitvector with
    | .this => some (this block)
    | .other argument => (argument.getBVBlock i).map (other block)) bv

def and (order : List Nat) (bv : BitVector) (bitvector : Operand) : Option BitVector :=
  combine BitVectorBlock.andThis BitVectorBlock.and order bv bitvector

def or (order : List Nat) (bv : BitVector) (bitvector : Operand) : Option BitVector :=
  combine BitVectorBlock.orThis BitVectorBlock.or order bv bitvector

/-- The reduction over the blocks. -/
def countOnesIn (order : List Nat) (bv : BitVector) : Option Nat :=
  order.foldlM (fun count i => (bv.getBVBlock i).map fun block => count + block.countOnes) 0

/-- The constructor's loop. -/
def newBlocks (num : Nat) : List BitVectorBlock :=
  forLoop num kNumTuplesPerBlock kNumTuplesPerBlock_pos
    (fun count h blocks =>
      blocks ++ [BitVectorBlock.new (min kNumTuplesPerBlock (num - count))
        (Nat.lt_min.mpr ⟨kNumTuplesPerBlock_pos, Nat.sub_pos_of_lt h⟩)
        (Nat.min_le_left _ _)])
    0 []

/-- The constructor, whose last action is `SetOnes`. -/
def newIn (order : List Nat) (num : Nat) : Option BitVector :=
  setOnes order { num := num, blocks := newBlocks num }

def getBit (bv : BitVector) (pos : Nat) : Option Bool :=
  let blockId := pos / kNumTuplesPerBlock
  let posInBlock := pos % kNumTuplesPerBlock
  (bv.blocks[blockId]?).map fun block => block.getBit posInBlock

def setBit (bv : BitVector) (pos : Nat) : Option BitVector :=
  let blockId := pos / kNumTuplesPerBlock
  let posInBlock := pos % kNumTuplesPerBlock
  forBlocks [blockId] (fun _ block => some (block.setBit posInBlock)) bv

def unsetBit (bv : BitVector) (pos : Nat) : Option BitVector :=
  let blockId := pos / kNumTuplesPerBlock
  let posInBlock := pos % kNumTuplesPerBlock
  forBlocks [blockId] (fun _ block => some (block.unsetBit posInBlock)) bv

/-! The sequential forms, with `block_id` ascending. -/

/-- `block_id` ascending. -/
def ascending (num : Nat) : List Nat := List.range (chunkCount kNumTuplesPerBlock num)

def new (num : Nat) : Option BitVector := newIn (ascending num) num

def countOnes (bv : BitVector) : Option Nat := countOnesIn (ascending bv.num) bv

/-! ## Layout -/

/-- The number of blocks and their sizes are those of the constructor. -/
abbrev LaidOut (bv : BitVector) : Prop :=
  Foundation.LaidOut kNumTuplesPerBlock BitVectorBlock.num bv.num bv.blocks

/-- Every block has a clear tail. -/
def TailClear (bv : BitVector) : Prop :=
  ∀ block ∈ bv.blocks, block.TailClear

theorem newBlocks_laidOut (num : Nat) :
    LaidOut { num := num, blocks := newBlocks num } :=
  laidOut_of_forLoop_append kNumTuplesPerBlock_pos _ fun _ _ => BitVectorBlock.num_new _ _ _

/-- An iteration order of the block loops of a vector of `num` bits. -/
def IsSchedule (num : Nat) (order : List Nat) : Prop :=
  order.Perm (List.range (chunkCount kNumTuplesPerBlock num))

theorem isSchedule_ascending (num : Nat) : IsSchedule num (ascending num) :=
  List.Perm.refl _

/-- A vector that fits one block has one iteration. -/
theorem isSchedule_singleton {num : Nat} (hpos : 0 < num) (hle : num ≤ kNumTuplesPerBlock) :
    IsSchedule num [0] := by
  have hone : chunkCount kNumTuplesPerBlock num = 1 :=
    chunkCount_eq_succ kNumTuplesPerBlock_pos (by omega) (by omega)
  rw [IsSchedule, hone]
  exact List.Perm.refl _

/-- The step lemma of every block loop: if the body succeeds on each block and
keeps its size, the loop succeeds in any order, keeps the layout and acts block
by block. -/
theorem exists_forBlocks {bv : BitVector} (hlaid : bv.LaidOut) {order : List Nat}
    (horder : IsSchedule bv.num order)
    {body : Nat → BitVectorBlock → Option BitVectorBlock}
    (hbody : ∀ i block, bv.blocks[i]? = some block →
      ∃ new, body i block = some new ∧ new.num = block.num) :
    ∃ out, forBlocks order body bv = some out ∧ out.num = bv.num ∧ out.LaidOut ∧
      ∀ i block, bv.blocks[i]? = some block →
        ∃ new, body i block = some new ∧ new.num = block.num ∧
          out.blocks[i]? = some new := by
  have horder' : order.Perm (List.range bv.blocks.length) := by
    rw [hlaid.length_blocks]
    exact horder
  obtain ⟨blocks, hrun, hlen, hget⟩ := exists_runCells horder'
    (fun i block h => (hbody i block h).imp fun _ hnew => hnew.1)
  -- the cell that the run left is the one the body is known to make
  have hcells : ∀ i block, bv.blocks[i]? = some block →
      ∃ new, body i block = some new ∧ new.num = block.num ∧ blocks[i]? = some new := by
    intro i block hblock
    obtain ⟨new, hnew, hout⟩ := hget i block hblock
    obtain ⟨new', hnew', hnum⟩ := hbody i block hblock
    obtain rfl : new = new' := Option.some.inj (hnew.symm.trans hnew')
    exact ⟨new, hnew, hnum, hout⟩
  refine ⟨{ bv with blocks := blocks }, by simp [forBlocks, hrun], rfl, ⟨?_, ?_⟩, hcells⟩
  · exact hlen.trans hlaid.length_blocks
  · intro i new hnew
    have hlt : i < bv.blocks.length := by
      rw [← hlen]
      exact (List.getElem?_eq_some_iff.mp hnew).1
    have hblock : bv.blocks[i]? = some bv.blocks[i] := List.getElem?_eq_getElem hlt
    obtain ⟨new', _, hnum, hnew'⟩ := hcells i _ hblock
    obtain rfl : new = new' := Option.some.inj (hnew.symm.trans hnew')
    rw [hnum]
    exact hlaid.size_block i _ hblock

/-- When an iteration starts, whichever iterations ran before it, its block is
there and still the one the loop started with. -/
theorem exists_forBlocks_before {bv : BitVector} (hlaid : bv.LaidOut)
    {before after : List Nat} {i : Nat} (horder : IsSchedule bv.num (before ++ i :: after))
    {body : Nat → BitVectorBlock → Option BitVectorBlock}
    (hbody : ∀ i block, bv.blocks[i]? = some block → ∃ new, body i block = some new) :
    ∃ mid block, forBlocks before body bv = some mid ∧ mid.blocks[i]? = some block ∧
      bv.blocks[i]? = some block := by
  have hmem : ∀ k ∈ before ++ i :: after, k < bv.blocks.length := by
    intro k hk
    rw [hlaid.length_blocks]
    exact List.mem_range.mp (horder.mem_iff.mp hk)
  have hnodup : (before ++ i :: after).Nodup := horder.nodup_iff.mpr List.nodup_range
  -- no iteration runs twice, so none before this one touched its block
  have hi : i ∉ before := fun hmem =>
    (List.nodup_append.mp hnodup).2.2 i hmem i List.mem_cons_self rfl
  have hblock := List.getElem?_eq_getElem
    (hmem i (List.mem_append_right _ List.mem_cons_self))
  obtain ⟨blocks, hrun, _, _⟩ := exists_runCells
    (horder.trans (by rw [hlaid.length_blocks])) hbody
  obtain ⟨mid, hmid, _⟩ : ∃ mid, runCells body before bv.blocks = some mid ∧
      runCells body (i :: after) mid = some blocks := by
    unfold runCells at hrun
    rw [List.foldlM_append] at hrun
    exact Option.bind_eq_some_iff.mp hrun
  obtain ⟨_, _, hkept⟩ :=
    (runCells_eq_some_iff (List.nodup_append.mp hnodup).1 _ _).mp hmid
  refine ⟨{ bv with blocks := mid }, _, by simp [forBlocks, hmid], ?_, hblock⟩
  exact (hkept i hi).trans hblock

/-- The order of the iterations is irrelevant. -/
theorem forBlocks_perm {order order' : List Nat} (hperm : order.Perm order')
    (body : Nat → BitVectorBlock → Option BitVectorBlock) (bv : BitVector) :
    forBlocks order body bv = forBlocks order' body bv := by
  unfold forBlocks
  rw [runCells_perm hperm]

/-- The summand of a block in the reduction. -/
def blockOnes (bv : BitVector) (i : Nat) : Nat :=
  ((bv.getBVBlock i).map BitVectorBlock.countOnes).getD 0

theorem blockOnes_of_block {bv : BitVector} {i : Nat} {block : BitVectorBlock}
    (hblock : bv.blocks[i]? = some block) : bv.blockOnes i = block.countOnes :=
  congrArg (fun b : Option BitVectorBlock => (b.map BitVectorBlock.countOnes).getD 0) hblock

/-- The reduction finds every block and, in whatever order, returns their sum. -/
theorem countOnesIn_eq_sum {bv : BitVector} (hlaid : bv.LaidOut) {order : List Nat}
    (horder : IsSchedule bv.num order) :
    bv.countOnesIn order =
      some ((List.range (chunkCount kNumTuplesPerBlock bv.num)).map bv.blockOnes).sum := by
  -- generalised over the sum so far, for the induction along the order
  have hfold : ∀ (rest : List Nat) (acc : Nat), (∀ i ∈ rest, i ∈ order) →
      rest.foldlM (fun count i =>
        (bv.getBVBlock i).map fun block => count + block.countOnes) acc =
        some (acc + (rest.map bv.blockOnes).sum) := by
    intro rest
    induction rest with
    | nil =>
        intro acc _
        simp
    | cons i rest ih =>
        intro acc hmem
        have hlt : i < bv.blocks.length := by
          rw [hlaid.length_blocks]
          exact List.mem_range.mp (horder.mem_iff.mp (hmem i List.mem_cons_self))
        have hblock : bv.getBVBlock i = some bv.blocks[i] := List.getElem?_eq_getElem hlt
        rw [List.foldlM_cons, hblock, Option.map_some, ← blockOnes_of_block hblock]
        change rest.foldlM _ (acc + bv.blockOnes i) = _
        rw [ih _ fun j hj => hmem j (List.mem_cons_of_mem _ hj), List.map_cons, List.sum_cons,
          Nat.add_assoc]
  unfold countOnesIn
  rw [hfold order 0 fun _ hi => hi, Nat.zero_add, (horder.map bv.blockOnes).sum_eq]

/-! ## Bits -/

/-- The content of a vector: the bit at a position. -/
def bit (bv : BitVector) (pos : Nat) : Bool := (bv.getBit pos).getD false

theorem bit_eq_of_block {bv : BitVector} {pos : Nat} {block : BitVectorBlock}
    (hblock : bv.blocks[pos / kNumTuplesPerBlock]? = some block) :
    bv.bit pos = block.getBit (pos % kNumTuplesPerBlock) :=
  congrArg (Option.getD · false) (readAt_of_block hblock)

theorem getBit_eq_some {bv : BitVector} (hlaid : bv.LaidOut) {pos : Nat}
    (hpos : pos < bv.num) : bv.getBit pos = some (bv.bit pos) := by
  obtain ⟨block, hblock, _⟩ := hlaid.exists_block kNumTuplesPerBlock_pos hpos
  rw [bit_eq_of_block hblock]
  exact readAt_of_block hblock

/-- The bit of a block, seen from the vector. -/
theorem bit_mul_add {bv : BitVector} {i p : Nat} {block : BitVectorBlock}
    (hblock : bv.blocks[i]? = some block) (hp : p < kNumTuplesPerBlock) :
    bv.bit (i * kNumTuplesPerBlock + p) = block.getBit p :=
  congrArg (Option.getD · false) (readAt_mul_add hblock hp)

/-- The abstraction relation: a vector of `num` bits, laid out and with clear
tails, whose bit at each position below `num` is that of `content`. -/
structure Holds (bv : BitVector) (num : Nat) (content : Nat → Bool) : Prop where
  num_eq : bv.num = num
  laidOut : bv.LaidOut
  tailClear : bv.TailClear
  bit_eq : ∀ pos, pos < num → bv.bit pos = content pos

namespace Holds

variable {bv : BitVector} {num : Nat} {content : Nat → Bool}

/-- Only the content below `num` matters. -/
theorem congr (h : Holds bv num content) {content' : Nat → Bool}
    (heq : ∀ pos, pos < num → content pos = content' pos) : Holds bv num content' :=
  ⟨h.num_eq, h.laidOut, h.tailClear, fun pos hpos => (h.bit_eq pos hpos).trans (heq pos hpos)⟩

theorem getBit_eq (h : Holds bv num content) {pos : Nat} (hpos : pos < num) :
    bv.getBit pos = some (content pos) := by
  rw [getBit_eq_some h.laidOut (by rw [h.num_eq]; exact hpos), h.bit_eq pos hpos]

/-- What a block of the vector holds. -/
theorem getBit_block (h : Holds bv num content) {i : Nat} {block : BitVectorBlock}
    (hblock : bv.blocks[i]? = some block) {p : Nat} (hp : p < block.num) :
    block.getBit p = content (i * kNumTuplesPerBlock + p) := by
  have hlt : i * kNumTuplesPerBlock + p < num := by
    rw [← h.num_eq]
    exact h.laidOut.mul_add_lt hblock hp
  rw [← bit_mul_add hblock (hp.trans_le (h.laidOut.size_le hblock))]
  exact h.bit_eq _ hlt

/-- The words of a block hold the content; bits past the end of the vector, in the
last block's tail, are clear. -/
theorem getLsbD_getWordUnit (h : Holds bv num content) {i : Nat} {block : BitVectorBlock}
    (hblock : bv.blocks[i]? = some block) {k : Nat} (hk : k < block.numWordUnits) {j : Nat}
    (hj : j < kNumWordBits) :
    (block.getWordUnit k).getLsbD j =
      (decide (i * kNumTuplesPerBlock + k * kNumWordBits + j < num) &&
        content (i * kNumTuplesPerBlock + k * kNumWordBits + j)) := by
  rw [kNumWordBits_eq] at hj ⊢
  rw [← bitAt_mul_add block.getWordUnit k hj, ← block.getBit_eq, Nat.add_assoc, Nat.mul_comm k]
  by_cases hin : 64 * k + j < block.num
  · have hlt : i * kNumTuplesPerBlock + (64 * k + j) < num := by
      rw [← h.num_eq]
      exact h.laidOut.mul_add_lt hblock hin
    rw [h.getBit_block hblock hin, decide_eq_true hlt, Bool.true_and]
  -- only the last block has a tail, and its tail is past the end of the vector
  · have hpast : ¬ i * kNumTuplesPerBlock + (64 * k + j) < num := by
      have hsize := h.laidOut.size_block i block hblock
      have hwords := block.numWordUnits_le
      rw [h.num_eq, chunkSize] at hsize
      rw [kNumWordsPerBlock_eq] at hwords
      rw [kNumTuplesPerBlock_eq] at *
      omega
    rw [h.tailClear block (List.mem_of_getElem? hblock) _ (by omega) (by omega),
      decide_eq_false hpast, Bool.false_and]

/-- Vectors of one content have the same words in use. -/
theorem forall₂_words (h : Holds bv num content) {bv' : BitVector}
    (h' : Holds bv' num content) :
    List.Forall₂ (fun block block' : BitVectorBlock => block.num = block'.num ∧
      ∀ k, k < block.numWordUnits → block.getWordUnit k = block'.getWordUnit k)
      bv.blocks bv'.blocks := by
  have hlen : bv.blocks.length = bv'.blocks.length := by
    rw [h.laidOut.length_blocks, h'.laidOut.length_blocks, h.num_eq, h'.num_eq]
  refine List.forall₂_iff_get.mpr ⟨hlen, fun i hi hi' => ?_⟩
  have hblock := List.getElem?_eq_getElem hi
  have hblock' := List.getElem?_eq_getElem hi'
  have hnum : bv.blocks[i].num = bv'.blocks[i].num := by
    rw [h.laidOut.size_block i _ hblock, h'.laidOut.size_block i _ hblock', h.num_eq, h'.num_eq]
  refine ⟨hnum, fun k hk => BitVec.eq_of_getLsbD_eq fun j hj => ?_⟩
  have hk' : k < bv'.blocks[i].numWordUnits := by
    rw [← BitVectorBlock.numWordUnits_congr hnum]
    exact hk
  show (bv.blocks[i].getWordUnit k).getLsbD j = (bv'.blocks[i].getWordUnit k).getLsbD j
  rw [h.getLsbD_getWordUnit hblock hk hj, h'.getLsbD_getWordUnit hblock' hk' hj]

/-- The run lemma of the block loops on contents.  The new content may depend on
the old one only through the body. -/
theorem exists_forBlocks (hlaid : bv.LaidOut) (hnum : bv.num = num) {order : List Nat}
    (horder : IsSchedule num order)
    {body : Nat → BitVectorBlock → Option BitVectorBlock}
    (hbody : ∀ i block, bv.blocks[i]? = some block →
      ∃ new, body i block = some new ∧ new.num = block.num ∧ new.TailClear ∧
        ∀ p, p < block.num → new.getBit p = content (i * kNumTuplesPerBlock + p)) :
    ∃ out, forBlocks order body bv = some out ∧ Holds out num content := by
  subst hnum
  obtain ⟨out, hout, hnum, houtLaid, hblocks⟩ := BitVector.exists_forBlocks hlaid horder
    (fun i block h => (hbody i block h).imp fun _ hnew => ⟨hnew.1, hnew.2.1⟩)
  have hnew : ∀ i block, bv.blocks[i]? = some block → ∃ new, out.blocks[i]? = some new ∧
      new.TailClear ∧
      ∀ p, p < block.num → new.getBit p = content (i * kNumTuplesPerBlock + p) := by
    intro i block hblock
    obtain ⟨new, hnew, _, hget⟩ := hblocks i block hblock
    obtain ⟨new', hnew', _, htail, hbits⟩ := hbody i block hblock
    obtain rfl : new = new' := Option.some.inj (hnew.symm.trans hnew')
    exact ⟨new, hget, htail, hbits⟩
  refine ⟨out, hout, hnum, houtLaid, ?_, ?_⟩
  · intro new hmem
    obtain ⟨i, hi, hget⟩ := List.mem_iff_getElem.mp hmem
    have hlt : i < bv.blocks.length := by
      rw [hlaid.length_blocks, ← hnum, ← houtLaid.length_blocks]
      exact hi
    obtain ⟨new', hnew', htail, _⟩ := hnew i _ (List.getElem?_eq_getElem hlt)
    rw [List.getElem?_eq_getElem hi, hget] at hnew'
    rw [Option.some.inj hnew']
    exact htail
  · intro pos hpos
    obtain ⟨block, hblock, hp⟩ := hlaid.exists_block kNumTuplesPerBlock_pos hpos
    obtain ⟨new, hget, _, hbits⟩ := hnew _ block hblock
    rw [bit_eq_of_block hget, hbits _ hp, Nat.mul_comm, Nat.div_add_mod]

end Holds

/-! ## What the operations do -/

theorem exists_setOnes {bv : BitVector} (hlaid : bv.LaidOut) {order : List Nat}
    (horder : IsSchedule bv.num order) :
    ∃ out, setOnes order bv = some out ∧ Holds out bv.num (fun _ => true) :=
  Holds.exists_forBlocks hlaid rfl horder fun _ block _ =>
    ⟨block.setOnes, rfl, block.num_setOnes, block.tailClear_setOnes,
      fun _ hp => block.getBit_setOnes hp⟩

theorem exists_newIn {num : Nat} {order : List Nat} (horder : IsSchedule num order) :
    ∃ out, newIn order num = some out ∧ Holds out num (fun _ => true) :=
  exists_setOnes (newBlocks_laidOut num) horder

theorem exists_new (num : Nat) :
    ∃ out, new num = some out ∧ Holds out num (fun _ => true) :=
  exists_newIn (isSchedule_ascending num)

theorem holds_of_new {num : Nat} {bv : BitVector} (hnew : new num = some bv) :
    Holds bv num (fun _ => true) := by
  obtain ⟨bv', hnew', hholds⟩ := exists_new num
  obtain rfl : bv = bv' := Option.some.inj (hnew.symm.trans hnew')
  exact hholds

namespace Holds

variable {bv : BitVector} {num : Nat} {content : Nat → Bool}

theorem exists_setZeros (h : Holds bv num content) {order : List Nat}
    (horder : IsSchedule num order) :
    ∃ out, setZeros order bv = some out ∧ Holds out num (fun _ => false) :=
  exists_forBlocks h.laidOut h.num_eq horder fun _ block _ =>
    ⟨block.setZeros, rfl, block.num_setZeros, block.tailClear_setZeros,
      fun _ hp => block.getBit_setZeros (hp.trans_le block.num_le_numWordUnits)⟩

/-- What the argument of `And` and `Or` holds. -/
def OperandHolds (bv : BitVector) (num : Nat) (content other : Nat → Bool) : Operand → Prop
  | .this => Holds bv num content ∧ other = content
  | .other bitvector => Holds bitvector num other

/-- Both combinations run block by block against the block of the same index,
which exists because both vectors are cut alike. -/
theorem exists_block_other (h : Holds bv num content) {bitvector : BitVector}
    {other : Nat → Bool} (hother : Holds bitvector num other) {i : Nat}
    {block : BitVectorBlock} (hblock : bv.blocks[i]? = some block) :
    ∃ block', bitvector.getBVBlock i = some block' ∧ block'.num = block.num := by
  have hlaid := h.laidOut
  have hlaid' := hother.laidOut
  rw [LaidOut, h.num_eq] at hlaid
  rw [LaidOut, hother.num_eq] at hlaid'
  exact hlaid.exists_block_of_block hlaid' hblock

/-- A combination whose block operation keeps the size, clears the tail and acts
bit by bit combines the contents. -/
theorem exists_combine (h : Holds bv num content) {otherContent : Nat → Bool}
    {operand : Operand} (hoperand : OperandHolds bv num content otherContent operand)
    {order : List Nat} (horder : IsSchedule num order)
    {this : BitVectorBlock → BitVectorBlock}
    {other : BitVectorBlock → BitVectorBlock → BitVectorBlock} {bitOp : Bool → Bool → Bool}
    (hthis : ∀ b, this b = other b b) (hnum : ∀ b b', (other b b').num = b.num)
    (htail : ∀ b b', (other b b').TailClear)
    (hbit : ∀ (b b' : BitVectorBlock) {p : Nat}, p < b.num →
      (other b b').getBit p = bitOp (b.getBit p) (b'.getBit p)) :
    ∃ out, combine this other order bv operand = some out ∧
      Holds out num (fun pos => bitOp (content pos) (otherContent pos)) := by
  refine exists_forBlocks h.laidOut h.num_eq horder fun i block hblock => ?_
  cases operand with
  | this =>
      obtain ⟨_, rfl⟩ := hoperand
      refine ⟨other block block, by rw [← hthis], hnum _ _, htail _ _, fun p hp => ?_⟩
      rw [hbit _ _ hp, h.getBit_block hblock hp]
  | other bitvector =>
      obtain ⟨block', hblock', hsize⟩ := h.exists_block_other hoperand hblock
      refine ⟨other block block', by simp [hblock'], hnum _ _, htail _ _, fun p hp => ?_⟩
      rw [hbit _ _ hp, h.getBit_block hblock hp,
        Holds.getBit_block hoperand hblock' (by omega)]

theorem exists_and (h : Holds bv num content) {other : Nat → Bool} {operand : Operand}
    (hoperand : OperandHolds bv num content other operand) {order : List Nat}
    (horder : IsSchedule num order) :
    ∃ out, bv.and order operand = some out ∧
      Holds out num (fun pos => content pos && other pos) :=
  h.exists_combine hoperand horder BitVectorBlock.andThis_eq
    (fun _ _ => BitVectorBlock.num_combineWords _ _ _)
    (fun _ _ => BitVectorBlock.tailClear_combineWords _ _ _) BitVectorBlock.getBit_and

theorem exists_or (h : Holds bv num content) {other : Nat → Bool} {operand : Operand}
    (hoperand : OperandHolds bv num content other operand) {order : List Nat}
    (horder : IsSchedule num order) :
    ∃ out, bv.or order operand = some out ∧
      Holds out num (fun pos => content pos || other pos) :=
  h.exists_combine hoperand horder BitVectorBlock.orThis_eq
    (fun _ _ => BitVectorBlock.num_combineWords _ _ _)
    (fun _ _ => BitVectorBlock.tailClear_combineWords _ _ _) BitVectorBlock.getBit_or

/-- A write to the single position `pos` touches one block. -/
theorem exists_writeBit (h : Holds bv num content) {pos : Nat} (hpos : pos < num)
    (write : BitVectorBlock → BitVectorBlock) (value : Bool)
    (hnum : ∀ block, (write block).num = block.num)
    (htail : ∀ block, block.TailClear → pos % kNumTuplesPerBlock < block.num →
      (write block).TailClear)
    (hbit : ∀ block p, p < block.num → (write block).getBit p =
      if p = pos % kNumTuplesPerBlock then value else block.getBit p) :
    ∃ out, forBlocks [pos / kNumTuplesPerBlock] (fun _ block => some (write block)) bv =
        some out ∧ Holds out num (Function.update content pos value) := by
  have hlt : pos < bv.num := by
    rw [h.num_eq]
    exact hpos
  obtain ⟨block, hblock, hp⟩ := h.laidOut.exists_block kNumTuplesPerBlock_pos hlt
  refine ⟨{ bv with blocks := bv.blocks.set (pos / kNumTuplesPerBlock) (write block) }, ?_,
    h.num_eq, h.laidOut.set hblock (hnum block), ?_, fun pos' hpos' => ?_⟩
  · simp [forBlocks, runCells_cons, stepCell, hblock]
  · intro new hmem
    rcases List.mem_or_eq_of_mem_set hmem with hold | rfl
    · exact h.tailClear new hold
    · exact htail block (h.tailClear block (List.mem_of_getElem? hblock)) hp
  · have hread := h.laidOut.readAt_set kNumTuplesPerBlock_pos hblock (hbit block)
      (by rw [h.num_eq]; exact hpos')
    unfold bit
    refine (congrArg (Option.getD · false) hread).trans ?_
    by_cases hsame : pos' = pos
    · rw [if_pos hsame, hsame, Function.update_self]
      rfl
    · rw [if_neg hsame, Function.update_of_ne hsame]
      exact h.bit_eq pos' hpos'

theorem exists_setBit (h : Holds bv num content) {pos : Nat} (hpos : pos < num) :
    ∃ out, bv.setBit pos = some out ∧ Holds out num (Function.update content pos true) :=
  h.exists_writeBit hpos (fun block => block.setBit (pos % kNumTuplesPerBlock)) true
    (fun _ => rfl) (fun _ htail hp => BitVectorBlock.tailClear_setBit htail hp)
    (fun block p hp => by
      have hword := BitVectorBlock.word_lt_of_lt (hp.trans_le block.num_le_numWordUnits)
      rw [BitVectorBlock.getBit_setBit _ _ hword]
      split <;> simp_all)

theorem exists_unsetBit (h : Holds bv num content) {pos : Nat} (hpos : pos < num) :
    ∃ out, bv.unsetBit pos = some out ∧ Holds out num (Function.update content pos false) :=
  h.exists_writeBit hpos (fun block => block.unsetBit (pos % kNumTuplesPerBlock)) false
    (fun _ => rfl) (fun _ htail _ => BitVectorBlock.tailClear_unsetBit htail _)
    (fun block p hp => by
      have hword := BitVectorBlock.word_lt_of_lt (hp.trans_le block.num_le_numWordUnits)
      rw [BitVectorBlock.getBit_unsetBit _ _ hword]
      split <;> simp_all)

/-- The reduction adds up, in whatever order, the numbers of set positions of
the blocks; together they are the set positions of the vector. -/
theorem countOnesIn_eq (h : Holds bv num content) {order : List Nat}
    (horder : IsSchedule num order) :
    bv.countOnesIn order = some (positions content num).length := by
  have hblocks : (List.range (chunkCount kNumTuplesPerBlock num)).map bv.blockOnes =
      (List.range (chunkCount kNumTuplesPerBlock num)).map fun i =>
        (positions (fun p => content (i * kNumTuplesPerBlock + p))
          (chunkSize kNumTuplesPerBlock num i)).length := by
    refine List.map_congr_left fun i hi => ?_
    have hlt : i < bv.blocks.length := by
      rw [h.laidOut.length_blocks, h.num_eq]
      exact List.mem_range.mp hi
    have hblock := List.getElem?_eq_getElem hlt
    have hnum : bv.blocks[i].num = chunkSize kNumTuplesPerBlock num i := by
      rw [h.laidOut.size_block i _ hblock, h.num_eq]
    -- the tail is clear, so the popcount of the words counts no position past the block
    rw [blockOnes_of_block hblock,
      BitVectorBlock.countOnes_eq (h.tailClear _ (List.mem_of_getElem? hblock)), hnum]
    congr 1
    exact positions_congr fun p hp => h.getBit_block hblock (by rw [hnum]; exact hp)
  rw [BitVector.countOnesIn_eq_sum h.laidOut (by rw [h.num_eq]; exact horder), h.num_eq, hblocks,
    positions_chunks kNumTuplesPerBlock_pos content num, List.length_flatMap]
  simp only [List.length_map]

theorem countOnes_eq (h : Holds bv num content) :
    bv.countOnes = some (positions content num).length :=
  h.countOnesIn_eq (by rw [h.num_eq]; exact isSchedule_ascending num)

end Holds

end BitVector

end ByteSlice
