import Mathlib
import ByteSlice.ColumnArray
import ByteSlice.QueryFootprint
import ByteSlice.ScanStep

/-!
# What a conjunctive query reads of its columns

The loads of the scans of a conjunctive query, in terms of the numbers that the columns
return and of nothing else: not of bytes, blocks' contents or words of the bit vector.

A scan compares from the most significant byte on.  What it has seen of a code after `j`
bytes are the code's leading `j` bytes, left-aligned as they are stored, and it goes on only
for tuples that all predicates before have accepted and whose leading bytes are those of the
operand.
-/

namespace ByteSlice

open Foundation

theorem BitWidth.eq_of_bits {w w' : BitWidth} (h : w.bits = w'.bits) : w = w' := by
  cases w
  cases w'
  obtain rfl := h
  rfl

namespace ByteSliceColumnBlock

variable {w : BitWidth}

/-- The first `j` bytes of a padded code, as a number. -/
def leadingBytes (w : BitWidth) (j code : Nat) : Nat :=
  code * 2 ^ kNumPaddingBits w / 256 ^ (kNumBytesPerCode w - j)

/-- Bytes that agree up to the `j`-th one, in terms of the two codes. -/
theorem leadingBytes_eq_iff {x y : Nat → Nat} (hx : ∀ k, x k < 256) (hy : ∀ k, y k < 256)
    {a b : Nat} (ha : prefixValue 256 x (kNumBytesPerCode w) = a * 2 ^ kNumPaddingBits w)
    (hb : prefixValue 256 y (kNumBytesPerCode w) = b * 2 ^ kNumPaddingBits w) {j : Nat}
    (hj : j ≤ kNumBytesPerCode w) :
    (∀ k, k < j → x k = y k) ↔ leadingBytes w j a = leadingBytes w j b := by
  unfold leadingBytes
  rw [← ha, ← hb, prefixValue_div hx hj, prefixValue_div hy hj]
  exact (prefixValue_eq_iff hx hy j).symm

theorem literalDigit_lt (w : BitWidth) (literal : WordUnit) (byteId : Nat) :
    literalDigit w literal byteId < 256 := Nat.mod_lt _ (by decide)

/-- The tuples of a block that agree with a literal in the first bytes. -/
theorem digits_eq_literal_iff {b : ByteSliceColumnBlock w .kRight} (hclean : b.PaddingClean)
    {p : Nat} (hp : p < kNumTuplesPerBlock) (literal : WordUnit) {j : Nat}
    (hj : j < kNumBytesPerCode w) :
    (∀ k, k < j → b.digit p k = literalDigit w literal k) ↔
      leadingBytes w j (b.getTuple p).toNat = leadingBytes w j (literal.toNat % 2 ^ w.bits) :=
  leadingBytes_eq_iff (b.digit_lt p) (literalDigit_lt w literal) (hclean.stored_eq hp)
    (prefixValue_maskLiteral w literal) (Nat.le_of_lt hj)

/-- The tuples of two blocks that agree in the first bytes. -/
theorem digits_eq_block_iff {b otherBlock : ByteSliceColumnBlock w .kRight}
    (hclean : b.PaddingClean) (hother : otherBlock.PaddingClean) {p : Nat}
    (hp : p < kNumTuplesPerBlock) {j : Nat} (hj : j < kNumBytesPerCode w) :
    (∀ k, k < j → b.digit p k = otherBlock.digit p k) ↔
      leadingBytes w j (b.getTuple p).toNat = leadingBytes w j (otherBlock.getTuple p).toNat :=
  leadingBytes_eq_iff (b.digit_lt p) (otherBlock.digit_lt p) (hclean.stored_eq hp)
    (hother.stored_eq hp) (Nat.le_of_lt hj)

end ByteSliceColumnBlock

namespace ScanStep

variable {ι : Type}

/-- The accesses of the step's iteration on one block. -/
def blockAccesses (columns : ι → Column) (bv : BitVector) (step : ScanStep ι) (blockId : Nat) :
    Option (List ScanAccess) :=
  (bv.blocks[blockId]?).bind fun bvBlock =>
    match step.operand with
    | .literal value =>
        ((columns step.column).blocks[blockId]?).map fun block =>
          block.scanAccesses step.cmp value bvBlock step.opt
    | .column other =>
        ((columns step.column).blocks[blockId]?).bind fun block =>
          ((columns other).blocks[blockId]?).bind fun otherBlock =>
            block.scanBlockAccesses step.cmp otherBlock bvBlock step.opt

/-- The number that tuple `id` is compared with. -/
def operandValue (contents : ι → Nat → Nat) (step : ScanStep ι) (id : Nat) : Nat :=
  match step.operand with
  | .literal value => value.toNat
  | .column other => contents other id

theorem foldl_onBits_kAnd (contents : ι → Nat → Nat) {steps : List (ScanStep ι)}
    (hand : ∀ step ∈ steps, step.opt = .kAnd) (bits : Nat → Bool) (id : Nat) :
    steps.foldl (onBits contents) bits id = true ↔
      bits id = true ∧ ∀ step ∈ steps, step.outcome contents id = true := by
  induction steps generalizing bits with
  | nil => simp
  | cons step steps ih =>
      have hbit : step.onBits contents bits id = true ↔
          bits id = true ∧ step.outcome contents id = true := by
        unfold onBits
        rw [hand step List.mem_cons_self]
        exact (Bool.and_eq_true _ _).to_iff
      rw [List.foldl_cons, ih (fun step' hstep' => hand step' (List.mem_cons_of_mem _ hstep')),
        hbit, List.forall_mem_cons, and_assoc]

variable {columns : ι → Column} {widths : ι → Nat} {n : Nat} {bv : BitVector} {bits : Nat → Bool}

/-- The lanes in reach of a scan whose bits are set are those of tuples. -/
theorem getBit_lane_iff (hbv : bv.Holds n bits) {blockId : Nat} {bvBlock : BitVectorBlock}
    (hbvBlock : bv.blocks[blockId]? = some bvBlock) {p : Nat} (hword : p / 64 * 64 < bvBlock.num) :
    bvBlock.getBit p = true ↔
      p < bvBlock.num ∧ bits (blockId * kNumTuplesPerBlock + p) = true := by
  rw [(hbv.tailClear bvBlock (List.mem_of_getElem? hbvBlock)).getBit_of_word hword,
    Bool.and_eq_true, decide_eq_true_iff]
  exact and_congr_right fun hp => by rw [hbv.getBit_block hbvBlock hp]

/-- The slice loads of one block's iteration, as ids. -/
theorem slice_mem_kAnd (hbv : bv.Holds n bits) {blockId : Nat} {bvBlock : BitVectorBlock}
    (hbvBlock : bv.blocks[blockId]? = some bvBlock) {w : BitWidth}
    {b : ByteSliceColumnBlock w .kRight} (hnum : b.numTuples = bvBlock.num) (cmp : Comparator)
    {operand : Nat → Nat → AvxUnit} {digit : Nat → Nat → Nat}
    (hoperand : ByteSliceColumnBlock.OperandDigits operand digit) {agrees : Nat → Prop} {j a : Nat}
    (hagrees : ∀ p, j < ByteSliceColumnBlock.kNumBytesPerCode w → p < bvBlock.num →
      ((∀ k, k < j → b.digit p k = digit p k) ↔ agrees (blockId * kNumTuplesPerBlock + p))) :
    .slice j a ∈ b.scanAccesses cmp .kAnd operand bvBlock ↔
      32 ∣ a ∧ j < ByteSliceColumnBlock.kNumBytesPerCode w ∧ ∃ id, id < n ∧
        id / kNumTuplesPerBlock = blockId ∧
        (a ≤ id % kNumTuplesPerBlock ∧ id % kNumTuplesPerBlock < a + 32) ∧
        bits id = true ∧ agrees id := by
  have hlaid : LaidOut kNumTuplesPerBlock BitVectorBlock.num n bv.blocks := by
    rw [← hbv.num_eq]
    exact hbv.laidOut
  rw [← hlaid.exists_position_iff kNumTuplesPerBlock_pos hbvBlock
    (P := fun p id => (a ≤ p ∧ p < a + 32) ∧ bits id = true ∧ agrees id),
    ByteSliceColumnBlock.slice_mem_scanAccesses cmp .kAnd b bvBlock hoperand, hnum]
  constructor
  · rintro ⟨hdvd, hword, hj, l, hl, hbit, heq⟩
    rw [Bitwise.matters_kAnd, getBit_lane_iff hbv hbvBlock (by omega)] at hbit
    exact ⟨hdvd, hj, a + l, hbit.1, ⟨by omega, by omega⟩, hbit.2, (hagrees _ hj hbit.1).mp heq⟩
  · rintro ⟨hdvd, hj, p, hp, ⟨hlow, hhigh⟩, hset, hag⟩
    obtain ⟨l, rfl⟩ := Nat.exists_eq_add_of_le hlow
    refine ⟨hdvd, by omega, hj, l, by omega, ?_, (hagrees _ hj hp).mpr hag⟩
    rw [Bitwise.matters_kAnd, getBit_lane_iff hbv hbvBlock (by omega)]
    exact ⟨hp, hset⟩

end ScanStep

namespace Column.Stores

variable {c other : Column} {w : BitWidth} {n : Nat} {content otherContent : Nat → Nat}
  {bv : BitVector} {bits : Nat → Bool} {blockId : Nat} {bvBlock : BitVectorBlock}

/-- The block of an iteration, in a column of byte slices. -/
theorem exists_byteSlice (h : Stores c (.byteSlice w) n content) (hbv : bv.Holds n bits)
    (hbvBlock : bv.blocks[blockId]? = some bvBlock) :
    ∃ b : ByteSliceColumnBlock w .kRight, c.blocks[blockId]? = some (.byteSlice w b) ∧
      b.numTuples = bvBlock.num ∧ b.PaddingClean ∧
      ∀ p, p < bvBlock.num → (b.getTuple p).toNat = content (blockId * kNumTuplesPerBlock + p) := by
  obtain ⟨block, hblock, hnum, hkind, hsound⟩ :=
    h.exists_block_of_bvBlock hbv.laidOut hbv.num_eq hbvBlock
  cases block with
  | naive dt b => cases hkind
  | byteSlice w' b =>
      obtain rfl := BlockKind.byteSlice.inj hkind
      refine ⟨b, hblock, hnum, hsound, fun p hp => ?_⟩
      exact h.getTuple_block hblock (hp.trans_eq hnum.symm)

end Column.Stores

namespace ScanStep

variable {ι : Type} {columns : ι → Column} {w : ι → BitWidth} {n : Nat}
  {contents : ι → Nat → Nat} {bv : BitVector} {bits : Nat → Bool}

/-- A byte of 32 tuples of a block is loaded exactly when one of them is chosen and agrees
with its value in the bytes before. -/
def LoadsForChosen (w : BitWidth) (n : Nat) (content value : Nat → Nat) (chosen : Nat → Prop)
    (blockId : Nat) (accesses : List ScanAccess) : Prop :=
  ∀ j a, .slice j a ∈ accesses ↔
    32 ∣ a ∧ j < ByteSliceColumnBlock.kNumBytesPerCode w ∧ ∃ id, id < n ∧
      id / kNumTuplesPerBlock = blockId ∧
      (a ≤ id % kNumTuplesPerBlock ∧ id % kNumTuplesPerBlock < a + 32) ∧ chosen id ∧
      ByteSliceColumnBlock.leadingBytes w j (content id) =
        ByteSliceColumnBlock.leadingBytes w j (value id)

/-- One iteration of a conjunctive scan. -/
theorem exists_blockAccesses
    (hstores : ∀ i, (columns i).Stores (.byteSlice (w i)) n (contents i))
    (hbv : bv.Holds n bits) {step : ScanStep ι} (hand : step.opt = .kAnd)
    (hstep : step.WellFormed (fun _ => .kByteSlicePadRight) (fun i => (w i).bits) n)
    {blockId : Nat} (hblockId : blockId < bv.getNumBlocks) :
    ∃ accesses, step.blockAccesses columns bv blockId = some accesses ∧
      LoadsForChosen (w step.column) n (contents step.column) (step.operandValue contents)
        (fun id => bits id = true) blockId accesses := by
  obtain ⟨column, cmp, operand, opt, order⟩ := step
  obtain rfl : opt = .kAnd := hand
  obtain ⟨_, hoperand⟩ := hstep
  have hbvBlock := List.getElem?_eq_getElem hblockId
  obtain ⟨b, hblock, hnum, hclean, htuple⟩ := (hstores column).exists_byteSlice hbv hbvBlock
  cases operand with
  | literal value =>
      have haccesses : blockAccesses columns bv ⟨column, cmp, .literal value, .kAnd, order⟩
          blockId = some ((ColumnBlock.byteSlice (w column) b).scanAccesses cmp value
            bv.blocks[blockId] .kAnd) := by
        unfold blockAccesses
        rw [hbvBlock, Option.bind_some]
        exact Option.map_eq_some_iff.mpr ⟨_, hblock, rfl⟩
      refine ⟨_, haccesses, fun j a => slice_mem_kAnd hbv hbvBlock hnum cmp
        (ByteSliceColumnBlock.operandDigits_maskLiteral (w column) value) fun p hj hp => ?_⟩
      refine (ByteSliceColumnBlock.digits_eq_literal_iff hclean
        (hp.trans_le (BitVectorBlock.num_le _)) value hj).trans ?_
      rw [htuple p hp, Nat.mod_eq_of_lt hoperand]
      rfl
  | column other =>
      obtain ⟨b', hblock', _, hclean', htuple'⟩ :
          ∃ b' : ByteSliceColumnBlock (w column) .kRight,
            (columns other).blocks[blockId]? = some (.byteSlice (w column) b') ∧
            b'.numTuples = bv.blocks[blockId].num ∧ b'.PaddingClean ∧
            ∀ p, p < bv.blocks[blockId].num →
              (b'.getTuple p).toNat = contents other (blockId * kNumTuplesPerBlock + p) := by
        have hsame : w other = w column := BitWidth.eq_of_bits hoperand.2
        rw [← hsame]
        exact (hstores other).exists_byteSlice hbv hbvBlock
      have haccesses : blockAccesses columns bv ⟨column, cmp, .column other, .kAnd, order⟩
          blockId = some (b.scanAccesses cmp .kAnd
            (fun byteId addr => mm256LddquSi256 (load b'.data byteId) addr)
            bv.blocks[blockId]) := by
        unfold blockAccesses
        rw [hbvBlock, Option.bind_some]
        dsimp only
        rw [hblock, hblock', Option.bind_some, Option.bind_some]
        exact dif_pos rfl
      refine ⟨_, haccesses, fun j a => slice_mem_kAnd hbv hbvBlock hnum cmp
        (fun byteId addr _ hl => ByteSliceColumnBlock.flip_lane_lddqu b' byteId addr hl)
        fun p hj hp => ?_⟩
      refine (ByteSliceColumnBlock.digits_eq_block_iff hclean hclean'
        (hp.trans_le (BitVectorBlock.num_le _)) hj).trans ?_
      rw [htuple p hp, htuple' p hp]
      rfl

end ScanStep

/-- **What a conjunctive query reads.**  Over any family of byte-slice columns of `n` tuples
that construction and writes in range have made, run any conjunctive scans, against codes of
the column's width or other columns, on a bit vector with clear tails.  When the next one is
run, then in every block it loads byte `j` of 32 tuples if and only if one of these has a code
whose leading `j` bytes are those of its operand and was chosen at the start and by every scan
before. -/
theorem conjunction_footprint {ι : Type} (columns : ι → Column) (w : ι → BitWidth) (n : Nat)
    (hbuilt : ∀ i, (columns i).Built .kByteSlicePadRight (w i).bits n)
    (before : List (ScanStep ι)) (step : ScanStep ι)
    (hsteps : ∀ s ∈ before ++ [step], s.opt = .kAnd ∧
      s.WellFormed (fun _ => .kByteSlicePadRight) (fun i => (w i).bits) n)
    (start : BitVector) (bits : Nat → Bool) (hstart : start.Holds n bits) :
    ∃ mid, runOps (ScanStep.exec columns) start before = some mid ∧
      ∀ blockId, blockId < chunkCount kNumTuplesPerBlock n →
        ∃ accesses, step.blockAccesses columns mid blockId = some accesses ∧
          ScanStep.LoadsForChosen (w step.column) n (columns step.column).tuple
            (step.operandValue fun i => (columns i).tuple)
            (fun id => bits id = true ∧
              ∀ s ∈ before, s.outcome (fun i => (columns i).tuple) id = true)
            blockId accesses := by
  have hkinds : ∀ i, Column.blockKind .kByteSlicePadRight (w i).bits = some (.byteSlice (w i)) :=
    fun i => dif_pos ⟨(w i).pos, (w i).le⟩
  have hstores : ∀ i, (columns i).Stores (.byteSlice (w i)) n (columns i).tuple :=
    fun i => (hbuilt i).stores (hkinds i)
  have hbefore : ∀ s ∈ before, s.opt = .kAnd ∧
      s.WellFormed (fun _ => .kByteSlicePadRight) (fun i => (w i).bits) n :=
    fun s hs => hsteps s (List.mem_append_left _ hs)
  obtain ⟨hand, hstep⟩ := hsteps step (List.mem_append_right _ (List.mem_singleton.mpr rfl))
  obtain ⟨mid, hrun, hmid⟩ : ∃ mid, runOps (ScanStep.exec columns) start before = some mid ∧
      mid.Holds n (before.foldl (ScanStep.onBits fun i => (columns i).tuple) bits) :=
    runOps_simulates (fun bv bits => BitVector.Holds bv n bits)
      (fun bv bits s hbv (hs : s.WellFormed (fun _ => .kByteSlicePadRight)
          (fun i => (w i).bits) n) => ScanStep.exists_exec hkinds hstores hbv s hs) hstart
      (admissibleRun_of_forall (fun s hs _ => (hbefore s hs).2) _)
  refine ⟨mid, hrun, fun blockId hblockId => ?_⟩
  have hcount : mid.getNumBlocks = chunkCount kNumTuplesPerBlock n := by
    rw [← hmid.num_eq]
    exact hmid.laidOut.length_blocks
  obtain ⟨accesses, haccesses, hloads⟩ := ScanStep.exists_blockAccesses hstores hmid hand hstep
    (hblockId.trans_eq hcount.symm)
  refine ⟨accesses, haccesses, fun j a => (hloads j a).trans ?_⟩
  simp only [ScanStep.foldl_onBits_kAnd _ fun s hs => (hbefore s hs).1]

/-- Three tuples of eleven bits that were never written.  None is less than `0`, so the next
scan loads nothing. -/
theorem conjunction_footprint_three :
    ∃ c start mid accesses, Column.new .kByteSlicePadRight 11 3 = some c ∧
      BitVector.newIn [0] 3 = some start ∧
      runOps (ScanStep.exec fun _ : Unit => c) start [⟨(), .kLess, .literal 0#64, .kAnd, [0]⟩] =
        some mid ∧
      ScanStep.blockAccesses (fun _ : Unit => c) mid ⟨(), .kEqual, .column (), .kAnd, [0]⟩ 0 =
        some accesses ∧
      ∀ j a, .slice j a ∉ accesses := by
  have hkind : Column.blockKind .kByteSlicePadRight 11 =
      some (.byteSlice ⟨11, by omega, by omega⟩) := rfl
  have horder := BitVector.isSchedule_singleton (show 0 < 3 by omega) (by decide)
  obtain ⟨c, hnew, _⟩ := Column.exists_new hkind 3
  obtain ⟨start, hstart, hholds⟩ := BitVector.exists_newIn horder
  obtain ⟨mid, hrun, hblocks⟩ := conjunction_footprint (fun _ : Unit => c)
    (fun _ => ⟨11, by omega, by omega⟩) 3 (fun _ => Column.built_new hnew)
    [⟨(), .kLess, .literal 0#64, .kAnd, [0]⟩] ⟨(), .kEqual, .column (), .kAnd, [0]⟩ (by
      intro s hs
      rcases List.mem_cons.mp hs with rfl | hs
      · exact ⟨rfl, horder, by decide⟩
      · rw [List.mem_singleton.mp hs]
        exact ⟨rfl, horder, rfl, rfl⟩) start (fun _ => true) hholds
  obtain ⟨accesses, haccesses, hloads⟩ := hblocks 0 (by decide)
  refine ⟨c, start, mid, accesses, hnew, hstart, hrun, haccesses, fun j a hmem => ?_⟩
  obtain ⟨_, _, id, _, _, _, ⟨_, hfirst⟩, _⟩ := (hloads j a).mp hmem
  have houtcome := hfirst _ (List.mem_singleton.mpr rfl)
  exact absurd houtcome (by simp [ScanStep.outcome, Comparator.holds])

end ByteSlice
