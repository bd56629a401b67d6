import Mathlib
import ByteSlice.BlockLoops
import ByteSlice.Foundation.WorkSharing

/-!
# The parallel loops, one word access at a time

`BlockLoops` treats an iteration of a parallel loop as one action.  Here the threads of
the team interleave between any two accesses to the words of the bit vector: a word is
loaded by one step and stored by another, and `ClearTail` clears word after word.

All loops that write bit vector blocks have one shape.  For each word they read the word
some number of times, compute, and store; then some of them clear the tail.  `WordLoop`
is that shape, `WordLoop.step` its steps and `WordLoop.run` its outcome without
interruption.  Each loop of the source is one `WordLoop`, and `run` of it is the
operation on blocks of the sequential model; `CountOnes`, which writes nothing and has a
reduction, is a body of its own.
-/

namespace ByteSlice

open Foundation

/-- A loop over the words of a bit vector block.  At index `i` it owns the word
`i / stride`, which it reads `reads` times; `observe` is what a read does to the register
in which the word is computed, and `emit` what is stored in the end. -/
structure WordLoop where
  stop : Nat
  stride : Nat
  stride_pos : 0 < stride
  reads : Nat
  observe : Nat → Nat → WordUnit → WordUnit → WordUnit
  emit : Nat → WordUnit → WordUnit
  clear : Bool

/-- Where a thread is inside the loop, with its registers. -/
inductive WordRegisters
  | head (i : Nat)
  | reading (i read : Nat) (word : WordUnit)
  | zeroing (i numEmpty : Nat)
  | masking (i numEmpty : Nat) (word : WordUnit)

namespace WordLoop

variable (L : WordLoop)

/-- After the last word: `ClearTail`, for the loops that call it. -/
def leave (b : BitVectorBlock) : WordRegisters ⊕ Unit :=
  let numEmpty := kNumAvxBits - b.num % kNumAvxBits
  if L.clear ∧ kNumAvxBits ≠ numEmpty then
    .inl (.zeroing (b.numWordUnits - 1) numEmpty)
  else
    .inr ()

/-- One step: at most one word of the block is loaded or stored. -/
def step (b : BitVectorBlock) : WordRegisters → BitVectorBlock × (WordRegisters ⊕ Unit)
  | .head i => (b, if i < L.stop then .inl (.reading i 0 0#64) else L.leave b)
  | .reading i read word =>
      if read < L.reads then
        (b, .inl (.reading i (read + 1)
          (L.observe i read (b.getWordUnit (i / L.stride)) word)))
      else
        (b.setWordUnit (L.emit i word) (i / L.stride), .inl (.head (i + L.stride)))
  | .zeroing i numEmpty =>
      if kNumWordBits ≤ numEmpty then
        (b.setWordUnit 0#64 i, .inl (.zeroing (sizeSub i 1) (numEmpty - kNumWordBits)))
      else
        (b, .inl (.masking i numEmpty (b.getWordUnit i)))
  | .masking i numEmpty word => (b.setWordUnit (word &&& (-1#64) >>> numEmpty) i, .inr ())

/-- A bound on the steps to come. -/
def rank : WordRegisters → Nat
  | .head i => (L.stop - i) * (L.reads + 2) + kNumAvxBits + 3
  | .reading i read _ =>
      (L.stop - (i + L.stride)) * (L.reads + 2) + (L.reads - read) + kNumAvxBits + 4
  | .zeroing _ numEmpty => numEmpty + 2
  | .masking _ _ _ => 1

theorem rank_lt {b b' : BitVectorBlock} {regs regs' : WordRegisters}
    (hstep : L.step b regs = (b', .inl regs')) : L.rank regs' < L.rank regs := by
  have hstride := L.stride_pos
  cases regs with
  | head i =>
      obtain ⟨_, hregs⟩ := Prod.mk.inj hstep
      by_cases hi : i < L.stop
      · rw [if_pos hi] at hregs
        obtain rfl := Sum.inl.inj hregs
        have hmul : (L.stop - (i + L.stride) + 1) * (L.reads + 2) ≤
            (L.stop - i) * (L.reads + 2) := Nat.mul_le_mul_right _ (by omega)
        rw [Nat.add_mul] at hmul
        show (L.stop - (i + L.stride)) * (L.reads + 2) + (L.reads - 0) + kNumAvxBits + 4 <
          (L.stop - i) * (L.reads + 2) + kNumAvxBits + 3
        omega
      · rw [if_neg hi, leave] at hregs
        split at hregs
        · obtain rfl := Sum.inl.inj hregs
          show kNumAvxBits - b.num % kNumAvxBits + 2 <
            (L.stop - i) * (L.reads + 2) + kNumAvxBits + 3
          omega
        · cases hregs
  | reading i read word =>
      rw [step] at hstep
      split at hstep
      · obtain rfl := Sum.inl.inj (Prod.mk.inj hstep).2
        show (L.stop - (i + L.stride)) * (L.reads + 2) + (L.reads - (read + 1)) + kNumAvxBits + 4 <
          (L.stop - (i + L.stride)) * (L.reads + 2) + (L.reads - read) + kNumAvxBits + 4
        omega
      · obtain rfl := Sum.inl.inj (Prod.mk.inj hstep).2
        show (L.stop - (i + L.stride)) * (L.reads + 2) + kNumAvxBits + 3 <
          (L.stop - (i + L.stride)) * (L.reads + 2) + (L.reads - read) + kNumAvxBits + 4
        omega
  | zeroing i numEmpty =>
      rw [step] at hstep
      split at hstep
      · next hword =>
          rw [kNumWordBits_eq] at hword
          obtain rfl := Sum.inl.inj (Prod.mk.inj hstep).2
          show numEmpty - kNumWordBits + 2 < numEmpty + 2
          rw [kNumWordBits_eq]
          omega
      · obtain rfl := Sum.inl.inj (Prod.mk.inj hstep).2
        show 1 < numEmpty + 2
        omega
  | masking i numEmpty word =>
      cases (Prod.mk.inj hstep).2

/-- The loop of every block, as a body whose steps other threads may separate.  It fails
when the operand of a block is missing. -/
def stepwise (loops : Nat → Option WordLoop) : StepwiseBody BitVectorBlock WordRegisters Unit where
  start _ := .head 0
  step i b regs := (loops i).map fun L => L.step b regs
  rank i regs := ((loops i).map fun L => L.rank regs).getD 0
  rank_lt := by
    intro i b b' regs regs' hstep
    obtain ⟨L, hL, hstep⟩ := Option.map_eq_some_iff.mp hstep
    rw [hL]
    exact L.rank_lt hstep

/-- The word that is stored at index `i`, from the word that was there. -/
def word (i : Nat) (own : WordUnit) : WordUnit :=
  L.emit i ((List.range L.reads).foldl (fun word read => L.observe i read own word) 0#64)

/-- The loop from index `i` on, without interruption. -/
def words (i : Nat) (b : BitVectorBlock) : BitVectorBlock :=
  forLoop L.stop L.stride L.stride_pos
    (fun i _ b => b.setWordUnit (L.word i (b.getWordUnit (i / L.stride))) (i / L.stride)) i b

/-- The operation on a block, without interruption. -/
def run (b : BitVectorBlock) : BitVectorBlock :=
  if L.clear then (L.words 0 b).clearTail else L.words 0 b

/-! ## The steps, run to the end, are the loop -/

section Complete

variable {L} {loops : Nat → Option WordLoop} {n : Nat} (hL : loops n = some L)

include hL

theorem stepwise_step (b : BitVectorBlock) (regs : WordRegisters) :
    (stepwise loops).step n b regs = some (L.step b regs) := by
  show (loops n).map _ = _
  rw [hL]
  rfl

/-- The steps of `ClearTail`'s loop. -/
theorem complete_zeroing (data : Vector WordUnit kNumWordsPerBlock) (i numEmpty : Nat)
    (b : BitVectorBlock) (hdata : b.data = data) :
    (stepwise loops).complete n b (.zeroing i numEmpty) =
      some ({ b with data := BitVectorBlock.clearTailLoop data i numEmpty }, ()) := by
  induction data, i, numEmpty using BitVectorBlock.clearTailLoop.induct generalizing b with
  | case1 data i numEmpty hword ih =>
      subst hdata
      have hstep : (stepwise loops).step n b (.zeroing i numEmpty) =
          some (b.setWordUnit 0#64 i,
            .inl (.zeroing (sizeSub i 1) (numEmpty - kNumWordBits))) := by
        rw [stepwise_step hL, step, if_pos hword]
      have hloop : BitVectorBlock.clearTailLoop b.data i numEmpty =
          BitVectorBlock.clearTailLoop (store b.data i 0#64) (sizeSub i 1)
            (numEmpty - kNumWordBits) := by
        rw [BitVectorBlock.clearTailLoop, dif_pos hword]
      rw [(stepwise loops).complete_of_inl hstep, ih (b.setWordUnit 0#64 i) rfl, hloop]
      rfl
  | case2 data i numEmpty hword =>
      subst hdata
      have hload : (stepwise loops).step n b (.zeroing i numEmpty) =
          some (b, .inl (.masking i numEmpty (b.getWordUnit i))) := by
        rw [stepwise_step hL, step, if_neg hword]
      have hstore : (stepwise loops).step n b (.masking i numEmpty (b.getWordUnit i)) =
          some (b.setWordUnit (b.getWordUnit i &&& (-1#64) >>> numEmpty) i, .inr ()) := by
        rw [stepwise_step hL]
        rfl
      rw [(stepwise loops).complete_of_inl hload, (stepwise loops).complete_of_inr hstore,
        BitVectorBlock.clearTailLoop, dif_neg hword]
      rfl

/-- The steps of one iteration.  The register holds what the reads so far made of it. -/
theorem complete_reading (i read : Nat) (hread : read ≤ L.reads) (b : BitVectorBlock) :
    (stepwise loops).complete n b (.reading i read ((List.range read).foldl
      (fun word read => L.observe i read (b.getWordUnit (i / L.stride)) word) 0#64)) =
      (stepwise loops).complete n
        (b.setWordUnit (L.word i (b.getWordUnit (i / L.stride))) (i / L.stride))
        (.head (i + L.stride)) := by
  induction hn : L.reads - read generalizing read with
  | zero =>
      obtain rfl : read = L.reads := by omega
      refine (stepwise loops).complete_of_inl ?_
      rw [stepwise_step hL, step, if_neg (Nat.lt_irrefl _)]
      rfl
  | succ m ih =>
      have hlt : read < L.reads := by omega
      rw [← ih (read + 1) hlt (by omega)]
      refine (stepwise loops).complete_of_inl ?_
      rw [stepwise_step hL, step, if_pos hlt, List.range_succ, List.foldl_append]
      rfl

/-- The steps from the head of the loop on. -/
theorem complete_head (i : Nat) (b : BitVectorBlock) :
    (stepwise loops).complete n b (.head i) =
      some (if L.clear then (L.words i b).clearTail else L.words i b, ()) := by
  induction i, b using forLoop.induct L.stop L.stride L.stride_pos
      (fun i _ (b : BitVectorBlock) => b.setWordUnit
        (L.word i (b.getWordUnit (i / L.stride))) (i / L.stride)) with
  | case1 i b hi ih =>
      have henter : (stepwise loops).step n b (.head i) =
          some (b, .inl (.reading i 0 0#64)) := by
        rw [stepwise_step hL, step, if_pos hi]
      rw [(stepwise loops).complete_of_inl henter, words, forLoop_of_lt _ _ hi]
      exact (complete_reading hL i 0 (Nat.zero_le _) b).trans ih
  | case2 i b hi =>
      have hleave : (stepwise loops).step n b (.head i) = some (b, L.leave b) := by
        rw [stepwise_step hL, step, if_neg hi]
      rw [words, forLoop_of_le _ _ (Nat.not_lt.mp hi)]
      unfold leave at hleave
      unfold BitVectorBlock.clearTail
      dsimp only at hleave ⊢
      by_cases hclear : L.clear = true
      · rw [if_pos hclear]
        by_cases hfull : kNumAvxBits ≠ kNumAvxBits - b.num % kNumAvxBits
        · rw [if_pos ⟨hclear, hfull⟩] at hleave
          rw [if_pos hfull, (stepwise loops).complete_of_inl hleave]
          exact complete_zeroing hL b.data _ _ b rfl
        · rw [if_neg fun hand => hfull hand.2] at hleave
          rw [if_neg hfull]
          exact (stepwise loops).complete_of_inr hleave
      · rw [if_neg fun hand => hclear hand.1] at hleave
        rw [if_neg hclear]
        exact (stepwise loops).complete_of_inr hleave

theorem complete_start (b : BitVectorBlock) :
    (stepwise loops).complete n b ((stepwise loops).start n) = some (L.run b, ()) :=
  complete_head hL 0 b

end Complete

/-- Every interleaving of a parallel loop leaves what the sequential loop leaves. -/
theorem computes_of_forBlocks {loops : Nat → Option WordLoop}
    {body : Nat → BitVectorBlock → Option BitVectorBlock} {bv out : BitVector}
    (hlaid : bv.LaidOut)
    (hloops : ∀ i block, bv.blocks[i]? = some block → (loops i).map (·.run block) = body i block)
    (hout : BitVector.forBlocks (BitVector.ascending bv.num) body bv = some out) {m : Nat}
    (hm : 0 < m) : Team.Computes (stepwise loops) m bv.blocks out.blocks () := by
  obtain ⟨blocks, hrun, rfl⟩ := Option.map_eq_some_iff.mp hout
  have hlen : (BitVector.ascending bv.num) = List.range bv.blocks.length := by
    rw [hlaid.length_blocks]
    rfl
  rw [hlen] at hrun
  obtain ⟨hlength, hcells, _⟩ := (runCells_eq_some_iff List.nodup_range _ _).mp hrun
  have hsum : ((List.range bv.blocks.length).map fun _ => ()).sum = () := rfl
  rw [← hsum]
  refine Team.computes_of_complete hm hlength fun i block hblock => ?_
  obtain ⟨old, new, hold, hnew, hget⟩ :=
    hcells i (List.mem_range.mpr (List.getElem?_eq_some_iff.mp hblock).1)
  obtain rfl := Option.some.inj (hblock.symm.trans hold)
  rw [← hloops i block hblock] at hnew
  obtain ⟨L, hL, rfl⟩ := Option.map_eq_some_iff.mp hnew
  exact ⟨_, hget, complete_start hL block⟩

end WordLoop

/-! ## The loops of the source -/

namespace BitVectorBlock

/-- `memset` of the words in use, in which no word is read. -/
def fillLoop (word : WordUnit) (clear : Bool) (b : BitVectorBlock) : WordLoop where
  stop := b.numWordUnits
  stride := 1
  stride_pos := Nat.one_pos
  reads := 0
  observe _ _ _ word := word
  emit _ _ := word
  clear := clear

/-- `data_[i] OP= block->GetWordUnit(i)`, for a block that the loop does not write. -/
def combineLoop (op : WordUnit → WordUnit → WordUnit) (b block : BitVectorBlock) : WordLoop where
  stop := b.numWordUnits
  stride := 1
  stride_pos := Nat.one_pos
  reads := 1
  observe _ _ own _ := own
  emit i word := op word (block.getWordUnit i)
  clear := true

/-- The same for the block itself, whose word is loaded twice. -/
def combineThisLoop (op : WordUnit → WordUnit → WordUnit) (b : BitVectorBlock) : WordLoop where
  stop := b.numWordUnits
  stride := 1
  stride_pos := Nat.one_pos
  reads := 2
  observe _ read own word := if read = 0 then own else op word own
  emit _ word := word
  clear := true

theorem run_fillLoop_ones (b : BitVectorBlock) : (fillLoop (-1#64) true b).run b = b.setOnes := by
  unfold WordLoop.run WordLoop.words setOnes fillWords
  simp only [fillLoop, Nat.div_one, if_true]
  rfl

theorem run_fillLoop_zeros (b : BitVectorBlock) : (fillLoop 0#64 false b).run b = b.setZeros := by
  unfold WordLoop.run WordLoop.words setZeros fillWords
  simp only [fillLoop, Nat.div_one]
  rfl

theorem run_combineLoop (op : WordUnit → WordUnit → WordUnit) (b block : BitVectorBlock) :
    (combineLoop op b block).run b = combineWords op (fun _ i => block.getWordUnit i) b := by
  unfold WordLoop.run WordLoop.words combineWords
  simp only [combineLoop, Nat.div_one, if_true]
  rfl

theorem run_combineThisLoop (op : WordUnit → WordUnit → WordUnit) (b : BitVectorBlock) :
    (combineThisLoop op b).run b = combineWords op (fun b i => b.getWordUnit i) b := by
  unfold WordLoop.run WordLoop.words combineWords
  simp only [combineThisLoop, Nat.div_one, if_true]
  rfl

end BitVectorBlock

namespace ByteSliceColumnBlock

variable {w : BitWidth} {dir : Direction}

/-- What the round at `i` puts into `bitvector_word`, from the word that it read. -/
def round (cmp : Comparator) (opt : Bitwise) (b : ByteSliceColumnBlock w dir)
    (operand : Nat → Nat → AvxUnit) (offset : Nat) (old : WordUnit) (i : Nat) : WordUnit :=
  (mm256MovemaskEpi8 (result cmp (scanSlices w cmp opt (inputMask opt old i)
    (fun j => mm256LddquSi256 (load b.data j) (offset + i))
    (fun j => operand j (offset + i))))).setWidth 64 <<< i

/-- The outer loop of `ScanHelper2`.  Unless it only sets, each of the two rounds reads
the word for its mask, and the final switch reads it again. -/
def scanLoop (cmp : Comparator) (opt : Bitwise) (b : ByteSliceColumnBlock w dir)
    (operand : Nat → Nat → AvxUnit) : WordLoop where
  stop := b.numTuples
  stride := kNumWordBits
  stride_pos := kNumWordBits_pos
  reads := if opt = .kSet then 0 else 3
  observe offset read own word :=
    match read with
    | 0 => 0#64 ||| round cmp opt b operand offset own 0
    | 1 => word ||| round cmp opt b operand offset own 32
    | _ => if opt = .kAnd then word &&& own else word ||| own
  emit offset word := if opt = .kSet then bitvectorWord cmp opt b operand offset 0#64 else word
  clear := true

theorem word_scanLoop (cmp : Comparator) (opt : Bitwise) (b : ByteSliceColumnBlock w dir)
    (operand : Nat → Nat → AvxUnit) (offset : Nat) (own : WordUnit) :
    (scanLoop cmp opt b operand).word offset own = scanWord cmp opt b operand offset own := by
  have hrounds : bitvectorWord cmp opt b operand offset own =
      0#64 ||| round cmp opt b operand offset own 0 |||
        round cmp opt b operand offset own 32 := forLoop_halves _
  cases opt with
  | kSet => rfl
  | kAnd => exact congrArg (· &&& own) hrounds.symm
  | kOr => exact congrArg (· ||| own) hrounds.symm

theorem run_scanLoop (cmp : Comparator) (opt : Bitwise) (b : ByteSliceColumnBlock w dir)
    (operand : Nat → Nat → AvxUnit) (bvblock : BitVectorBlock) :
    (scanLoop cmp opt b operand).run bvblock = scanHelper2 cmp opt b operand bvblock := by
  rw [scanHelper2_eq]
  unfold WordLoop.run WordLoop.words
  simp only [word_scanLoop]
  rfl

end ByteSliceColumnBlock

namespace NaiveColumnBlock

variable {dt : DType}

/-- The outer loop of `ScanHelper2`, which writes whole words and clears no tail. -/
def scanLoop (cmp : Comparator) (opt : Bitwise) (b : NaiveColumnBlock dt)
    (lit : Nat → BitVec dt.bits) : WordLoop where
  stop := b.numTuples
  stride := kNumWordBits
  stride_pos := kNumWordBits_pos
  reads := if opt = .kSet then 0 else 1
  observe _ _ own _ := own
  emit offset x :=
    match opt with
    | .kSet => scanBits cmp b lit offset
    | .kAnd => x &&& scanBits cmp b lit offset
    | .kOr => x ||| scanBits cmp b lit offset
  clear := false

theorem run_scanLoop (cmp : Comparator) (opt : Bitwise) (b : NaiveColumnBlock dt)
    (lit : Nat → BitVec dt.bits) (bvBlock : BitVectorBlock) :
    (scanLoop cmp opt b lit).run bvBlock = scanHelper2 cmp opt b lit bvBlock := by
  cases opt <;> rfl

end NaiveColumnBlock

namespace ColumnBlock

/-- The word loop of a scan against a literal. -/
def scanLoop (block : ColumnBlock) (cmp : Comparator) (literal : WordUnit) (opt : Bitwise) :
    WordLoop :=
  match block with
  | .naive dt b => b.scanLoop cmp opt fun _ => literal.setWidth dt.bits
  | .byteSlice w b =>
      b.scanLoop cmp opt fun byteId _ =>
        ByteSliceColumnBlock.maskLiteral w .kRight literal byteId

/-- The word loop of a scan against another block. -/
def scanBlockLoop (block : ColumnBlock) (cmp : Comparator) (columnBlock : ColumnBlock)
    (opt : Bitwise) : Option WordLoop :=
  match block with
  | .naive dt b => some (b.scanLoop cmp opt fun pos => (columnBlock.getTuple pos).setWidth dt.bits)
  | .byteSlice w b =>
      match columnBlock with
      | .naive _ _ => none
      | .byteSlice w' b' =>
          if h : w' = w then
            some (b.scanLoop cmp opt fun byteId addr =>
              mm256LddquSi256 (load (h ▸ b').data byteId) addr)
          else none

theorem run_scanLoop (block : ColumnBlock) (cmp : Comparator) (literal : WordUnit)
    (opt : Bitwise) (bvBlock : BitVectorBlock) :
    (block.scanLoop cmp literal opt).run bvBlock = block.scan cmp literal bvBlock opt := by
  cases block with
  | naive dt b => exact NaiveColumnBlock.run_scanLoop cmp opt b _ bvBlock
  | byteSlice w b => exact ByteSliceColumnBlock.run_scanLoop cmp opt b _ bvBlock

theorem map_run_scanBlockLoop (block : ColumnBlock) (cmp : Comparator) (columnBlock : ColumnBlock)
    (opt : Bitwise) (bvBlock : BitVectorBlock) :
    (block.scanBlockLoop cmp columnBlock opt).map (·.run bvBlock) =
      block.scanBlock cmp columnBlock bvBlock opt := by
  cases block with
  | naive dt b => exact congrArg some (NaiveColumnBlock.run_scanLoop cmp opt b _ bvBlock)
  | byteSlice w b =>
      cases columnBlock with
      | naive dt b' => rfl
      | byteSlice w' b' =>
          unfold scanBlockLoop scanBlock
          dsimp only
          by_cases h : w' = w
          · rw [dif_pos h, dif_pos h]
            exact congrArg some (ByteSliceColumnBlock.run_scanLoop cmp opt b _ bvBlock)
          · rw [dif_neg h, dif_neg h]
            rfl

end ColumnBlock

namespace BitVector

/-- The loops of `SetOnes` and `SetZeros`. -/
def fillLoops (word : WordUnit) (clear : Bool) (bv : BitVector) (i : Nat) : Option WordLoop :=
  (bv.getBVBlock i).map (BitVectorBlock.fillLoop word clear)

/-- The loops of `And` and `Or`. -/
def combineLoops (op : WordUnit → WordUnit → WordUnit) (bv : BitVector) (bitvector : Operand)
    (i : Nat) : Option WordLoop :=
  (bv.getBVBlock i).bind fun block =>
    match bitvector with
    | .this => some (block.combineThisLoop op)
    | .other argument => (argument.getBVBlock i).map (block.combineLoop op)

/-- The iterations of `CountOnes`: the words of a block are added up in a local variable,
which the thread then adds to its copy of `count`. -/
def countBody : StepwiseBody BitVectorBlock (Nat × Nat) Nat where
  start _ := (0, 0)
  step _ b regs :=
    if regs.1 < b.numWordUnits then
      some (b, .inl (regs.1 + 1, regs.2 + (b.getWordUnit regs.1).cpop.toNat))
    else
      some (b, .inr regs.2)
  rank _ regs := kNumWordsPerBlock - regs.1
  rank_lt := by
    intro _ b b' regs regs' hstep
    have hle := b.numWordUnits_le
    split at hstep
    · obtain rfl := Sum.inl.inj (Prod.mk.inj (Option.some.inj hstep)).2
      show kNumWordsPerBlock - (regs.1 + 1) < kNumWordsPerBlock - regs.1
      omega
    · cases hstep

/-- The steps, run to the end, are `CountOnes` of the block. -/
theorem complete_countBody (i k : Nat) (count : Nat) (b : BitVectorBlock) :
    countBody.complete i b (k, count) =
      some (b, forLoop b.numWordUnits 1 Nat.one_pos
        (fun i _ count => count + (b.getWordUnit i).cpop.toNat) k count) := by
  induction k, count using forLoop.induct b.numWordUnits 1 Nat.one_pos
      (fun i _ count => count + (b.getWordUnit i).cpop.toNat) with
  | case1 k count hk ih =>
      have hstep : countBody.step i b (k, count) =
          some (b, .inl (k + 1, count + (b.getWordUnit k).cpop.toNat)) := if_pos hk
      rw [countBody.complete_of_inl hstep, forLoop_of_lt _ _ hk]
      exact ih
  | case2 k count hk =>
      have hstep : countBody.step i b (k, count) = some (b, .inr count) := if_neg hk
      rw [countBody.complete_of_inr hstep, forLoop_of_le _ _ (Nat.not_lt.mp hk)]

end BitVector

namespace Column

/-- The loops of a scan against a literal. -/
def scanLoops (c : Column) (cmp : Comparator) (literal : WordUnit) (opt : Bitwise) (i : Nat) :
    Option WordLoop :=
  (c.blocks[i]?).map fun block => block.scanLoop cmp literal opt

/-- The loops of a scan against another column. -/
def scanColumnLoops (c : Column) (cmp : Comparator) (otherColumn : Column) (opt : Bitwise)
    (i : Nat) : Option WordLoop :=
  (c.blocks[i]?).bind fun block => (otherColumn.blocks[i]?).bind fun otherBlock =>
    block.scanBlockLoop cmp otherBlock opt

end Column

/-- Teams of every size leave, in every interleaving, what the sequential loop leaves. -/
def TeamsLeave (loops : Nat → Option WordLoop) (bv : BitVector)
    (sequential : Option BitVector) : Prop :=
  ∃ out, sequential = some out ∧ ∀ m, 0 < m →
    Team.Computes (WordLoop.stepwise loops) m bv.blocks out.blocks ()

theorem teamsLeave_forBlocks {loops : Nat → Option WordLoop} {bv : BitVector}
    {body : Nat → BitVectorBlock → Option BitVectorBlock} (hlaid : bv.LaidOut)
    (hbody : ∀ i block, bv.blocks[i]? = some block →
      ∃ new, body i block = some new ∧ new.num = block.num)
    (hloops : ∀ i block, bv.blocks[i]? = some block →
      (loops i).map (·.run block) = body i block) :
    TeamsLeave loops bv (BitVector.forBlocks (BitVector.ascending bv.num) body bv) := by
  obtain ⟨out, hout, _⟩ :=
    BitVector.exists_forBlocks hlaid (BitVector.isSchedule_ascending bv.num) hbody
  exact ⟨out, hout, fun _ hm => WordLoop.computes_of_forBlocks hlaid hloops hout hm⟩

namespace BitVector

variable {bv : BitVector}

theorem teamsLeave_fill (hlaid : bv.LaidOut) {word : WordUnit} {clear : Bool}
    {fill : BitVectorBlock → BitVectorBlock}
    (hfill : ∀ b, (BitVectorBlock.fillLoop word clear b).run b = fill b)
    (hnum : ∀ b, (fill b).num = b.num) :
    TeamsLeave (bv.fillLoops word clear) bv
      (forBlocks (ascending bv.num) (fun _ block => some (fill block)) bv) := by
  refine teamsLeave_forBlocks hlaid (fun _ block _ => ⟨_, rfl, hnum block⟩) fun i block hblock => ?_
  unfold fillLoops getBVBlock
  rw [hblock]
  exact congrArg some (hfill block)

theorem teamsLeave_combine (hlaid : bv.LaidOut) {argument : BitVector}
    (hargument : argument.LaidOut) (hnum : argument.num = bv.num) {operand : Operand}
    (hoperand : operand = .this ∨ operand = .other argument)
    (op : WordUnit → WordUnit → WordUnit) :
    TeamsLeave (bv.combineLoops op operand) bv
      (combine (BitVectorBlock.combineWords op fun b i => b.getWordUnit i)
        (fun b block => BitVectorBlock.combineWords op (fun _ i => block.getWordUnit i) b)
        (ascending bv.num) bv operand) := by
  refine teamsLeave_forBlocks hlaid (fun i block hblock => ?_) fun i block hblock => ?_
  · rcases hoperand with rfl | rfl
    · exact ⟨_, rfl, BitVectorBlock.num_combineWords _ _ _⟩
    · rw [LaidOut, hnum] at hargument
      obtain ⟨block', hblock', _⟩ := Foundation.LaidOut.exists_block_of_block hlaid hargument hblock
      have hget : argument.getBVBlock i = some block' := hblock'
      refine ⟨BitVectorBlock.combineWords op (fun _ k => block'.getWordUnit k) block, ?_,
        BitVectorBlock.num_combineWords _ _ _⟩
      show (argument.getBVBlock i).map _ = _
      rw [hget]
      rfl
  · unfold combineLoops
    rw [getBVBlock, hblock]
    rcases hoperand with rfl | rfl
    · exact congrArg some (BitVectorBlock.run_combineThisLoop op block)
    · show ((argument.getBVBlock i).map _).map _ = (argument.getBVBlock i).map _
      rw [Option.map_map]
      exact congrArg (Option.map · (argument.getBVBlock i))
        (funext fun block' => BitVectorBlock.run_combineLoop op block block')

end BitVector

/-- **The loops of `BitVector` under any interleaving of word accesses.**  `SetOnes`,
`SetZeros`, and `And` and `Or` on another vector or on the vector itself: a team of
threads of any size, whatever thread gets whatever block and whoever goes next at each
load and store of a word, never misses a block, cannot get stuck or run for ever, and
leaves the vector that the sequential loop leaves. -/
theorem teams_bitVector (bv argument : BitVector) (hlaid : bv.LaidOut)
    (hargument : argument.LaidOut) (hnum : argument.num = bv.num) (operand : BitVector.Operand)
    (hoperand : operand = .this ∨ operand = .other argument) :
    TeamsLeave (bv.fillLoops (-1#64) true) bv (bv.setOnes (BitVector.ascending bv.num)) ∧
    TeamsLeave (bv.fillLoops 0#64 false) bv (bv.setZeros (BitVector.ascending bv.num)) ∧
    TeamsLeave (bv.combineLoops (· &&& ·) operand) bv
      (bv.and (BitVector.ascending bv.num) operand) ∧
    TeamsLeave (bv.combineLoops (· ||| ·) operand) bv
      (bv.or (BitVector.ascending bv.num) operand) :=
  ⟨BitVector.teamsLeave_fill hlaid BitVectorBlock.run_fillLoop_ones BitVectorBlock.num_setOnes,
    BitVector.teamsLeave_fill hlaid BitVectorBlock.run_fillLoop_zeros BitVectorBlock.num_setZeros,
    BitVector.teamsLeave_combine hlaid hargument hnum hoperand _,
    BitVector.teamsLeave_combine hlaid hargument hnum hoperand _⟩

/-- A vector of `2^20 + 1` bits, which has two blocks, and its conjunction with itself. -/
theorem teams_bitVector_two :
    ∃ bv, BitVector.new 1048577 = some bv ∧
      TeamsLeave (bv.combineLoops (· &&& ·) .this) bv
        (bv.and (BitVector.ascending bv.num) .this) := by
  obtain ⟨bv, hbv, hholds⟩ := BitVector.exists_new 1048577
  obtain ⟨_, _, hand, _⟩ := teams_bitVector bv bv hholds.laidOut hholds.laidOut rfl .this
    (Or.inl rfl)
  exact ⟨bv, hbv, hand⟩

namespace Column.Stores

variable {c other : Column} {kind : BlockKind} {content otherContent : Nat → Nat}
  {bv : BitVector}

theorem teamsLeave_scan (h : Stores c kind bv.num content) (hlaid : bv.LaidOut)
    (cmp : Comparator) (literal : WordUnit) (opt : Bitwise) :
    TeamsLeave (c.scanLoops cmp literal opt) bv
      (c.scanIn (BitVector.ascending bv.num) cmp literal bv opt) := by
  refine teamsLeave_forBlocks hlaid
    (h.laidOut.scan_body hlaid h.num_eq.symm cmp literal opt) fun i block _ => ?_
  unfold scanLoops
  rw [Option.map_map]
  exact congrArg (Option.map · c.blocks[i]?)
    (funext fun colBlock => colBlock.run_scanLoop cmp literal opt block)

theorem teamsLeave_scanColumn (h : Stores c kind bv.num content)
    (hother : Stores other kind bv.num otherContent) (hlaid : bv.LaidOut) (cmp : Comparator)
    (opt : Bitwise) :
    TeamsLeave (c.scanColumnLoops cmp other opt) bv
      (c.scanColumnIn (BitVector.ascending bv.num) cmp other bv opt) := by
  refine teamsLeave_forBlocks hlaid (h.scanColumn_body hother hlaid rfl cmp opt) fun i block _ => ?_
  unfold scanColumnLoops
  rw [Option.map_bind]
  refine congrArg (Option.bind c.blocks[i]?) (funext fun colBlock => ?_)
  rw [Function.comp_apply, Option.map_bind]
  exact congrArg (Option.bind other.blocks[i]?)
    (funext fun otherBlock => colBlock.map_run_scanBlockLoop cmp otherBlock opt block)

end Column.Stores

/-- **Scans under any interleaving of word accesses.**  For columns built for one type,
width and size and a bit vector of that size, both scans leave the vector that the
sequential scan leaves, although a word is read up to three times before it is written
and `ClearTail` writes words again. -/
theorem teams_scan (type : ColumnType) (bitWidth n : Nat) (c other : Column)
    (hc : c.Built type bitWidth n) (hother : other.Built type bitWidth n) (bv : BitVector)
    (hlaid : bv.LaidOut) (hnum : bv.num = n) (cmp : Comparator) (literal : WordUnit)
    (opt : Bitwise) :
    TeamsLeave (c.scanLoops cmp literal opt) bv
      (c.scanIn (BitVector.ascending n) cmp literal bv opt) ∧
    TeamsLeave (c.scanColumnLoops cmp other opt) bv
      (c.scanColumnIn (BitVector.ascending n) cmp other bv opt) := by
  obtain ⟨kind, _, hstores⟩ := Column.exists_kind_of_built type bitWidth
  subst hnum
  have h := hstores bv.num c hc
  have h' := hstores bv.num other hother
  exact ⟨h.teamsLeave_scan hlaid cmp literal opt, h.teamsLeave_scanColumn h' hlaid cmp opt⟩

/-- Byte-slice columns of `2^20 + 1` tuples, scanned into a new vector. -/
theorem teams_scan_two :
    ∃ c bv, Column.new .kByteSlicePadRight 11 1048577 = some c ∧
      BitVector.new 1048577 = some bv ∧
      TeamsLeave (c.scanLoops .kLess 5#64 .kAnd) bv
        (c.scanIn (BitVector.ascending 1048577) .kLess 5#64 bv .kAnd) := by
  have hkind : Column.blockKind .kByteSlicePadRight 11 =
      some (.byteSlice ⟨11, by decide, by decide⟩) := rfl
  obtain ⟨c, hnew, _⟩ := Column.exists_new hkind 1048577
  obtain ⟨bv, hbv, hholds⟩ := BitVector.exists_new 1048577
  have hbuilt := Column.built_new hnew
  exact ⟨c, bv, hnew, hbv, (teams_scan .kByteSlicePadRight 11 1048577 c c hbuilt hbuilt bv
    hholds.laidOut hholds.num_eq .kLess 5#64 .kAnd).1⟩

/-- **`CountOnes` under any interleaving.**  Each thread counts into its own copy of the
reduction variable; whatever blocks a thread was given, the copies add up to the
sequential count, and the vector is unchanged. -/
theorem teams_countOnes (bv : BitVector) (hlaid : bv.LaidOut) (m : Nat) (hm : 0 < m) :
    ∃ count, bv.countOnes = some count ∧
      Team.Computes BitVector.countBody m bv.blocks bv.blocks count := by
  refine ⟨_, BitVector.countOnesIn_eq_sum hlaid (BitVector.isSchedule_ascending bv.num), ?_⟩
  have hlen : chunkCount kNumTuplesPerBlock bv.num = bv.blocks.length := hlaid.length_blocks.symm
  rw [hlen]
  refine Team.computes_of_complete hm rfl fun i block hblock => ⟨block, hblock, ?_⟩
  rw [BitVector.blockOnes_of_block hblock]
  exact BitVector.complete_countBody i 0 0 block

/-- Two threads count the two blocks of a vector of `2^20 + 1` bits. -/
theorem teams_countOnes_two :
    ∃ bv, BitVector.new 1048577 = some bv ∧ ∃ count, bv.countOnes = some count ∧
      Team.Computes BitVector.countBody 2 bv.blocks bv.blocks count := by
  obtain ⟨bv, hbv, hholds⟩ := BitVector.exists_new 1048577
  exact ⟨bv, hbv, teams_countOnes bv hholds.laidOut 2 (by decide)⟩

end ByteSlice
