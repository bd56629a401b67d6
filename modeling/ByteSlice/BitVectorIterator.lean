import Mathlib
import ByteSlice.BitVector
import ByteSlice.Foundation.Enumeration

/-!
# `BitVectorIterator`

The iterator holds a stack of positions and a cursor to the word to be considered
next.  `Next` pops the position returned last; when the stack runs empty it looks
for the next word that is not zero and pushes the positions of its bits, the larger
first.  The block pointer is the index of the block pointed at.  The outcome `none`
stands for an access outside the stack, outside the words in use or outside the
blocks.

`Remaining` is the invariant between two calls: what the stack holds below its top,
followed by the set positions from the cursor on, is what is still to come.
-/

namespace ByteSlice

open Foundation

structure BitVectorIterator where
  stack : Vector Nat kNumWordBits
  stackTop : Nat
  curBlockId : Nat
  curWordId : Nat
  curBlock : Nat
  blockOffset : Nat

namespace BitVectorIterator

/-- The field initialisers.  The stack is left uninitialised. -/
def initial (stack : Vector Nat kNumWordBits) : BitVectorIterator where
  stack := stack
  stackTop := 1
  curBlockId := 0
  curWordId := 0
  curBlock := 0
  blockOffset := 0

/-- The constructor, which asks for block `0`. -/
def new (stack : Vector Nat kNumWordBits) (bv : BitVector) : Option BitVectorIterator :=
  (bv.getBVBlock 0).map fun _ => initial stack

def getPosition (it : BitVectorIterator) : Option Nat :=
  it.stack[sizeSub it.stackTop 1]?

/-- All words of the block are exhausted: proceed to the next block. -/
def nextBlock (it : BitVectorIterator) (block : BitVectorBlock) : BitVectorIterator :=
  { it with
    curWordId := 0
    curBlockId := it.curBlockId + 1
    blockOffset := it.blockOffset + block.num }

/-- The first half of the `do` loop's body, which makes sure that the cursor is
valid.  The flag is `false` when all blocks are exhausted. -/
def validCursor (bv : BitVector) (it : BitVectorIterator) : Option (Bool × BitVectorIterator) :=
  (bv.getBVBlock it.curBlock).map fun block =>
    if block.numWordUnits ≤ it.curWordId then
      let it := it.nextBlock block
      if bv.getNumBlocks ≤ it.curBlockId then (false, it)
      else (true, { it with curBlock := it.curBlockId })
    else (true, it)

/-- The second half, `word = cur_block_->GetWordUnit(cur_word_id_++)`. -/
def readWord (bv : BitVector) (it : BitVectorIterator) : Option (WordUnit × BitVectorIterator) :=
  (bv.getBVBlock it.curBlock).bind fun block =>
    if it.curWordId < block.numWordUnits then
      some (block.getWordUnit it.curWordId, { it with curWordId := it.curWordId + 1 })
    else none

/-- The words left in the block pointed at. -/
def wordsLeft (bv : BitVector) (it : BitVectorIterator) : Nat :=
  ((bv.getBVBlock it.curBlock).map fun block => block.numWordUnits - it.curWordId).getD 0

/-- A round of the loop ends in a later block, or in the same one with fewer words
left. -/
theorem readWord_validCursor_lt {bv : BitVector} {it mid out : BitVectorIterator}
    {word : WordUnit} (hvalid : validCursor bv it = some (true, mid))
    (hread : readWord bv mid = some (word, out)) :
    Prod.Lex (· < ·) (· < ·) (bv.getNumBlocks - out.curBlockId, wordsLeft bv out)
      (bv.getNumBlocks - it.curBlockId, wordsLeft bv it) := by
  obtain ⟨block, hblock, hcursor⟩ := Option.map_eq_some_iff.mp hvalid
  obtain ⟨block', hblock', hword⟩ := Option.bind_eq_some_iff.mp hread
  split at hword
  · rename_i hlt
    obtain ⟨_, rfl⟩ := Prod.mk.inj (Option.some.inj hword)
    split at hcursor
    · dsimp only at hcursor
      split at hcursor
      · simp at hcursor
      · rename_i hinside
        obtain rfl := (Prod.mk.inj hcursor).2
        refine Prod.Lex.left _ _ ?_
        simp only [nextBlock] at hinside ⊢
        omega
    · rename_i hwords
      obtain rfl := (Prod.mk.inj hcursor).2
      obtain rfl : block = block' := Option.some.inj (hblock.symm.trans hblock')
      refine Prod.Lex.right _ ?_
      simp only [wordsLeft, hblock, Option.map_some, Option.getD_some]
      omega
  · contradiction

/-- The `do` loop: the next word that is not zero, if there is one. -/
def findWord (bv : BitVector) (it : BitVectorIterator) :
    Option (Option WordUnit × BitVectorIterator) :=
  match _hvalid : validCursor bv it with
  | none => none
  | some (false, it) => some (none, it)
  | some (true, it) =>
      match _hread : readWord bv it with
      | none => none
      | some (word, it) => if word = 0#64 then findWord bv it else some (some word, it)
termination_by (bv.getNumBlocks - it.curBlockId, wordsLeft bv it)
decreasing_by exact readWord_validCursor_lt _hvalid _hread

/-- `stack_[stack_top_] = position` -/
def storeTop (position : Nat) (it : BitVectorIterator) : Option BitVectorIterator :=
  if h : it.stackTop < kNumWordBits then
    some { it with stack := it.stack.set it.stackTop position h }
  else none

/-- The loop over the bits of a word, downwards until the counter wraps.  It writes
for clear bits too, and moves the top for set bits only. -/
def pushBits (word : WordUnit) (offset bit : Nat) (it : BitVectorIterator) :
    Option BitVectorIterator :=
  if bit < kNumWordBits then
    (storeTop (offset + bit) it).bind fun it =>
      pushBits word offset (sizeSub bit 1)
        { it with stackTop := it.stackTop + ((word >>> bit) &&& 1#64).toNat }
  else
    some it
termination_by if bit < kNumWordBits then bit + 1 else 0
decreasing_by
  unfold sizeSub
  rw [kNumWordBits_eq] at *
  split <;> split <;> omega

def next (bv : BitVector) (it : BitVectorIterator) : Option (Bool × BitVectorIterator) :=
  let it := { it with stackTop := sizeSub it.stackTop 1 }
  if it.stackTop = 0 then
    (findWord bv it).bind fun
      | (none, it) => some (false, it)
      | (some word, it) =>
          let offset := it.blockOffset + sizeSub it.curWordId 1 * kNumWordBits
          (pushBits word offset (kNumWordBits - 1) it).map fun it => (true, it)
  else
    some (true, it)

/-! ## The stack -/

/-- The stack from its top downwards. -/
def items (it : BitVectorIterator) : List Nat := (it.stack.toList.take it.stackTop).reverse

theorem length_items {it : BitVectorIterator} (htop : it.stackTop ≤ kNumWordBits) :
    it.items.length = it.stackTop := by
  unfold items
  rw [List.length_reverse, List.length_take, Vector.length_toList]
  exact Nat.min_eq_left htop

/-- Popping drops the top. -/
theorem items_pop {it : BitVectorIterator} (hpos : 1 ≤ it.stackTop)
    (htop : it.stackTop ≤ kNumWordBits) :
    { it with stackTop := sizeSub it.stackTop 1 }.items = it.items.tail := by
  unfold items
  rw [List.tail_reverse, sizeSub_of_le hpos]
  dsimp only
  congr 1
  rw [List.dropLast_eq_take, List.take_take, List.length_take, Vector.length_toList]
  congr 1
  omega

/-- The position observed is the top. -/
theorem getPosition_eq {it : BitVectorIterator} {pos : Nat} {rest : List Nat}
    (htop : it.stackTop ≤ kNumWordBits) (hitems : it.items = pos :: rest) :
    it.getPosition = some pos := by
  have hlen := length_items htop
  rw [hitems, List.length_cons] at hlen
  have hlast : (it.stack.toList.take it.stackTop).getLast? = some pos := by
    rw [List.getLast?_eq_head?_reverse]
    exact congrArg List.head? hitems
  rw [List.getLast?_eq_getElem?, List.length_take, Vector.length_toList,
    Nat.min_eq_left htop, List.getElem?_take_of_lt (by omega)] at hlast
  unfold getPosition
  rw [sizeSub_of_le (by omega), ← Vector.getElem?_toList]
  exact hlast

/-- A write at the top and a move of the top by one bit push the position if the
bit is set. -/
theorem exists_storeTop {it : BitVectorIterator} (htop : it.stackTop < kNumWordBits)
    (position : Nat) (bit : Bool) :
    ∃ stack, storeTop position it = some { it with stack := stack } ∧
      { it with stack := stack, stackTop := it.stackTop + bit.toNat }.items =
        if bit then position :: it.items else it.items := by
  refine ⟨it.stack.set it.stackTop position htop, dif_pos htop, ?_⟩
  have hlen : it.stackTop < it.stack.toList.length := by
    rw [Vector.length_toList]
    exact htop
  unfold items
  dsimp only
  rw [Vector.toList_set]
  cases bit with
  | true =>
      rw [Bool.toNat_true, List.take_add_one, List.getElem?_set_self hlen,
        List.take_set_of_le (Nat.le_refl _)]
      simp
  | false =>
      rw [Bool.toNat_false, Nat.add_zero, List.take_set_of_le (Nat.le_refl _)]
      simp

theorem toNat_shiftRight_and_one (word : WordUnit) (bit : Nat) :
    ((word >>> bit) &&& 1#64).toNat = (word.getLsbD bit).toNat := by
  rw [BitVec.toNat_and, BitVec.toNat_ushiftRight, show (1#64 : BitVec 64).toNat = 1 from rfl,
    Nat.and_one_is_mod, Nat.shiftRight_eq_div_pow, ← Nat.toNat_testBit]
  rfl

/-- The positions of the bits up to `bit` end up on top, the smallest first. -/
theorem exists_pushBits (word : WordUnit) (offset : Nat) {bit : Nat} {it : BitVectorIterator}
    (htop : it.stackTop + bit < kNumWordBits) :
    ∃ stack stackTop,
      pushBits word offset bit it = some { it with stack := stack, stackTop := stackTop } ∧
      stackTop ≤ kNumWordBits ∧
      { it with stack := stack, stackTop := stackTop }.items =
        (positions word.getLsbD (bit + 1)).map (offset + ·) ++ it.items := by
  -- the loop runs downwards, so its first bit is the last of the positions
  have hpositions : ∀ bit rest, (positions word.getLsbD (bit + 1)).map (offset + ·) ++ rest =
      (positions word.getLsbD bit).map (offset + ·) ++
        if word.getLsbD bit then (offset + bit) :: rest else rest := by
    intro bit rest
    rw [positions_add, List.map_append, List.append_assoc]
    congr 1
    cases hbit : word.getLsbD bit with
    | true => simp [positions, hbit]
    | false => simp [positions, hbit]
  induction bit generalizing it with
  | zero =>
      have hstack : it.stackTop < kNumWordBits := by omega
      obtain ⟨stack, hstore, hitems⟩ :=
        exists_storeTop hstack (offset + 0) (word.getLsbD 0)
      refine ⟨stack, it.stackTop + (word.getLsbD 0).toNat, ?_, ?_, ?_⟩
      · rw [pushBits, if_pos kNumWordBits_pos, hstore, Option.bind_some, pushBits,
          if_neg (by decide), toNat_shiftRight_and_one]
      · have := Bool.toNat_le (word.getLsbD 0)
        omega
      · rw [hitems, hpositions]
        rfl
  | succ bit ih =>
      have hstack : it.stackTop < kNumWordBits := by omega
      obtain ⟨stack, hstore, hitems⟩ :=
        exists_storeTop hstack (offset + (bit + 1)) (word.getLsbD (bit + 1))
      have hle := Bool.toNat_le (word.getLsbD (bit + 1))
      have htop' : { it with stack := stack, stackTop := it.stackTop +
          (word.getLsbD (bit + 1)).toNat }.stackTop + bit < kNumWordBits := by
        dsimp only
        omega
      obtain ⟨stack', stackTop', hpush, hle', hitems'⟩ := ih htop'
      refine ⟨stack', stackTop', ?_, hle', ?_⟩
      · rw [pushBits, if_pos (by omega), hstore, Option.bind_some, sizeSub_of_le (by omega),
          Nat.add_sub_cancel, toNat_shiftRight_and_one]
        exact hpush
      · rw [hpositions (bit + 1), ← hitems]
        exact hitems'

/-! ## The cursor -/

/-- A valid cursor, at a word of the block pointed at or just past its last one. -/
structure CursorAt (bv : BitVector) (it : BitVectorIterator) : Prop where
  curBlock_eq : it.curBlock = it.curBlockId
  blockOffset_eq : it.blockOffset = it.curBlockId * kNumTuplesPerBlock
  exists_block : ∃ block, bv.blocks[it.curBlockId]? = some block ∧
    it.curWordId ≤ block.numWordUnits

/-- The set positions from the cursor on. -/
def upcoming (it : BitVectorIterator) (num : Nat) (content : Nat → Bool) : List Nat :=
  positionsFrom content (it.blockOffset + it.curWordId * kNumWordBits) num

/-- The words in use of a full block are those of a whole block. -/
theorem numWordUnits_full {block : BitVectorBlock} (hfull : block.num = kNumTuplesPerBlock) :
    block.numWordUnits * kNumWordBits = kNumTuplesPerBlock := by
  rw [block.numWordUnits_eq, hfull, kNumTuplesPerBlock_eq, kNumWordBits_eq]

variable {bv : BitVector} {num : Nat} {content : Nat → Bool} {it : BitVectorIterator}

/-- The cursor is made valid without skipping a set position, or all blocks are
exhausted and no set position is left. -/
theorem validCursor_cases (h : bv.Holds num content) (hcursor : CursorAt bv it) :
    (∃ out, validCursor bv it = some (false, out) ∧ it.upcoming num content = []) ∨
    ∃ mid block, validCursor bv it = some (true, mid) ∧ CursorAt bv mid ∧
      bv.blocks[mid.curBlockId]? = some block ∧ mid.curWordId < block.numWordUnits ∧
      mid.stack = it.stack ∧ mid.stackTop = it.stackTop ∧
      mid.upcoming num content = it.upcoming num content := by
  obtain ⟨block, hblock, hword⟩ := hcursor.exists_block
  have hvalid : validCursor bv it = some (if block.numWordUnits ≤ it.curWordId then
      let it := it.nextBlock block
      if bv.getNumBlocks ≤ it.curBlockId then (false, it)
      else (true, { it with curBlock := it.curBlockId })
    else (true, it)) := by
    unfold validCursor BitVector.getBVBlock
    rw [hcursor.curBlock_eq, hblock, Option.map_some]
  have hlt := (List.getElem?_eq_some_iff.mp hblock).1
  have hsize : block.num = chunkSize kNumTuplesPerBlock num it.curBlockId := by
    rw [h.laidOut.size_block _ _ hblock, h.num_eq]
  by_cases hend : block.numWordUnits ≤ it.curWordId
  · have hcount : bv.blocks.length = chunkCount kNumTuplesPerBlock num := by
      rw [h.laidOut.length_blocks, h.num_eq]
    have heq : it.curWordId = block.numWordUnits := by omega
    rw [if_pos hend] at hvalid
    by_cases hlast : bv.blocks.length ≤ it.curBlockId + 1
    · left
      refine ⟨it.nextBlock block, hvalid.trans (congrArg some (if_pos hlast)), ?_⟩
      -- what is left of the last block is past the end of the vector
      have hfits := block.num_le_numWordUnits
      rw [hsize, chunkSize_last kNumTuplesPerBlock_pos (by omega)] at hfits
      refine positionsFrom_of_le content ?_
      rw [hcursor.blockOffset_eq, heq, kNumWordBits_eq]
      omega
    · right
      -- a block that is followed by another is full, so no position lies between the two
      have hfull : block.num = kNumTuplesPerBlock := by
        rw [hsize]
        exact chunkSize_of_succ_lt kNumTuplesPerBlock_pos (by omega)
      have hnext := List.getElem?_eq_getElem (show it.curBlockId + 1 < bv.blocks.length by omega)
      refine ⟨_, _, hvalid.trans (congrArg some (if_neg hlast)), ⟨rfl, ?_, _, hnext,
        Nat.zero_le _⟩, hnext, ?_, rfl, rfl, ?_⟩
      · show it.blockOffset + block.num = (it.curBlockId + 1) * kNumTuplesPerBlock
        rw [hcursor.blockOffset_eq, hfull, Nat.succ_mul]
      · show 0 < BitVectorBlock.numWordUnits _
        have hpos := BitVectorBlock.num_pos bv.blocks[it.curBlockId + 1]
        have hfits := BitVectorBlock.num_le_numWordUnits bv.blocks[it.curBlockId + 1]
        omega
      · show positionsFrom content (it.blockOffset + block.num + 0 * kNumWordBits) num =
          positionsFrom content (it.blockOffset + it.curWordId * kNumWordBits) num
        rw [heq, numWordUnits_full hfull, hfull, Nat.zero_mul, Nat.add_zero]
  · right
    rw [if_neg hend] at hvalid
    exact ⟨it, block, hvalid, hcursor, hblock, by omega, rfl, rfl, rfl⟩

/-- Reading a word takes its set positions off those to come. -/
theorem exists_readWord (h : bv.Holds num content) (hcursor : CursorAt bv it)
    {block : BitVectorBlock} (hblock : bv.blocks[it.curBlockId]? = some block)
    (hword : it.curWordId < block.numWordUnits) :
    ∃ word out, readWord bv it = some (word, out) ∧ CursorAt bv out ∧
      out.stack = it.stack ∧ out.stackTop = it.stackTop ∧ 1 ≤ out.curWordId ∧
      it.upcoming num content = (positions word.getLsbD kNumWordBits).map
        (out.blockOffset + sizeSub out.curWordId 1 * kNumWordBits + ·) ++
          out.upcoming num content := by
  refine ⟨block.getWordUnit it.curWordId, { it with curWordId := it.curWordId + 1 }, ?_,
    ⟨hcursor.curBlock_eq, hcursor.blockOffset_eq, block, hblock, hword⟩, rfl, rfl,
    Nat.le_add_left 1 _, ?_⟩
  · unfold readWord BitVector.getBVBlock
    rw [hcursor.curBlock_eq, hblock, Option.bind_some, if_pos hword]
  · unfold upcoming
    dsimp only
    rw [positionsFrom_add content _ kNumWordBits num, sizeSub_of_le (by omega),
      Nat.add_sub_cancel, Nat.succ_mul, Nat.add_assoc]
    congr 2
    refine positions_congr fun j hj => ?_
    rw [h.getLsbD_getWordUnit hblock hword hj, hcursor.blockOffset_eq]

theorem findWord_of_end {out : BitVectorIterator}
    (hvalid : validCursor bv it = some (false, out)) : findWord bv it = some (none, out) := by
  rw [findWord]
  split <;> simp_all

theorem findWord_of_word {mid out : BitVectorIterator} {word : WordUnit}
    (hvalid : validCursor bv it = some (true, mid))
    (hread : readWord bv mid = some (word, out)) :
    findWord bv it = if word = 0#64 then findWord bv out else some (some word, out) := by
  rw [findWord]
  split
  · simp_all
  · simp_all
  · rename_i mid' hvalid'
    obtain rfl : mid = mid' := by simp_all
    split
    · simp_all
    · rename_i word' out' hread'
      obtain ⟨rfl, rfl⟩ : word = word' ∧ out = out' := by simp_all
      rfl

theorem positions_eq_nil {word : WordUnit} :
    positions word.getLsbD kNumWordBits = [] ↔ word = 0#64 := by
  rw [kNumWordBits_eq]
  constructor
  · intro hnone
    apply BitVec.eq_of_getLsbD_eq
    intro j hj
    have hbit : j ∉ positions word.getLsbD 64 := by
      rw [hnone]
      exact List.not_mem_nil
    simpa [hj] using hbit
  · rintro rfl
    simp [positions]

/-- The loop finds the word of the next set position.  The induction follows the
loop; words that are zero take no position off. -/
theorem findWord_cases (h : bv.Holds num content) (hcursor : CursorAt bv it) :
    (∃ out, findWord bv it = some (none, out) ∧ it.upcoming num content = []) ∨
    ∃ word out, findWord bv it = some (some word, out) ∧ word ≠ 0#64 ∧ CursorAt bv out ∧
      out.stackTop = it.stackTop ∧
      it.upcoming num content = (positions word.getLsbD kNumWordBits).map
        (out.blockOffset + sizeSub out.curWordId 1 * kNumWordBits + ·) ++
          out.upcoming num content := by
  -- the measure of the loop; it decreases although the block of the cursor changes
  have hwf : WellFounded fun out it : BitVectorIterator =>
      Prod.Lex (· < ·) (· < ·) (bv.getNumBlocks - out.curBlockId, wordsLeft bv out)
        (bv.getNumBlocks - it.curBlockId, wordsLeft bv it) :=
    InvImage.wf _ (Prod.lex ⟨_, Nat.lt_wfRel.wf⟩ ⟨_, Nat.lt_wfRel.wf⟩).wf
  induction it using hwf.induction with
  | _ it ih =>
      rcases validCursor_cases h hcursor with ⟨out, hvalid, hnone⟩ |
        ⟨mid, block, hvalid, hmid, hblock, hword, _, htop, hupcoming⟩
      · exact Or.inl ⟨out, findWord_of_end hvalid, hnone⟩
      · obtain ⟨word, out, hread, hout, _, htop', _, hsplit⟩ :=
          exists_readWord h hmid hblock hword
        have hfind := findWord_of_word hvalid hread
        by_cases hzero : word = 0#64
        -- a zero word is skipped, and takes no position off
        · have hskip : it.upcoming num content = out.upcoming num content := by
            rw [← hupcoming, hsplit, positions_eq_nil.mpr hzero]
            rfl
          rw [if_pos hzero] at hfind
          rw [hfind, hskip, ← htop, ← htop']
          exact ih out (readWord_validCursor_lt hvalid hread) hout
        · rw [if_neg hzero] at hfind
          right
          refine ⟨word, out, hfind, hzero, hout, htop'.trans htop, ?_⟩
          rw [← hupcoming]
          exact hsplit

/-! ## Enumeration -/

/-- The invariant between two calls of `Next` that has not reported the end: the
positions still to come are those on the stack below its top, which was returned
last, and those from the cursor on. -/
def Remaining (bv : BitVector) (num : Nat) (content : Nat → Bool) (it : BitVectorIterator)
    (rest : List Nat) : Prop :=
  CursorAt bv it ∧ 1 ≤ it.stackTop ∧ it.stackTop ≤ kNumWordBits ∧
    rest = it.items.tail ++ it.upcoming num content

theorem remaining_new (h : bv.Holds num content) (hnum : 1 ≤ num)
    (stack : Vector Nat kNumWordBits) :
    ∃ it, new stack bv = some it ∧ Remaining bv num content it (positions content num) := by
  obtain ⟨block, hblock, _⟩ :=
    h.laidOut.exists_block kNumTuplesPerBlock_pos (show 0 < bv.num by rw [h.num_eq]; omega)
  rw [Nat.zero_div] at hblock
  have htop : (initial stack).stackTop ≤ kNumWordBits := show 1 ≤ kNumWordBits by decide
  have hone : (initial stack).items.tail = [] := by
    apply List.eq_nil_of_length_eq_zero
    rw [List.length_tail, length_items htop]
    rfl
  refine ⟨initial stack, by rw [new, BitVector.getBVBlock, hblock, Option.map_some],
    ⟨rfl, (Nat.zero_mul _).symm, block, hblock, Nat.zero_le _⟩, Nat.le_refl 1, htop, ?_⟩
  rw [hone, List.nil_append]
  exact (positionsFrom_zero content num).symm

/-- The step lemma, while positions are left on the stack. -/
theorem next_pop (bv : BitVector) {pos : Nat} {rest : List Nat} (hpos : 1 ≤ it.stackTop)
    (htop : it.stackTop ≤ kNumWordBits) (hitems : it.items.tail = pos :: rest) :
    next bv it = some (true, { it with stackTop := sizeSub it.stackTop 1 }) ∧
      { it with stackTop := sizeSub it.stackTop 1 }.items = pos :: rest := by
  have hlen := length_items htop
  have htail := congrArg List.length hitems
  rw [List.length_tail, List.length_cons, hlen] at htail
  refine ⟨if_neg ?_, (items_pop hpos htop).trans hitems⟩
  show ¬ sizeSub it.stackTop 1 = 0
  rw [sizeSub_of_le hpos]
  omega

/-- The step lemma when the stack runs empty. -/
theorem next_refill (h : bv.Holds num content) (hcursor : CursorAt bv it)
    (hone : it.stackTop = 1) :
    (∃ out, next bv it = some (false, out) ∧ it.upcoming num content = []) ∨
    ∃ out pos rest, next bv it = some (true, out) ∧ CursorAt bv out ∧
      out.stackTop ≤ kNumWordBits ∧ out.items = pos :: rest ∧
      it.upcoming num content = pos :: rest ++ out.upcoming num content := by
  let popped := { it with stackTop := sizeSub it.stackTop 1 }
  have hzero : popped.stackTop = 0 := by
    show sizeSub it.stackTop 1 = 0
    rw [hone]
    rfl
  have hpopped : CursorAt bv popped :=
    ⟨hcursor.curBlock_eq, hcursor.blockOffset_eq, hcursor.exists_block⟩
  rcases findWord_cases h hpopped with ⟨out, hfind, hnone⟩ |
    ⟨word, mid, hfind, hword, hmid, htop, hsplit⟩
  · left
    refine ⟨out, ?_, hnone⟩
    unfold next
    dsimp only
    rw [if_pos hzero, hfind, Option.bind_some]
  · right
    -- the stack is empty here, so a whole word of positions fits
    have hroom : mid.stackTop + (kNumWordBits - 1) < kNumWordBits := by
      rw [htop, hzero]
      decide
    obtain ⟨stack, stackTop, hpush, hle, hitems⟩ := exists_pushBits word
      (mid.blockOffset + sizeSub mid.curWordId 1 * kNumWordBits) hroom
    have hempty : mid.items = [] := by
      unfold items
      rw [htop, hzero]
      rfl
    rw [hempty, List.append_nil, show kNumWordBits - 1 + 1 = kNumWordBits from rfl] at hitems
    obtain ⟨first, others, hpositions⟩ := List.exists_cons_of_ne_nil
      (fun hnone => hword (positions_eq_nil.mp hnone))
    rw [hpositions, List.map_cons] at hitems hsplit
    refine ⟨{ mid with stack := stack, stackTop := stackTop }, _, _, ?_,
      ⟨hmid.curBlock_eq, hmid.blockOffset_eq, hmid.exists_block⟩, hle, hitems, hsplit⟩
    unfold next
    dsimp only
    rw [if_pos hzero, hfind, Option.bind_some]
    dsimp only
    rw [hpush, Option.map_some]

/-- The run lemma: a fresh iterator enumerates the set positions in increasing
order and then reports the end, and no access on the way is out of range. -/
theorem exists_yields (h : bv.Holds num content) (hnum : 1 ≤ num)
    (stack : Vector Nat kNumWordBits) :
    ∃ it, new stack bv = some it ∧ Yields (next bv) getPosition it (positions content num) := by
  obtain ⟨it, hnew, hremaining⟩ := remaining_new h hnum stack
  refine ⟨it, hnew, yields_of_rel (Remaining bv num content) ?_ ?_ hremaining⟩
  · rintro it ⟨hcursor, hpos, htop, hrest⟩
    obtain ⟨htail, hnone⟩ := List.append_eq_nil_iff.mp hrest.symm
    have hlen := congrArg List.length htail
    rw [List.length_tail, length_items htop, List.length_nil] at hlen
    rcases next_refill h hcursor (by omega) with ⟨out, hnext, _⟩ | ⟨_, _, _, _, _, _, _, hsplit⟩
    · exact ⟨out, hnext⟩
    · rw [hnone] at hsplit
      contradiction
  · rintro it pos rest ⟨hcursor, hpos, htop, hrest⟩
    cases htail : it.items.tail with
    | nil =>
        have hlen := congrArg List.length htail
        rw [List.length_tail, length_items htop, List.length_nil] at hlen
        rw [htail, List.nil_append] at hrest
        rcases next_refill h hcursor (by omega) with ⟨_, _, hnone⟩ |
          ⟨out, pos', rest', hnext, hout, hle, hitems, hsplit⟩
        · rw [hnone] at hrest
          contradiction
        · rw [hsplit] at hrest
          obtain ⟨rfl, rfl⟩ := List.cons.inj hrest
          have hlen' := length_items hle
          rw [hitems, List.length_cons] at hlen'
          exact ⟨out, hnext, getPosition_eq hle hitems, hout, by omega, hle, by rw [hitems]; rfl⟩
    | cons pos' rest' =>
        obtain ⟨hnext, hitems⟩ := next_pop bv hpos htop htail
        rw [htail] at hrest
        obtain ⟨rfl, rfl⟩ := List.cons.inj hrest
        have hle : { it with stackTop := sizeSub it.stackTop 1 }.stackTop ≤ kNumWordBits := by
          show sizeSub it.stackTop 1 ≤ kNumWordBits
          rw [sizeSub_of_le hpos]
          omega
        have hlen' := length_items hle
        rw [hitems, List.length_cons] at hlen'
        refine ⟨_, hnext, getPosition_eq hle hitems,
          ⟨hcursor.curBlock_eq, hcursor.blockOffset_eq, hcursor.exists_block⟩, by omega, hle, ?_⟩
        rw [hitems]
        rfl

/-! ## After the end -/

theorem stackTop_validCursor {out : BitVectorIterator} {valid : Bool}
    (hvalid : validCursor bv it = some (valid, out)) : out.stackTop = it.stackTop := by
  obtain ⟨block, _, hcursor⟩ := Option.map_eq_some_iff.mp hvalid
  split at hcursor
  · dsimp only at hcursor
    split at hcursor
    · rw [← (Prod.mk.inj hcursor).2]
      rfl
    · rw [← (Prod.mk.inj hcursor).2]
      rfl
  · rw [← (Prod.mk.inj hcursor).2]

theorem stackTop_readWord {out : BitVectorIterator} {word : WordUnit}
    (hread : readWord bv it = some (word, out)) : out.stackTop = it.stackTop := by
  obtain ⟨block, _, hword⟩ := Option.bind_eq_some_iff.mp hread
  split at hword
  · rw [← (Prod.mk.inj (Option.some.inj hword)).2]
  · contradiction

/-- The search for a word moves the cursor and leaves the stack alone. -/
theorem stackTop_findWord {out : BitVectorIterator} {word : Option WordUnit}
    (hfind : findWord bv it = some (word, out)) : out.stackTop = it.stackTop := by
  fun_induction findWord bv it with
  | case1 it hvalid => contradiction
  | case2 it mid hvalid =>
      rw [← (Prod.mk.inj (Option.some.inj hfind)).2]
      exact stackTop_validCursor hvalid
  | case3 it mid hvalid hread => contradiction
  | case4 it mid hvalid next hread ih =>
      rw [ih hfind, stackTop_readWord hread, stackTop_validCursor hvalid]
  | case5 it mid hvalid word next hread hzero =>
      rw [← (Prod.mk.inj (Option.some.inj hfind)).2, stackTop_readWord hread,
        stackTop_validCursor hvalid]

/-- A call that reports the end leaves an empty stack. -/
theorem stackTop_of_next_false {out : BitVectorIterator}
    (hnext : next bv it = some (false, out)) : out.stackTop = 0 := by
  unfold next at hnext
  dsimp only at hnext
  split at hnext
  · rename_i hzero
    obtain ⟨⟨word, mid⟩, hfind, hrest⟩ := Option.bind_eq_some_iff.mp hnext
    cases word with
    | none =>
        rw [← (Prod.mk.inj (Option.some.inj hrest)).2, stackTop_findWord hfind]
        exact hzero
    | some word =>
        obtain ⟨_, _, hpush⟩ := Option.map_eq_some_iff.mp hrest
        simp at hpush
  · simp at hnext

/-- The call after that wraps the top of the stack around and takes the stack for
nonempty. -/
theorem next_of_stackTop_eq_zero (bv : BitVector) (hzero : it.stackTop = 0) :
    next bv it = some (true, { it with stackTop := 2 ^ 64 - 1 }) := by
  unfold next
  rw [hzero]
  exact if_neg (show ¬ sizeSub 0 1 = 0 by decide)

/-- Once the end was reported: every later call reports it again, and the top of the
stack and the block cursor stay in their ranges. -/
def StaysExhausted (bv : BitVector) (it : BitVectorIterator) : Prop :=
  ∀ calls, ∃ later, stepAgain (next bv) calls it = some (false, later) ∧
    later.stackTop ≤ kNumWordBits ∧ later.curBlockId ≤ bv.getNumBlocks

theorem not_staysExhausted (bv : BitVector) (hzero : it.stackTop = 0) :
    ¬ StaysExhausted bv it := by
  intro hstays
  obtain ⟨later, hagain, _⟩ := hstays 0
  rw [stepAgain, next_of_stackTop_eq_zero bv hzero] at hagain
  simp at hagain

end BitVectorIterator

/-- **The iterator enumerates the set positions.**  For every bit vector of at least
one bit, cut into blocks as the constructor cuts it and clear past the end of every
block, the calls of `Next` on a fresh iterator return true as often as `CountOnes`
says and then false.  The positions observed after them increase and are those
whose bit is set.  An index of the stack, a word or a block that is out of range has
the outcome `none`, which none of these calls and observations has. -/
theorem iterator_enumerates (bv : BitVector) (hnum : 1 ≤ bv.num) (hlaid : bv.LaidOut)
    (htail : bv.TailClear) (stack : Vector Nat kNumWordBits) :
    ∃ it visited, BitVectorIterator.new stack bv = some it ∧
      Yields (BitVectorIterator.next bv) BitVectorIterator.getPosition it visited ∧
      bv.countOnes = some visited.length ∧ visited.Pairwise (· < ·) ∧
      ∀ pos, pos ∈ visited ↔ pos < bv.num ∧ bv.getBit pos = some true := by
  have h : bv.Holds bv.num bv.bit := ⟨rfl, hlaid, htail, fun _ _ => rfl⟩
  obtain ⟨it, hnew, hyields⟩ := BitVectorIterator.exists_yields h hnum stack
  refine ⟨it, positions bv.bit bv.num, hnew, hyields, h.countOnes_eq,
    positions_pairwise_lt _ _, fun pos => ?_⟩
  rw [mem_positions]
  refine and_congr_right fun hpos => ?_
  rw [h.getBit_eq hpos, Option.some.injEq]

/-- A new vector of three bits: the iterator visits all of them. -/
theorem iterator_enumerates_three :
    ∃ bv it visited, BitVector.new 3 = some bv ∧
      BitVectorIterator.new (Vector.replicate _ 0) bv = some it ∧
      Yields (BitVectorIterator.next bv) BitVectorIterator.getPosition it visited ∧
      bv.countOnes = some visited.length ∧ ∀ pos, pos ∈ visited ↔ pos < 3 := by
  obtain ⟨bv, hbv, hholds⟩ := BitVector.exists_new 3
  obtain ⟨it, visited, hnew, hyields, hcount, _, hmem⟩ := iterator_enumerates bv
    (by rw [hholds.num_eq]; omega) hholds.laidOut hholds.tailClear (Vector.replicate _ 0)
  refine ⟨bv, it, visited, hbv, hnew, hyields, hcount, fun pos => ?_⟩
  rw [hmem, hholds.num_eq]
  exact and_iff_left_of_imp fun hpos => hholds.getBit_eq hpos

/-- **No iterator stays exhausted.**  On every bit vector and every iterator, after a
call of `Next` that reported the end it is not so that every later call reports it
and leaves the stack and the block cursor in range.  On every bit vector of at least
one bit that the operations produce, a fresh iterator comes to such a call. -/
theorem exhausted_iterator_revives (bv : BitVector) :
    (∀ it calls out, stepAgain (BitVectorIterator.next bv) calls it = some (false, out) →
      ¬ BitVectorIterator.StaysExhausted bv out) ∧
    (1 ≤ bv.num → bv.LaidOut → bv.TailClear → ∀ stack, ∃ it calls out,
      BitVectorIterator.new stack bv = some it ∧
      stepAgain (BitVectorIterator.next bv) calls it = some (false, out)) := by
  constructor
  · intro it calls out hagain
    obtain ⟨mid, hnext⟩ := exists_of_stepAgain hagain
    exact BitVectorIterator.not_staysExhausted bv
      (BitVectorIterator.stackTop_of_next_false hnext)
  · intro hnum hlaid htail stack
    have h : bv.Holds bv.num bv.bit := ⟨rfl, hlaid, htail, fun _ _ => rfl⟩
    obtain ⟨it, hnew, hyields⟩ := BitVectorIterator.exists_yields h hnum stack
    obtain ⟨out, hend⟩ := hyields.exists_stepAgain
    exact ⟨it, _, out, hnew, hend⟩

/-- On a new vector of three bits a fresh iterator comes to its end, and does not stay
there. -/
theorem exhausted_iterator_revives_three :
    ∃ bv it calls out, BitVector.new 3 = some bv ∧
      BitVectorIterator.new (Vector.replicate _ 0) bv = some it ∧
      stepAgain (BitVectorIterator.next bv) calls it = some (false, out) ∧
      ¬ BitVectorIterator.StaysExhausted bv out := by
  obtain ⟨bv, hbv, hholds⟩ := BitVector.exists_new 3
  obtain ⟨hrevives, hreaches⟩ := exhausted_iterator_revives bv
  obtain ⟨it, calls, out, hnew, hagain⟩ := hreaches (by rw [hholds.num_eq]; omega)
    hholds.laidOut hholds.tailClear (Vector.replicate _ 0)
  exact ⟨bv, it, calls, out, hbv, hnew, hagain, hrevives it calls out hagain⟩

/-- A vector of one bit, which is set: the first call moves to it, the second reports
the end, and the third returns true again, with the top of the stack far outside the
stack and no position to observe. -/
theorem exhausted_iterator_one :
    ∃ bv it out later, BitVector.new 1 = some bv ∧
      BitVectorIterator.new (Vector.replicate _ 0) bv = some it ∧
      stepAgain (BitVectorIterator.next bv) 1 it = some (false, out) ∧
      ¬ BitVectorIterator.StaysExhausted bv out ∧
      BitVectorIterator.next bv out = some (true, later) ∧
      later.stackTop = 2 ^ 64 - 1 ∧ later.getPosition = none := by
  obtain ⟨bv, hbv, hholds⟩ := BitVector.exists_new 1
  obtain ⟨it, hnew, hyields⟩ :=
    BitVectorIterator.exists_yields hholds (Nat.le_refl 1) (Vector.replicate _ 0)
  obtain ⟨out, hend⟩ := hyields.exists_stepAgain
  obtain ⟨mid, hnext⟩ := exists_of_stepAgain hend
  have hzero := BitVectorIterator.stackTop_of_next_false hnext
  refine ⟨bv, it, out, _, hbv, hnew, hend, BitVectorIterator.not_staysExhausted bv hzero,
    BitVectorIterator.next_of_stackTop_eq_zero bv hzero, rfl, ?_⟩
  exact Vector.getElem?_eq_none (show kNumWordBits ≤ sizeSub (2 ^ 64 - 1) 1 by decide)

end ByteSlice
