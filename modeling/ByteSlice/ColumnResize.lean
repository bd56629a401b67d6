import Mathlib
import ByteSlice.ColumnArray

/-!
# `Column::Resize`

`Resize` adds or removes blocks and then corrects the size of the last one.  Two
slips keep it from its purpose.  The correction is skipped when the new size is a
multiple of the block size, so growing inside the last block up to that multiple
leaves the block's old size; and the deletion loop stops one block early, so every
shrink that crosses a block boundary leaves one block too many.

The two main results are exact: they say when a resized column is fit for its new
size, and each comes with a column on which the code goes wrong.
-/

namespace ByteSlice

open Foundation

namespace Column

/-- The deletion loop: `delete` and `pop_back` once for each value of `bid`. -/
def removeBlocks (newNumBlocks bid : Nat) (blocks : List ColumnBlock) : List ColumnBlock :=
  if newNumBlocks < bid then removeBlocks newNumBlocks (bid - 1) blocks.dropLast else blocks
termination_by bid

/-- The loop that appends new blocks. -/
def appendBlocks (type : ColumnType) (bitWidth oldNumBlocks newNumBlocks : Nat)
    (blocks : List ColumnBlock) : Option (List ColumnBlock) :=
  forLoop newNumBlocks 1 Nat.one_pos
    (fun _ _ (blocks : Option (List ColumnBlock)) => blocks.bind fun blocks =>
      (createNewBlock type bitWidth).map fun newBlock =>
        blocks ++ [newBlock.resize kNumTuplesPerBlock])
    oldNumBlocks (some blocks)

/-- `blocks_[block_id]->Resize(num)` -/
def resizeBlock (num blockId : Nat) (blocks : List ColumnBlock) : Option (List ColumnBlock) :=
  stepCell (fun _ block => some (block.resize num)) blocks blockId

/-- The first half of `Resize`, which changes the number of blocks. -/
def adjustBlocks (num : Nat) (c : Column) : Option (List ColumnBlock) :=
  let newNumBlocks := ceil num kNumTuplesPerBlock
  let oldNumBlocks := c.blocks.length
  if newNumBlocks > oldNumBlocks then
    (resizeBlock kNumTuplesPerBlock (sizeSub oldNumBlocks 1) c.blocks).bind
      (appendBlocks c.type c.bitWidth oldNumBlocks newNumBlocks)
  else if newNumBlocks < oldNumBlocks then
    some (removeBlocks newNumBlocks (oldNumBlocks - 1) c.blocks)
  else
    some c.blocks

/-- The second half, which corrects the size of `blocks_.back()`. -/
def correctLast (num : Nat) (blocks : List ColumnBlock) : Option (List ColumnBlock) :=
  let numTuplesLastBlock := num % kNumTuplesPerBlock
  if 0 < numTuplesLastBlock then
    resizeBlock numTuplesLastBlock (sizeSub blocks.length 1) blocks
  else
    some blocks

/-- `Resize`.  The final assertion is compiled out of a release build. -/
def resize (num : Nat) (c : Column) : Option Column :=
  ((c.adjustBlocks num).bind (correctLast num)).map fun blocks =>
    { c with numTuples := num, blocks := blocks }

/-! ## The two halves -/

theorem ceil_kNumTuplesPerBlock {num : Nat} (hnum : 0 < num) :
    ceil num kNumTuplesPerBlock = chunkCount kNumTuplesPerBlock num :=
  ceil_eq_ceilDiv hnum kNumTuplesPerBlock_pos

theorem removeBlocks_eq_take {newNumBlocks bid : Nat} {blocks : List ColumnBlock}
    (hlen : bid + 1 = blocks.length) (hle : newNumBlocks ≤ bid) :
    removeBlocks newNumBlocks bid blocks = blocks.take (newNumBlocks + 1) := by
  induction bid generalizing blocks with
  | zero =>
      rw [removeBlocks, if_neg (by omega), List.take_of_length_le (by omega)]
  | succ bid ih =>
      rw [removeBlocks]
      by_cases hlt : newNumBlocks < bid + 1
      · have hdrop : bid + 1 = blocks.dropLast.length := by
          rw [List.length_dropLast]
          omega
        rw [if_pos hlt, Nat.add_sub_cancel, ih hdrop (by omega), List.dropLast_eq_take,
          List.take_take]
        congr 1
        omega
      · rw [if_neg hlt, List.take_of_length_le (by omega)]

theorem appendBlocks_eq {type : ColumnType} {bitWidth oldNumBlocks newNumBlocks : Nat}
    {kind : BlockKind} (hkind : blockKind type bitWidth = some kind)
    (hlt : oldNumBlocks < newNumBlocks) (blocks : List ColumnBlock) :
    appendBlocks type bitWidth oldNumBlocks newNumBlocks blocks =
      some (blocks ++ List.replicate (newNumBlocks - oldNumBlocks)
        ((ColumnBlock.new kNumTuplesPerBlock kind).resize kNumTuplesPerBlock)) := by
  obtain ⟨exit, hstop, hnear, _, _, hexit⟩ := forLoop_rule Nat.one_pos
    (fun i (_ : i < newNumBlocks) (made : Option (List ColumnBlock)) => made.bind fun made =>
      (createNewBlock type bitWidth).map fun newBlock =>
        made ++ [newBlock.resize kNumTuplesPerBlock])
    (fun i made => oldNumBlocks ≤ i ∧ made = some (blocks ++ List.replicate (i - oldNumBlocks)
      ((ColumnBlock.new kNumTuplesPerBlock kind).resize kNumTuplesPerBlock)))
    (fun i _ made ⟨hle, hmade⟩ => by
      refine ⟨by omega, ?_⟩
      rw [hmade, createNewBlock, hkind, show i + 1 - oldNumBlocks = i - oldNumBlocks + 1 by omega,
        List.replicate_succ', ← List.append_assoc]
      rfl)
    oldNumBlocks (some blocks) ⟨Nat.le_refl _, by simp⟩
  have hexitEq : exit = newNumBlocks := by omega
  rw [hexitEq] at hexit
  exact hexit.2

/-- Correcting the last block of a nonempty list. -/
theorem correctLast_eq (num : Nat) {blocks : List ColumnBlock} {last : ColumnBlock}
    (hlast : blocks[blocks.length - 1]? = some last) :
    correctLast num blocks = some (if 0 < num % kNumTuplesPerBlock then
      blocks.set (blocks.length - 1) (last.resize (num % kNumTuplesPerBlock)) else blocks) := by
  have hlt := (List.getElem?_eq_some_iff.mp hlast).1
  unfold correctLast resizeBlock
  dsimp only
  rw [sizeSub_of_le (by omega)]
  by_cases hrest : 0 < num % kNumTuplesPerBlock
  · rw [if_pos hrest, if_pos hrest]
    exact stepCell_eq_some_iff.mpr ⟨last, _, hlast, rfl, rfl⟩
  · rw [if_neg hrest, if_neg hrest]

/-- After the correction the layout is right for `num` if the remainder was
corrected, or if the last block was full already. -/
theorem exists_correctLast {num : Nat} {blocks : List ColumnBlock}
    (hlen : blocks.length = chunkCount kNumTuplesPerBlock num)
    (hfull : FullButLast blocks) {last : ColumnBlock}
    (hlast : blocks[blocks.length - 1]? = some last) :
    ∃ out, correctLast num blocks = some out ∧
      (Foundation.LaidOut kNumTuplesPerBlock ColumnBlock.numTuples num out ↔
        0 < num % kNumTuplesPerBlock ∨ last.numTuples = kNumTuplesPerBlock) := by
  have hlt := (List.getElem?_eq_some_iff.mp hlast).1
  refine ⟨_, correctLast_eq num hlast, ?_⟩
  by_cases hrest : 0 < num % kNumTuplesPerBlock
  -- the corrected block has the remainder, the others are full
  · rw [if_pos hrest]
    let corrected := last.resize (num % kNumTuplesPerBlock)
    have hset : (blocks.set (blocks.length - 1) corrected).length = blocks.length :=
      List.length_set
    have hback : (blocks.set (blocks.length - 1) corrected)[(blocks.set (blocks.length - 1)
        corrected).length - 1]? = some corrected := by
      rw [hset]
      exact List.getElem?_set_self hlt
    refine iff_of_true ?_ (Or.inl hrest)
    refine (laidOut_iff_last kNumTuplesPerBlock_pos (hset.trans hlen) ?_ hback).mpr ?_
    · intro i block hi hblock
      rw [hset] at hi
      rw [List.getElem?_set_ne (by omega)] at hblock
      exact hfull i block hi hblock
    · rw [if_pos hrest]
      exact last.numTuples_resize _
  · rw [if_neg hrest, laidOut_iff_last kNumTuplesPerBlock_pos hlen hfull hlast, if_neg hrest]
    exact (or_iff_right hrest).symm

/-- Growing fills up the last block and appends full ones. -/
theorem adjustBlocks_grow {c : Column} {kind : BlockKind}
    (hkind : blockKind c.type c.bitWidth = some kind) {num : Nat} (hnum : 0 < num)
    (hgrow : c.blocks.length < chunkCount kNumTuplesPerBlock num) {last : ColumnBlock}
    (hlast : c.blocks[c.blocks.length - 1]? = some last) :
    c.adjustBlocks num = some
      (c.blocks.set (c.blocks.length - 1) (last.resize kNumTuplesPerBlock) ++
        List.replicate (chunkCount kNumTuplesPerBlock num - c.blocks.length)
          ((ColumnBlock.new kNumTuplesPerBlock kind).resize kNumTuplesPerBlock)) := by
  have hlt := (List.getElem?_eq_some_iff.mp hlast).1
  have hfill : resizeBlock kNumTuplesPerBlock (sizeSub c.blocks.length 1) c.blocks =
      some (c.blocks.set (c.blocks.length - 1) (last.resize kNumTuplesPerBlock)) := by
    rw [sizeSub_of_le (by omega)]
    exact stepCell_eq_some_iff.mpr ⟨last, _, hlast, rfl, rfl⟩
  unfold adjustBlocks
  dsimp only
  rw [ceil_kNumTuplesPerBlock hnum, if_pos hgrow, hfill, Option.bind_some]
  exact appendBlocks_eq hkind hgrow _

/-- Otherwise blocks are removed at most, and one more stays than is needed, if
there is one. -/
theorem adjustBlocks_of_le {c : Column} {num : Nat} (hnum : 0 < num)
    (hle : chunkCount kNumTuplesPerBlock num ≤ c.blocks.length) :
    c.adjustBlocks num = some (c.blocks.take (chunkCount kNumTuplesPerBlock num + 1)) := by
  unfold adjustBlocks
  dsimp only
  rw [ceil_kNumTuplesPerBlock hnum, if_neg (by omega)]
  by_cases hlt : chunkCount kNumTuplesPerBlock num < c.blocks.length
  · rw [if_pos hlt, removeBlocks_eq_take (by omega) (by omega)]
  · rw [if_neg hlt, List.take_of_length_le (by omega)]

/-- The blocks after growing are all full, before the correction. -/
theorem exists_adjustBlocks_grow {c : Column} (hfull : FullButLast c.blocks) {kind : BlockKind}
    (hkind : blockKind c.type c.bitWidth = some kind) (hpos : 0 < c.blocks.length)
    {num : Nat} (hnum : 0 < num)
    (hgrow : c.blocks.length < chunkCount kNumTuplesPerBlock num) :
    ∃ blocks, c.adjustBlocks num = some blocks ∧
      blocks.length = chunkCount kNumTuplesPerBlock num ∧
      ∀ (i : Nat) (block : ColumnBlock), blocks[i]? = some block →
        block.numTuples = kNumTuplesPerBlock := by
  obtain ⟨last, hlast⟩ := exists_back hpos
  refine ⟨_, adjustBlocks_grow hkind hnum hgrow hlast, ?_, fun i block hblock => ?_⟩
  · rw [List.length_append, List.length_replicate, List.length_set]
    omega
  -- an old block, full as before or filled up, or one of the new ones
  · by_cases hi : i < c.blocks.length
    · rw [List.getElem?_append_left (by rw [List.length_set]; exact hi)] at hblock
      by_cases hback : c.blocks.length - 1 = i
      · subst hback
        rw [List.getElem?_set_self (by omega)] at hblock
        rw [← Option.some.inj hblock]
        exact ColumnBlock.numTuples_resize _ _
      · rw [List.getElem?_set_ne hback] at hblock
        exact hfull i block (by omega) hblock
    · rw [List.getElem?_append_right (by rw [List.length_set]; omega)] at hblock
      rw [List.eq_of_mem_replicate (List.mem_of_getElem? hblock)]
      exact ColumnBlock.numTuples_resize _ _

/-! ## What a layout is good for -/

/-- A column fit for `num` tuples: it is laid out for them, its blocks have the
sizes of those of a bit vector of `num` bits, a bulk load of the whole range stays
inside its blocks, and a scan into such a bit vector finds every block. -/
structure FitFor (c : Column) (num : Nat) : Prop where
  num_eq : c.numTuples = num
  laidOut : c.LaidOut
  matches_bitVector : ∀ bv, BitVector.new num = some bv →
    List.Forall₂ (fun block bvBlock => BitVectorBlock.num bvBlock = block.numTuples)
      c.blocks bv.blocks
  exists_bulkLoadArray : ∀ codes, ∃ c', c.bulkLoadArray codes num 0 = some c'
  exists_scan : ∀ cmp literal opt bv, BitVector.new num = some bv →
    ∃ out, c.scan cmp literal bv opt = some out

/-- In a laid out column every write in range finds its block. -/
theorem exists_bulkLoadArray_of_laidOut {c : Column} (hlaid : c.LaidOut)
    (codes : Nat → WordUnit) : ∃ c', c.bulkLoadArray codes c.numTuples 0 = some c' := by
  -- the bulk load is the sequence of its single writes
  have hloop := bulkLoadLoop_eq codes 0 0 0 c.numTuples c.blocks hlaid kNumTuplesPerBlock_pos
    (fun _ => by omega)
  simp only [Nat.zero_mul, Nat.zero_add] at hloop
  have hinside : AdmissibleRun (fun (_ : Unit) k => k < c.numTuples) (fun _ _ => ()) ()
      (List.range c.numTuples) :=
    admissibleRun_of_forall (fun k hk _ => List.mem_range.mp hk) ()
  have hruns : ∃ blocks, runOps (fun blocks k => writeTuple blocks k (codes k)) c.blocks
      (List.range c.numTuples) = some blocks ∧
      Foundation.LaidOut kNumTuplesPerBlock ColumnBlock.numTuples c.numTuples blocks :=
    runOps_simulates (fun blocks (_ : Unit) =>
      Foundation.LaidOut kNumTuplesPerBlock ColumnBlock.numTuples c.numTuples blocks)
      (fun blocks _ k hblocks (hk : k < c.numTuples) => by
        obtain ⟨block, hblock, _⟩ := hblocks.exists_block kNumTuplesPerBlock_pos hk
        exact ⟨_, stepCell_eq_some_iff.mpr ⟨block, _, hblock, rfl, rfl⟩,
          hblocks.set hblock (block.numTuples_setTuple _ _)⟩)
      hlaid hinside
  obtain ⟨blocks, hrun, _⟩ := hruns
  refine ⟨{ c with blocks := blocks }, ?_⟩
  unfold bulkLoadArray
  rw [Nat.zero_div, Nat.zero_mod]
  dsimp only
  rw [hloop]
  exact congrArg _ hrun

theorem fitFor_iff_laidOut {c : Column} {num : Nat} (hnum : c.numTuples = num) :
    c.FitFor num ↔ c.LaidOut := by
  refine ⟨FitFor.laidOut, fun hlaid => ?_⟩
  subst hnum
  refine ⟨rfl, hlaid, fun bv hbv => LaidOut.forall₂_num hlaid hbv,
    exists_bulkLoadArray_of_laidOut hlaid, fun cmp literal opt bv hbv => ?_⟩
  have hholds := BitVector.holds_of_new hbv
  have horder : BitVector.IsSchedule bv.num (List.range c.blocks.length) := by
    rw [hlaid.length_blocks, hholds.num_eq]
    exact BitVector.isSchedule_ascending _
  obtain ⟨out, hout, _⟩ := BitVector.exists_forBlocks hholds.laidOut horder
    (LaidOut.scan_body hlaid hholds.laidOut hholds.num_eq cmp literal opt)
  exact ⟨out, hout⟩

/-! ## Resizing -/

theorem resize_of_adjustBlocks {c : Column} {num : Nat} {blocks out : List ColumnBlock}
    (hadjust : c.adjustBlocks num = some blocks) (hcorrect : correctLast num blocks = some out) :
    c.resize num = some { c with numTuples := num, blocks := out } := by
  unfold resize
  rw [hadjust, Option.bind_some, hcorrect, Option.map_some]

/-- With the number of blocks unchanged, the layout is right unless the remainder
is zero and the last block was not full. -/
theorem exists_resize_same {c : Column} (hlaid : c.LaidOut) (hpos : 0 < c.blocks.length)
    {num : Nat} (hnum : 0 < num)
    (hsame : chunkCount kNumTuplesPerBlock num = chunkCount kNumTuplesPerBlock c.numTuples) :
    ∃ c', c.resize num = some c' ∧ c'.numTuples = num ∧
      (c'.LaidOut ↔ 0 < num % kNumTuplesPerBlock ∨ c.numTuples % kNumTuplesPerBlock = 0) := by
  have hlen : c.blocks.length = chunkCount kNumTuplesPerBlock num := by
    rw [hsame]
    exact hlaid.length_blocks
  obtain ⟨last, hlast⟩ := exists_back hpos
  have hfull := LaidOut.fullButLast hlaid
  have hadjust : c.adjustBlocks num = some c.blocks := by
    rw [adjustBlocks_of_le hnum hlen.ge, List.take_of_length_le (by omega)]
  obtain ⟨out, hout, hiff⟩ := exists_correctLast hlen hfull hlast
  refine ⟨_, resize_of_adjustBlocks hadjust hout, rfl, hiff.trans (or_congr_right ?_)⟩
  rw [(laidOut_iff_last kNumTuplesPerBlock_pos hlaid.length_blocks hfull hlast).mp hlaid]
  have hmod := Nat.mod_lt c.numTuples kNumTuplesPerBlock_pos
  split <;> omega

/-- With more blocks than before the layout is right. -/
theorem exists_resize_grow {c : Column} (hlaid : c.LaidOut) {kind : BlockKind}
    (hkind : blockKind c.type c.bitWidth = some kind) (hpos : 0 < c.blocks.length)
    {num : Nat} (hnum : 0 < num)
    (hgrow : c.blocks.length < chunkCount kNumTuplesPerBlock num) :
    ∃ c', c.resize num = some c' ∧ c'.numTuples = num ∧ c'.LaidOut := by
  obtain ⟨blocks, hadjust, hlen, hfull⟩ :=
    exists_adjustBlocks_grow (LaidOut.fullButLast hlaid) hkind hpos hnum hgrow
  obtain ⟨last, hlast⟩ : ∃ last, blocks[blocks.length - 1]? = some last :=
    exists_back (by omega)
  obtain ⟨out, hout, hiff⟩ := exists_correctLast hlen (fun i block _ => hfull i block) hlast
  exact ⟨_, resize_of_adjustBlocks hadjust hout, rfl, hiff.mpr (Or.inr (hfull _ last hlast))⟩

/-- With fewer blocks than before one block is left over. -/
theorem exists_resize_shrink {c : Column} {num : Nat} (hnum : 0 < num)
    (hshrink : chunkCount kNumTuplesPerBlock num < c.blocks.length) :
    ∃ c', c.resize num = some c' ∧ c'.numTuples = num ∧
      c'.blocks.length = chunkCount kNumTuplesPerBlock num + 1 := by
  let kept := c.blocks.take (chunkCount kNumTuplesPerBlock num + 1)
  have hlen : kept.length = chunkCount kNumTuplesPerBlock num + 1 := by
    rw [List.length_take]
    omega
  have hadjust : c.adjustBlocks num = some kept := adjustBlocks_of_le hnum hshrink.le
  obtain ⟨last, hlast⟩ : ∃ last, kept[kept.length - 1]? = some last :=
    exists_back (by omega)
  refine ⟨_, resize_of_adjustBlocks hadjust (correctLast_eq num hlast), rfl, ?_⟩
  dsimp only
  split
  · rw [List.length_set, hlen]
  · exact hlen

/-- A scan into a bit vector of fewer blocks asks for one that does not exist. -/
theorem scan_eq_none {c : Column} {bv : BitVector} (hlt : bv.blocks.length < c.blocks.length)
    (cmp : Comparator) (literal : WordUnit) (opt : Bitwise) :
    c.scan cmp literal bv opt = none := by
  unfold scan scanIn BitVector.forBlocks
  rw [Option.map_eq_none_iff, Option.eq_none_iff_forall_ne_some]
  intro out hout
  obtain ⟨_, hcells, _⟩ := (runCells_eq_some_iff List.nodup_range _ _).mp hout
  obtain ⟨old, _, hold, _⟩ := hcells bv.blocks.length (List.mem_range.mpr hlt)
  rw [List.getElem?_eq_none (Nat.le_refl _)] at hold
  contradiction

/-- So does every scan of a column that was shrunk across a block boundary, into a
bit vector of the new size. -/
theorem scan_resize_shrink {c c' : Column} {num : Nat} (hnum : 0 < num)
    (hshrink : chunkCount kNumTuplesPerBlock num < c.blocks.length)
    (hresize : c.resize num = some c') {bv : BitVector} (hbv : BitVector.new num = some bv)
    (cmp : Comparator) (literal : WordUnit) (opt : Bitwise) :
    c'.scan cmp literal bv opt = none := by
  obtain ⟨c'', hresize', _, hlen⟩ := exists_resize_shrink hnum hshrink
  obtain rfl : c' = c'' := Option.some.inj (hresize.symm.trans hresize')
  have hholds := BitVector.holds_of_new hbv
  refine scan_eq_none ?_ cmp literal opt
  rw [hlen, hholds.laidOut.length_blocks, hholds.num_eq]
  exact Nat.lt_succ_self _

end Column

/-- **Growing, exactly.**  For every well laid out column with a block and every
`num` not below its size, `Resize` succeeds, and the column is fit for `num` if and
only if the correction of the last block is not skipped (`num` is no multiple of the
block size), or there is nothing to correct (the size does not change, or blocks
are added). -/
theorem resize_grow_iff (c : Column) (kind : BlockKind)
    (hkind : Column.blockKind c.type c.bitWidth = some kind) (hlaid : c.LaidOut)
    (hpos : 0 < c.blocks.length) (num : Nat) (hle : c.numTuples ≤ num) :
    ∃ c', c.resize num = some c' ∧
      (c'.FitFor num ↔ num % kNumTuplesPerBlock ≠ 0 ∨ num = c.numTuples ∨
        chunkCount kNumTuplesPerBlock num ≠ chunkCount kNumTuplesPerBlock c.numTuples) := by
  have hlen := hlaid.length_blocks
  have hsize : 0 < c.numTuples := by
    rw [hlen, lt_chunkCount_iff kNumTuplesPerBlock_pos] at hpos
    omega
  have hmono := chunkCount_mono kNumTuplesPerBlock_pos hle
  rcases Nat.lt_or_ge c.blocks.length (chunkCount kNumTuplesPerBlock num) with hgrow | hsame
  · obtain ⟨c', hresize, hnum, hlaid'⟩ :=
      Column.exists_resize_grow hlaid hkind hpos (by omega) hgrow
    refine ⟨c', hresize, ?_⟩
    rw [Column.fitFor_iff_laidOut hnum]
    exact iff_of_true hlaid' (Or.inr (Or.inr (by omega)))
  · have hcount : chunkCount kNumTuplesPerBlock num = chunkCount kNumTuplesPerBlock c.numTuples :=
      by omega
    obtain ⟨c', hresize, hnum, hiff⟩ :=
      Column.exists_resize_same hlaid hpos (by omega) hcount
    refine ⟨c', hresize, ?_⟩
    rw [Column.fitFor_iff_laidOut hnum, hiff]
    -- both sizes end in the same block, so they are equal when both fill it
    have hlow := (lt_chunkCount_iff kNumTuplesPerBlock_pos).mp
      (show c.blocks.length - 1 < chunkCount kNumTuplesPerBlock c.numTuples by omega)
    have hhigh : ¬ c.blocks.length * kNumTuplesPerBlock < num := fun h => by
      have := (lt_chunkCount_iff kNumTuplesPerBlock_pos).mpr h
      omega
    rw [kNumTuplesPerBlock_eq] at *
    omega

/-- A column of one tuple grown by five blocks and five tuples. -/
theorem resize_grow_iff_five :
    ∃ c c', Column.new .kByteSlicePadRight 11 1 = some c ∧
      c.resize (5 * kNumTuplesPerBlock + 5) = some c' ∧
      c'.FitFor (5 * kNumTuplesPerBlock + 5) := by
  have hkind : Column.blockKind .kByteSlicePadRight 11 =
      some (.byteSlice ⟨11, by omega, by omega⟩) := rfl
  obtain ⟨c, hnew, hstores⟩ := Column.exists_new hkind 1
  have hkind' : Column.blockKind c.type c.bitWidth =
      some (.byteSlice ⟨11, by omega, by omega⟩) := by
    rw [(Column.type_eq_of_new hnew).1, (Column.type_eq_of_new hnew).2]
    exact hkind
  have hpos : 0 < c.blocks.length := by
    rw [hstores.laidOut.length_blocks, hstores.num_eq]
    exact chunkCount_pos kNumTuplesPerBlock_pos Nat.one_pos
  obtain ⟨c', hresize, hiff⟩ := resize_grow_iff c _ hkind' hstores.laidOut hpos
    (5 * kNumTuplesPerBlock + 5) (by rw [hstores.num_eq]; omega)
  refine ⟨c, c', hnew, hresize, hiff.mpr (Or.inl ?_)⟩
  rw [kNumTuplesPerBlock_eq]
  decide

/-- A column of one tuple, grown to a full block: the correction is skipped, and
the only block still has one tuple. -/
theorem resize_grow_full_block :
    ∃ c c', Column.new .kByteSlicePadRight 11 1 = some c ∧ c.LaidOut ∧ 0 < c.blocks.length ∧
      c.numTuples ≤ 1048576 ∧ c.resize 1048576 = some c' ∧ ¬ c'.FitFor 1048576 := by
  have hkind : Column.blockKind .kByteSlicePadRight 11 =
      some (.byteSlice ⟨11, by omega, by omega⟩) := rfl
  obtain ⟨c, hnew, hstores⟩ := Column.exists_new hkind 1
  have hsize := hstores.num_eq
  have hpos : 0 < c.blocks.length := by
    rw [hstores.laidOut.length_blocks, hsize]
    exact chunkCount_pos kNumTuplesPerBlock_pos Nat.one_pos
  have hsame : chunkCount kNumTuplesPerBlock 1048576 =
      chunkCount kNumTuplesPerBlock c.numTuples := by
    have hone : chunkCount kNumTuplesPerBlock 1 = 1 :=
      chunkCount_eq_succ kNumTuplesPerBlock_pos (by decide) (by decide)
    rw [hsize, hone]
    exact chunkCount_eq_succ kNumTuplesPerBlock_pos (by decide) (by decide)
  obtain ⟨c', hresize, _, hiff⟩ :=
    Column.exists_resize_same hstores.laidOut hpos (by omega) hsame
  refine ⟨c, c', hnew, hstores.laidOut, hpos, by omega, hresize, fun hfit => ?_⟩
  have hcases := hiff.mp hfit.laidOut
  rw [hsize, kNumTuplesPerBlock_eq] at hcases
  omega

/-- **Shrinking, exactly.**  For every well laid out column and every positive size
below its own, `Resize` succeeds, and the column is fit for the new size if and only
if the two sizes need the same number of blocks. -/
theorem resize_shrink_iff (c : Column) (hlaid : c.LaidOut) (num : Nat) (hnum : 1 ≤ num)
    (hlt : num < c.numTuples) :
    ∃ c', c.resize num = some c' ∧
      (c'.FitFor num ↔
        chunkCount kNumTuplesPerBlock num = chunkCount kNumTuplesPerBlock c.numTuples) := by
  have hlen := hlaid.length_blocks
  have hmono := chunkCount_mono kNumTuplesPerBlock_pos hlt.le
  rcases Nat.lt_or_ge (chunkCount kNumTuplesPerBlock num) c.blocks.length with hshrink | hsame
  · obtain ⟨c', hresize, hnum', hlen'⟩ := Column.exists_resize_shrink hnum hshrink
    refine ⟨c', hresize, iff_of_false (fun hfit => ?_) (by omega)⟩
    -- one block is left over, so the count of a layout for `num` is wrong
    have hcount := hfit.laidOut.length_blocks
    rw [hnum'] at hcount
    omega
  · have hcount : chunkCount kNumTuplesPerBlock num = chunkCount kNumTuplesPerBlock c.numTuples :=
      by omega
    have hpos : 0 < c.blocks.length := by
      have := chunkCount_pos kNumTuplesPerBlock_pos (show 0 < num by omega)
      omega
    obtain ⟨c', hresize, hnum', hiff⟩ := Column.exists_resize_same hlaid hpos hnum hcount
    refine ⟨c', hresize, iff_of_true ?_ hcount⟩
    rw [Column.fitFor_iff_laidOut hnum', hiff]
    -- a smaller size that is a multiple of the block size needs fewer blocks
    left
    by_contra hrest
    have hmul : num / kNumTuplesPerBlock * kNumTuplesPerBlock = num :=
      Nat.div_mul_cancel (Nat.dvd_of_mod_eq_zero (by omega))
    have hin : num / kNumTuplesPerBlock < chunkCount kNumTuplesPerBlock num := by
      rw [hcount, lt_chunkCount_iff kNumTuplesPerBlock_pos, hmul]
      exact hlt
    rw [lt_chunkCount_iff kNumTuplesPerBlock_pos, hmul] at hin
    exact absurd hin (Nat.lt_irrefl _)

/-- A column of five tuples shrunk to three. -/
theorem resize_shrink_iff_three :
    ∃ c c', Column.new .kNaive 8 5 = some c ∧ c.resize 3 = some c' ∧ c'.FitFor 3 := by
  have hkind : Column.blockKind .kNaive 8 = some (.naive .uint8) := rfl
  obtain ⟨c, hnew, hstores⟩ := Column.exists_new hkind 5
  obtain ⟨c', hresize, hiff⟩ := resize_shrink_iff c hstores.laidOut 3 (by omega)
    (by rw [hstores.num_eq]; omega)
  refine ⟨c, c', hnew, hresize, hiff.mpr ?_⟩
  have hone : chunkCount kNumTuplesPerBlock 5 = 1 :=
    chunkCount_eq_succ kNumTuplesPerBlock_pos (by decide) (by decide)
  rw [hstores.num_eq, hone]
  exact chunkCount_eq_succ kNumTuplesPerBlock_pos (by decide) (by decide)

/-- A column of one tuple more than a block, shrunk to one tuple: both blocks stay,
and a scan into a bit vector of the new size asks for a second block that the
vector does not have. -/
theorem resize_shrink_keeps_block :
    ∃ c c' bv, Column.new .kNaive 8 1048577 = some c ∧ c.LaidOut ∧ 1 < c.numTuples ∧
      c.resize 1 = some c' ∧ c'.blocks.length = 2 ∧ ¬ c'.FitFor 1 ∧
      BitVector.new 1 = some bv ∧ c'.scan .kLess 5#64 bv .kSet = none := by
  have hkind : Column.blockKind .kNaive 8 = some (.naive .uint8) := rfl
  obtain ⟨c, hnew, hstores⟩ := Column.exists_new hkind 1048577
  have hone : chunkCount kNumTuplesPerBlock 1 = 1 :=
    chunkCount_eq_succ kNumTuplesPerBlock_pos (by decide) (by decide)
  have htwo : chunkCount kNumTuplesPerBlock 1048577 = 2 :=
    chunkCount_eq_succ kNumTuplesPerBlock_pos (by decide) (by decide)
  have hshrink : chunkCount kNumTuplesPerBlock 1 < c.blocks.length := by
    rw [hone, hstores.laidOut.length_blocks, hstores.num_eq, htwo]
    omega
  obtain ⟨c', hresize, hnum, hlen⟩ := Column.exists_resize_shrink Nat.one_pos hshrink
  obtain ⟨bv, hbv, _⟩ := BitVector.exists_new 1
  rw [hone] at hlen
  refine ⟨c, c', bv, hnew, hstores.laidOut, by rw [hstores.num_eq]; omega, hresize, hlen,
    fun hfit => ?_, hbv, Column.scan_resize_shrink Nat.one_pos hshrink hresize hbv _ _ _⟩
  have hcount := hfit.laidOut.length_blocks
  rw [hnum, hone] at hcount
  omega

end ByteSlice
