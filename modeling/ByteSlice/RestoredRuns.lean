import Mathlib
import ByteSlice.BlockInvariants
import ByteSlice.Serialization

/-!
# Restored columns

A column that was written to a file and read back has the same tuples.  More is true: no
later use of it, however long, can tell it from the column that was written.

Of a byte-slice block the model holds four slices, of which as many are in use as a code
has bytes.  `used` forgets the others.  It commutes with every operation, and every
observation is one of `used`, so columns that agree up to `used` do so for ever.
-/

namespace ByteSlice

open Foundation

namespace ByteSliceColumnBlock

variable {w : BitWidth} {dir : Direction}

/-- The block with zeros for the slices that are not allocated. -/
def used (b : ByteSliceColumnBlock w dir) : ByteSliceColumnBlock w dir :=
  { b with data := Vector.ofFn fun j : Fin 4 =>
      if j.val < kNumBytesPerCode w then load b.data j else Vector.replicate _ 0#8 }

theorem load_used (b : ByteSliceColumnBlock w dir) {j : Nat} (hj : j < 4) :
    load b.used.data j =
      if j < kNumBytesPerCode w then load b.data j else Vector.replicate _ 0#8 := by
  rw [load_of_lt _ hj]
  exact Vector.getElem_ofFn _

theorem load_used_of_lt (b : ByteSliceColumnBlock w dir) {j : Nat}
    (hj : j < kNumBytesPerCode w) : load b.used.data j = load b.data j := by
  rw [b.load_used (hj.trans_le (kNumBytesPerCode_le w)), if_pos hj]

/-- Two blocks agree up to `used` when their sizes and the slices in use do. -/
theorem used_eq {b b' : ByteSliceColumnBlock w dir} (hnum : b.numTuples = b'.numTuples)
    (hslices : ∀ j, j < kNumBytesPerCode w → load b.data j = load b'.data j) :
    b.used = b'.used := by
  have hdata : b.used.data = b'.used.data := by
    refine ext_load fun j hj => ?_
    rw [b.load_used hj, b'.load_used hj]
    split
    · exact hslices j ‹_›
    · rfl
  exact congrArg₂ ByteSliceColumnBlock.mk hnum hdata

theorem used_new (num : Nat) : (new num : ByteSliceColumnBlock w dir).used = new num := by
  have hdata : (new num : ByteSliceColumnBlock w dir).used.data =
      (new num : ByteSliceColumnBlock w dir).data := by
    refine ext_load fun j hj => ?_
    rw [load_used _ hj]
    split
    · rfl
    · exact (load_replicate _ hj).symm
  exact congrArg (ByteSliceColumnBlock.mk num) hdata

theorem used_setByte (b : ByteSliceColumnBlock w dir) {j : Nat} (hj : j < kNumBytesPerCode w)
    (pos : Nat) (value : ByteUnit) : (b.setByte j pos value).used = b.used.setByte j pos value := by
  have hdata : (b.setByte j pos value).used.data = (b.used.setByte j pos value).data := by
    refine ext_load fun i hi => ?_
    unfold setByte
    rw [load_used _ hi, b.load_used_of_lt hj, load_store _ _ _ hi, load_store _ _ _ hi,
      b.load_used hi]
    by_cases hij : j = i
    · rw [if_pos hij, if_pos hij, if_pos (hij ▸ hj)]
    · rw [if_neg hij, if_neg hij]
  exact congrArg (ByteSliceColumnBlock.mk b.numTuples) hdata

theorem used_setTuple (b : ByteSliceColumnBlock w dir) (pos : Nat) (value : WordUnit) :
    (b.setTuple pos value).used = b.used.setTuple pos value := by
  unfold setTuple
  rcases kNumBytesPerCode_cases w with h | h | h | h <;>
    simp only [h, used_setByte, Nat.reduceLT] <;> cases dir <;> rfl

theorem getTuple_used (b : ByteSliceColumnBlock w dir) (pos : Nat) :
    b.used.getTuple pos = b.getTuple pos :=
  getTuple_congr (fun _ hj => b.load_used_of_lt hj) pos

/-- The nest looks at the slices in use only. -/
theorem scanSlices_congr {cmp : Comparator} {opt : Bitwise} {mask : BitVec 32}
    {slice1 slice1' slice2 slice2' : Nat → AvxUnit}
    (h1 : ∀ j, j < kNumBytesPerCode w → slice1 j = slice1' j)
    (h2 : ∀ j, j < kNumBytesPerCode w → slice2 j = slice2' j) :
    scanSlices w cmp opt mask slice1 slice2 = scanSlices w cmp opt mask slice1' slice2' := by
  unfold scanSlices
  rcases kNumBytesPerCode_cases w with h | h | h | h <;>
    simp only [h, h1, h2, Nat.reduceLT, gt_iff_lt, false_and, if_false]

section Congruence

variable {b b' : ByteSliceColumnBlock w dir} {operand operand' : Nat → Nat → AvxUnit}
  (hslices : ∀ j, j < kNumBytesPerCode w → load b.data j = load b'.data j)
  (hoperand : ∀ j, j < kNumBytesPerCode w → operand j = operand' j)
include hslices hoperand

theorem scanWord_congr (cmp : Comparator) (opt : Bitwise) (offset : Nat) (old : WordUnit) :
    scanWord cmp opt b operand offset old = scanWord cmp opt b' operand' offset old := by
  have hround : ∀ i, scanSlices w cmp opt (inputMask opt old i)
      (fun j => mm256LddquSi256 (load b.data j) (offset + i))
      (fun j => operand j (offset + i)) = scanSlices w cmp opt (inputMask opt old i)
      (fun j => mm256LddquSi256 (load b'.data j) (offset + i))
      (fun j => operand' j (offset + i)) := fun i =>
    scanSlices_congr (fun j hj => congrArg (mm256LddquSi256 · _) (hslices j hj))
      fun j hj => congrFun (hoperand j hj) _
  unfold scanWord bitvectorWord
  simp only [hround]

theorem scanHelper2_congr (hnum : b.numTuples = b'.numTuples) (cmp : Comparator) (opt : Bitwise)
    (bvblock : BitVectorBlock) :
    scanHelper2 cmp opt b operand bvblock = scanHelper2 cmp opt b' operand' bvblock := by
  have hword := scanWord_congr hslices hoperand cmp opt
  obtain ⟨numTuples, data⟩ := b
  obtain ⟨numTuples', data'⟩ := b'
  obtain rfl : numTuples = numTuples' := hnum
  unfold scanHelper2
  simp only [hword]

end Congruence

theorem scan_used (b : ByteSliceColumnBlock w dir) (cmp : Comparator) (literal : WordUnit)
    (bvblock : BitVectorBlock) (opt : Bitwise) :
    b.used.scan cmp literal bvblock opt = b.scan cmp literal bvblock opt :=
  scanHelper2_congr (fun _ hj => b.load_used_of_lt hj) (fun _ _ => rfl) rfl cmp opt bvblock

theorem scanBlock_used (b otherBlock : ByteSliceColumnBlock w dir) (cmp : Comparator)
    (bvblock : BitVectorBlock) (opt : Bitwise) :
    b.used.scanBlock cmp otherBlock.used bvblock opt = b.scanBlock cmp otherBlock bvblock opt :=
  scanHelper2_congr (fun _ hj => b.load_used_of_lt hj)
    (fun _ hj => congrArg mm256LddquSi256 (otherBlock.load_used_of_lt hj)) rfl cmp opt bvblock

end ByteSliceColumnBlock

/-! ## Blocks and columns -/

namespace ColumnBlock

/-- The block without the slices that are not in use. -/
def used : ColumnBlock → ColumnBlock
  | .naive dt b => .naive dt b
  | .byteSlice w b => .byteSlice w b.used

variable (block : ColumnBlock)

theorem numTuples_used : block.used.numTuples = block.numTuples := by
  cases block <;> rfl

theorem getTuple_used (pos : Nat) : block.used.getTuple pos = block.getTuple pos := by
  cases block with
  | naive dt b => rfl
  | byteSlice w b => exact b.getTuple_used pos

theorem used_setTuple (pos : Nat) (value : WordUnit) :
    (block.setTuple pos value).used = block.used.setTuple pos value := by
  cases block with
  | naive dt b => rfl
  | byteSlice w b => exact congrArg (ColumnBlock.byteSlice w) (b.used_setTuple pos value)

theorem used_resize (size : Nat) : (block.resize size).used = block.used.resize size := by
  cases block <;> rfl

theorem used_new (num : Nat) (kind : BlockKind) : (new num kind).used = new num kind := by
  cases kind with
  | naive dt => rfl
  | byteSlice w => exact congrArg (ColumnBlock.byteSlice w) (ByteSliceColumnBlock.used_new num)

theorem used_bulkLoadArray (codes : Nat → WordUnit) (num startPos : Nat) :
    (block.bulkLoadArray codes num startPos).used =
      block.used.bulkLoadArray codes num startPos := by
  rw [bulkLoadArray_eq, bulkLoadArray_eq]
  obtain ⟨_, _, hrel⟩ := forLoop_rel Nat.one_pos
    (fun i (_ : i < num) (block : ColumnBlock) => block.setTuple (startPos + i) (codes i))
    (fun i (_ : i < num) (block : ColumnBlock) => block.setTuple (startPos + i) (codes i))
    (fun _ block block' => block.used = block')
    (fun i _ block _ h => by rw [← h, used_setTuple]) 0 block _ rfl
  exact hrel

theorem scan_used (cmp : Comparator) (literal : WordUnit) (bvBlock : BitVectorBlock)
    (opt : Bitwise) :
    block.used.scan cmp literal bvBlock opt = block.scan cmp literal bvBlock opt := by
  cases block with
  | naive dt b => rfl
  | byteSlice w b => exact b.scan_used cmp literal bvBlock opt

theorem scanBlock_used (columnBlock : ColumnBlock) (cmp : Comparator)
    (bvBlock : BitVectorBlock) (opt : Bitwise) :
    block.used.scanBlock cmp columnBlock.used bvBlock opt =
      block.scanBlock cmp columnBlock bvBlock opt := by
  cases block with
  | naive dt b =>
      have hsame : columnBlock.used.getTuple = columnBlock.getTuple :=
        funext columnBlock.getTuple_used
      show some (b.scanBlock cmp columnBlock.used.getTuple bvBlock opt) = _
      rw [hsame]
      rfl
  | byteSlice w b =>
      cases columnBlock with
      | naive dt b' => rfl
      | byteSlice w' b' =>
          by_cases h : w' = w
          · subst h
            show dite _ _ _ = dite _ _ _
            rw [dif_pos rfl, dif_pos rfl]
            exact congrArg some (b.scanBlock_used b' cmp bvBlock opt)
          · show dite _ _ _ = dite _ _ _
            rw [dif_neg h, dif_neg h]

theorem image_used : block.used.image = block.image := by
  cases block with
  | naive dt b => rfl
  | byteSlice w b =>
      exact ByteSliceColumnBlock.image_congr rfl fun _ hj => b.load_used_of_lt hj

end ColumnBlock

namespace Column

/-- The column without the slices that are not in use. -/
def used (c : Column) : Column := { c with blocks := c.blocks.map ColumnBlock.used }

variable (c : Column)

theorem getTuple_used (id : Nat) : c.used.getTuple id = c.getTuple id := by
  unfold getTuple used
  dsimp only
  rw [List.getElem?_map, Option.map_map]
  congr 1
  funext block
  exact block.getTuple_used _

theorem scanIn_used (order : List Nat) (cmp : Comparator) (literal : WordUnit) (bv : BitVector)
    (opt : Bitwise) : c.used.scanIn order cmp literal bv opt = c.scanIn order cmp literal bv opt := by
  unfold scanIn used
  simp only [List.getElem?_map, Option.map_map, Function.comp_def, ColumnBlock.scan_used]

theorem scanColumnIn_used (otherColumn : Column) (order : List Nat) (cmp : Comparator)
    (bv : BitVector) (opt : Bitwise) :
    c.used.scanColumnIn order cmp otherColumn.used bv opt =
      c.scanColumnIn order cmp otherColumn bv opt := by
  unfold scanColumnIn used
  simp only [List.getElem?_map, Option.bind_map, Function.comp_def, ColumnBlock.scanBlock_used]

theorem serToFile_used (file : SequentialWriteBinaryFile) :
    c.used.serToFile file = c.serToFile file := by
  have himage : c.used.image = c.image := by
    unfold image used
    rw [List.flatMap_map]
    exact List.flatMap_congr fun block _ => block.image_used
  have hwritten : (c.used.serToFile file).written = (c.serToFile file).written := by
    rw [written_serToFile, written_serToFile, himage]
  exact congrArg SequentialWriteBinaryFile.mk hwritten

/-! ## Operations -/

/-- An access to one block. -/
theorem stepCell_used {write : ColumnBlock → ColumnBlock}
    (hwrite : ∀ block, (write block).used = write block.used) (blocks : List ColumnBlock)
    (i : Nat) :
    stepCell (fun _ block => some (write block)) (blocks.map ColumnBlock.used) i =
      (stepCell (fun _ block => some (write block)) blocks i).map
        (List.map ColumnBlock.used) := by
  refine stepCell_map ?_ blocks i
  intro _ block
  exact congrArg some (hwrite block).symm

theorem resizeBlock_used (num i : Nat) (blocks : List ColumnBlock) :
    resizeBlock num i (blocks.map ColumnBlock.used) =
      (resizeBlock num i blocks).map (List.map ColumnBlock.used) :=
  stepCell_used (fun block => block.used_resize num) blocks i

theorem bulkLoadLoop_used (codes : Nat → WordUnit)
    (dataPtr blockId posInBlock numRemainTuples : Nat) (blocks : List ColumnBlock) :
    bulkLoadLoop codes dataPtr blockId posInBlock numRemainTuples
        (blocks.map ColumnBlock.used) =
      (bulkLoadLoop codes dataPtr blockId posInBlock numRemainTuples blocks).map
        (List.map ColumnBlock.used) := by
  induction dataPtr, blockId, posInBlock, numRemainTuples, blocks using
      bulkLoadLoop.induct codes with
  | case1 dataPtr blockId posInBlock remain blocks hremain hnone =>
      have hnone' : (blocks.map ColumnBlock.used)[blockId]? = none := by
        rw [List.getElem?_map, hnone, Option.map_none]
      rw [bulkLoadLoop_eq_none codes dataPtr posInBlock hremain hnone,
        bulkLoadLoop_eq_none codes dataPtr posInBlock hremain hnone', Option.map_none]
  | case2 dataPtr blockId posInBlock remain blocks hremain block hblock size ih =>
      have hblock' : (blocks.map ColumnBlock.used)[blockId]? = some block.used := by
        rw [List.getElem?_map, hblock, Option.map_some]
      rw [bulkLoadLoop_of_block codes dataPtr hremain hblock rfl,
        bulkLoadLoop_of_block codes dataPtr hremain hblock' rfl, block.numTuples_used,
        ← block.used_bulkLoadArray, ← List.map_set]
      exact ih
  | case3 dataPtr blockId posInBlock remain blocks hremain =>
      rw [bulkLoadLoop, if_neg hremain, bulkLoadLoop, if_neg hremain, Option.map_some]

theorem removeBlocks_used (newNumBlocks bid : Nat) (blocks : List ColumnBlock) :
    removeBlocks newNumBlocks bid (blocks.map ColumnBlock.used) =
      (removeBlocks newNumBlocks bid blocks).map ColumnBlock.used := by
  induction bid, blocks using removeBlocks.induct newNumBlocks with
  | case1 bid blocks hlt ih =>
      have hshorter : removeBlocks newNumBlocks bid blocks =
          removeBlocks newNumBlocks (bid - 1) blocks.dropLast := by
        rw [removeBlocks, if_pos hlt]
      rw [hshorter, removeBlocks, if_pos hlt, ← List.map_dropLast]
      exact ih
  | case2 bid blocks hge =>
      rw [removeBlocks, if_neg hge, removeBlocks, if_neg hge]

/-- The blocks that are appended are new ones. -/
theorem appendBlocks_used (type : ColumnType) (bitWidth old new : Nat)
    (blocks : List ColumnBlock) :
    appendBlocks type bitWidth old new (blocks.map ColumnBlock.used) =
      (appendBlocks type bitWidth old new blocks).map (List.map ColumnBlock.used) := by
  obtain ⟨_, _, hrel⟩ := forLoop_rel Nat.one_pos
    (fun i (_ : i < new) (made : Option (List ColumnBlock)) => made.bind fun made =>
      (createNewBlock type bitWidth).map fun newBlock =>
        made ++ [newBlock.resize kNumTuplesPerBlock])
    (fun i (_ : i < new) (made : Option (List ColumnBlock)) => made.bind fun made =>
      (createNewBlock type bitWidth).map fun newBlock =>
        made ++ [newBlock.resize kNumTuplesPerBlock])
    (fun _ made made' => made' = made.map (List.map ColumnBlock.used))
    (fun i _ made made' h => by
      subst h
      cases made with
      | none => rfl
      | some made =>
          show (createNewBlock type bitWidth).map _ = ((createNewBlock type bitWidth).map _).map _
          rw [Option.map_map]
          unfold createNewBlock
          rw [Option.map_map, Option.map_map]
          congr 1
          funext kind
          show made.map _ ++ _ = (made ++ _).map _
          rw [List.map_append, List.map_singleton, ColumnBlock.used_resize,
            ColumnBlock.used_new])
    old (some blocks) _ rfl
  exact hrel

theorem adjustBlocks_used (num : Nat) :
    c.used.adjustBlocks num = (c.adjustBlocks num).map (List.map ColumnBlock.used) := by
  have hlen : c.used.blocks.length = c.blocks.length := List.length_map ..
  unfold adjustBlocks
  dsimp only
  rw [hlen]
  split
  · show (resizeBlock _ _ (c.blocks.map _)).bind _ = _
    rw [resizeBlock_used]
    cases resizeBlock kNumTuplesPerBlock (sizeSub c.blocks.length 1) c.blocks with
    | none => rfl
    | some filled => exact appendBlocks_used _ _ _ _ filled
  · split
    · exact congrArg some (removeBlocks_used _ _ c.blocks)
    · rfl

theorem correctLast_used (num : Nat) (blocks : List ColumnBlock) :
    correctLast num (blocks.map ColumnBlock.used) =
      (correctLast num blocks).map (List.map ColumnBlock.used) := by
  unfold correctLast
  dsimp only
  rw [List.length_map]
  split
  · exact resizeBlock_used _ _ blocks
  · rfl

theorem resize_used (num : Nat) : c.used.resize num = (c.resize num).map used := by
  unfold resize
  rw [adjustBlocks_used]
  cases c.adjustBlocks num with
  | none => rfl
  | some adjusted =>
      show (correctLast num (adjusted.map ColumnBlock.used)).map _ =
        ((correctLast num adjusted).map _).map _
      rw [correctLast_used, Option.map_map, Option.map_map]
      rfl

/-- Every operation, whether it succeeds or fails. -/
theorem exec_used (op : ColumnOp) : op.exec c.used = (op.exec c).map used := by
  cases op with
  | write op =>
      cases op with
      | setTuple id value =>
          show (stepCell _ (c.blocks.map ColumnBlock.used) _).map _ =
            ((stepCell _ c.blocks _).map _).map _
          rw [stepCell_used fun block => block.used_setTuple _ value, Option.map_map,
            Option.map_map]
          rfl
      | bulkLoadArray codes num pos =>
          show (bulkLoadLoop codes 0 _ _ num (c.blocks.map ColumnBlock.used)).map _ =
            ((bulkLoadLoop codes 0 _ _ num c.blocks).map _).map _
          rw [bulkLoadLoop_used, Option.map_map, Option.map_map]
          rfl
  | resize num => exact c.resize_used num

end Column

/-! ## Reading back -/

/-- The image of a plain array determines the array. -/
theorem NaiveColumnBlock.data_eq_of_image {dt : DType} {b b' : NaiveColumnBlock dt}
    (himage : b.image = b'.image) : b.data = b'.data := by
  have hencode : (dataCodec dt).encode b.data = (dataCodec dt).encode b'.data :=
    (List.append_inj himage (by rw [sizeTCodec.length_encode, sizeTCodec.length_encode])).2
  rw [← (dataCodec dt).decode_encode b.data, hencode, (dataCodec dt).decode_encode]

/-- The image of byte slices determines the slices in use. -/
theorem ByteSliceColumnBlock.load_eq_of_image {w : BitWidth} {dir : Direction}
    {b b' : ByteSliceColumnBlock w dir} (himage : b.image = b'.image) {j : Nat}
    (hj : j < kNumBytesPerCode w) : load b.data j = load b'.data j := by
  have hslices : b.slicesImage 0 (kNumBytesPerCode w) = b'.slicesImage 0 (kNumBytesPerCode w) :=
    (List.append_inj himage (by rw [sizeTCodec.length_encode, sizeTCodec.length_encode])).2
  have hencode := b.take_drop_slicesImage hj
  rw [hslices, b'.take_drop_slicesImage hj] at hencode
  rw [← sliceCodec.decode_encode (load b.data j), ← hencode, sliceCodec.decode_encode]

/-- A block that was read back is the one that was written, as far as it is in use. -/
theorem ColumnBlock.Restores.used_eq {block new : ColumnBlock}
    (h : ColumnBlock.Restores block new) : new.used = block.used := by
  obtain ⟨hkind, hnum, _, himage⟩ := h
  cases block with
  | naive dt b =>
      cases new with
      | naive dt' b' =>
          obtain rfl : dt' = dt := BlockKind.naive.inj hkind
          exact congrArg (ColumnBlock.naive dt')
            (congrArg₂ NaiveColumnBlock.mk hnum (NaiveColumnBlock.data_eq_of_image himage))
      | byteSlice w b' => exact BlockKind.noConfusion hkind
  | byteSlice w b =>
      cases new with
      | naive dt b' => exact BlockKind.noConfusion hkind
      | byteSlice w' b' =>
          obtain rfl : w' = w := BlockKind.byteSlice.inj hkind
          exact congrArg (ColumnBlock.byteSlice w') (ByteSliceColumnBlock.used_eq hnum
            fun _ hj => ByteSliceColumnBlock.load_eq_of_image himage hj)

/-- The class of every block is the one that the column creates, and its size fits. -/
theorem ColumnBlock.invariant_kind (type : ColumnType) (bitWidth : Nat) :
    ColumnBlock.Invariant type bitWidth fun block =>
      Column.blockKind type bitWidth = some block.kind ∧
        block.numTuples ≤ kNumTuplesPerBlock where
  setTuple block pos value h := by
    rw [block.kind_setTuple, block.numTuples_setTuple]
    exact h
  resize block size hsize h := by
    rw [block.kind_resize, block.numTuples_resize]
    exact ⟨h.1, hsize⟩
  new block hnew := by
    obtain ⟨kind, hkind, rfl⟩ := Option.map_eq_some_iff.mp hnew
    rw [ColumnBlock.kind_new]
    refine ⟨hkind, ?_⟩
    cases kind <;> exact Nat.le_refl _

namespace Column

/-- Nothing that a column answers tells the two apart, whether it is asked, scanned in any
order, scanned against or written. -/
structure Indistinguishable (c c' : Column) : Prop where
  numTuples_eq : c'.numTuples = c.numTuples
  getTuple_eq : ∀ id, c'.getTuple id = c.getTuple id
  scanIn_eq : ∀ order cmp literal bv opt,
    c'.scanIn order cmp literal bv opt = c.scanIn order cmp literal bv opt
  scanColumnIn_eq : ∀ order cmp other bv opt,
    c'.scanColumnIn order cmp other bv opt = c.scanColumnIn order cmp other bv opt
  scanColumnIn_other_eq : ∀ order cmp (other : Column) bv opt,
    other.scanColumnIn order cmp c' bv opt = other.scanColumnIn order cmp c bv opt
  serToFile_eq : ∀ file, c'.serToFile file = c.serToFile file

/-- Columns that agree in what is in use. -/
theorem indistinguishable_of_used {c c' : Column} (h : c'.used = c.used) :
    c.Indistinguishable c' where
  numTuples_eq := by
    show c'.used.numTuples = c.used.numTuples
    rw [h]
  getTuple_eq id := by rw [← c'.getTuple_used, h, c.getTuple_used]
  scanIn_eq order cmp literal bv opt := by rw [← c'.scanIn_used, h, c.scanIn_used]
  scanColumnIn_eq order cmp other bv opt := by
    rw [← c'.scanColumnIn_used other, h, c.scanColumnIn_used other]
  scanColumnIn_other_eq order cmp other bv opt := by
    rw [← other.scanColumnIn_used c', h, other.scanColumnIn_used c]
  serToFile_eq file := by rw [← c'.serToFile_used, h, c.serToFile_used]

end Column

/-- **A restored column is as good as the one that was written.**  Two columns of one type and
width have any history of writes, bulk loads and resizes, and the same number of blocks and
tuples.  One is written to a file and read back into the other.  Then every sequence of
operations fails on both, or succeeds on both and leaves columns that nothing tells apart.
A bulk load that writes outside the array of a block has no meaning in the code. -/
theorem restored_column_indistinguishable (type : ColumnType) (bitWidth n n' : Nat)
    (start start' c old : Column) (hnew : Column.new type bitWidth n = some start)
    (hnew' : Column.new type bitWidth n' = some start') (ops ops' : List ColumnOp)
    (hrun : runOps ColumnOp.exec start ops = some c)
    (hrun' : runOps ColumnOp.exec start' ops' = some old)
    (hlen : c.blocks.length = old.blocks.length) (hnum : c.numTuples = old.numTuples)
    (rest : List ByteUnit) :
    ∃ new, old.deserFromFile { unread := (c.serToFile { written := [] }).written ++ rest } =
        (new, { unread := rest }) ∧
      ∀ later : List ColumnOp,
        (runOps ColumnOp.exec c later = none ∧ runOps ColumnOp.exec new later = none) ∨
        ∃ d d', runOps ColumnOp.exec c later = some d ∧
          runOps ColumnOp.exec new later = some d' ∧ d.Indistinguishable d' := by
  have hinv := ColumnBlock.invariant_kind type bitWidth
  have hc := (Column.AllBlocks.new hinv hnew).runOps hinv hrun
  have hold := (Column.AllBlocks.new hinv hnew').runOps hinv hrun'
  have hpairs : List.Forall₂ (fun block old : ColumnBlock =>
      Consumes SequentialReadBinaryFile.mk ColumnBlock.deserFromFile block.image old
        (ColumnBlock.Restores block)) c.blocks old.blocks := by
    refine List.forall₂_iff_get.mpr ⟨hlen, fun i hi hi' => ?_⟩
    obtain ⟨hkind, hle⟩ := hc.all _ (List.getElem_mem hi)
    obtain ⟨hkind', _⟩ := hold.all _ (List.getElem_mem hi')
    exact ColumnBlock.consumes_deserFromFile (Option.some.inj (hkind'.symm.trans hkind))
      (hle.trans_lt (by decide))
  obtain ⟨news, hread, hrestores⟩ := consumes_receiveAll hpairs rest
  have hwritten : (c.serToFile { written := [] }).written = c.image :=
    c.written_serToFile { written := [] }
  have hused : ({ old with blocks := news } : Column).used = c.used := by
    have hblocks := Column.map_eq_of_restores hrestores fun _ _ h => h.used_eq
    unfold Column.used
    rw [hblocks, hold.type_eq, hold.bitWidth_eq, ← hc.type_eq, ← hc.bitWidth_eq, ← hnum]
  refine ⟨{ old with blocks := news }, ?_, fun later => ?_⟩
  · unfold Column.deserFromFile
    rw [hwritten, Column.image, hread]
  · have hruns : ∀ c : Column, runOps ColumnOp.exec c.used later =
        (runOps ColumnOp.exec c later).map Column.used := fun c =>
      runOps_map (fun c op => c.exec_used op) c later
    have hboth := (hruns { old with blocks := news }).symm.trans (hused ▸ hruns c)
    cases hlater : runOps ColumnOp.exec c later with
    | none =>
        rw [hlater, Option.map_none, Option.map_eq_none_iff] at hboth
        exact Or.inl ⟨rfl, hboth⟩
    | some d =>
        rw [hlater, Option.map_some] at hboth
        obtain ⟨d', hd', hsame⟩ := Option.map_eq_some_iff.mp hboth
        exact Or.inr ⟨d, d', rfl, hd', Column.indistinguishable_of_used hsame⟩

/-- A written column of three tuples, read back into a new one: a bulk load of one code too
many, which is out of range, has the same outcome on both. -/
theorem restored_column_indistinguishable_three :
    ∃ start c new, Column.new .kByteSlicePadRight 11 3 = some start ∧
      start.setTuple 1 7#64 = some c ∧
      start.deserFromFile { unread := (c.serToFile { written := [] }).written } =
        (new, { unread := [] }) ∧
      (runOps ColumnOp.exec new [.write (.bulkLoadArray (fun _ => 1#64) 4 0)] = none ↔
        runOps ColumnOp.exec c [.write (.bulkLoadArray (fun _ => 1#64) 4 0)] = none) := by
  have hkind : Column.blockKind .kByteSlicePadRight 11 =
      some (.byteSlice ⟨11, by decide, by decide⟩) := rfl
  obtain ⟨start, hnew, hstores⟩ := Column.exists_new hkind 3
  obtain ⟨c, hset, hc⟩ := hstores.exists_setTuple (show 1 < 3 by decide) 7#64
  have hrun : runOps ColumnOp.exec start [.write (.setTuple 1 7#64)] = some c := by
    show (start.setTuple 1 7#64).bind _ = _
    rw [hset]
    rfl
  have hnum : c.numTuples = start.numTuples := hc.num_eq.trans hstores.num_eq.symm
  have hlen : c.blocks.length = start.blocks.length := by
    rw [hc.laidOut.length_blocks, hstores.laidOut.length_blocks, hnum]
  obtain ⟨new, hread, hlater⟩ := restored_column_indistinguishable .kByteSlicePadRight 11 3 3
    start start c start hnew hnew _ [] hrun rfl hlen hnum []
  rw [List.append_nil] at hread
  refine ⟨start, c, new, hnew, hset, hread, ?_⟩
  obtain ⟨hnone, hnone'⟩ | ⟨d, d', hd, hd', _⟩ :=
    hlater [.write (.bulkLoadArray (fun _ => 1#64) 4 0)]
  · rw [hnone, hnone']
  · rw [hd, hd']
    exact iff_of_false (by simp) (by simp)

end ByteSlice
