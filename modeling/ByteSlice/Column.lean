import Mathlib
import ByteSlice.BitVector
import ByteSlice.ColumnBlock
import ByteSlice.Foundation.Simulation

/-!
# `Column`

A column is a list of blocks, all of the class that `CreateNewBlock` picks for its
type and width.  The outcome `none` stands for an access to a block that does not
exist and for the `exit(1)` of `CreateNewBlock`.  An access outside the array of a block
that does exist is undefined in the source and no outcome of its own here (`load`, `store`):
what is said of runs in general is about the code as far as they have no such access.

`Stores` is the abstraction relation: a laid out column of sound blocks of one
class whose tuple at each id below the size is that of a function.  A bulk load is
the sequence of its single writes, whatever blocks its range spans.
-/

namespace ByteSlice

open Foundation

structure Column where
  type : ColumnType
  bitWidth : Nat
  numTuples : Nat
  blocks : List ColumnBlock

namespace Column

/-- The class of the blocks: the two switches of `CreateNewBlock`. -/
def blockKind (type : ColumnType) (bitWidth : Nat) : Option BlockKind :=
  if h : 0 < bitWidth ∧ bitWidth ≤ 32 then
    match type with
    | .kNaive =>
        match ceil bitWidth 8 with
        | 1 => some (.naive .uint8)
        | 2 => some (.naive .uint16)
        | 3 => some (.naive .uint32)
        | 4 => some (.naive .uint32)
        | _ => none
    | .kByteSlicePadRight => some (.byteSlice ⟨bitWidth, h.1, h.2⟩)
    | .kByteSlicePadLeft => none
  else none

/-- A block of the default size. -/
def createNewBlock (type : ColumnType) (bitWidth : Nat) : Option ColumnBlock :=
  (blockKind type bitWidth).map (ColumnBlock.new kNumTuplesPerBlock)

/-- The constructor. -/
def new (type : ColumnType) (bitWidth num : Nat) : Option Column :=
  (forLoop num kNumTuplesPerBlock kNumTuplesPerBlock_pos
    (fun count _ (blocks : Option (List ColumnBlock)) => blocks.bind fun blocks =>
      (createNewBlock type bitWidth).map fun newBlock =>
        blocks ++ [newBlock.resize (min kNumTuplesPerBlock (num - count))])
    0 (some [])).map fun blocks =>
      { type := type, bitWidth := bitWidth, numTuples := num, blocks := blocks }

def getTuple (c : Column) (id : Nat) : Option WordUnit :=
  let blockId := id / kNumTuplesPerBlock
  let posInBlock := id % kNumTuplesPerBlock
  (c.blocks[blockId]?).map fun block => block.getTuple posInBlock

def setTuple (c : Column) (id : Nat) (value : WordUnit) : Option Column :=
  let blockId := id / kNumTuplesPerBlock
  let posInBlock := id % kNumTuplesPerBlock
  (stepCell (fun _ block => some (block.setTuple posInBlock value)) c.blocks blockId).map
    fun blocks => { c with blocks := blocks }

/-- The loop of `BulkLoadArray`.  `dataPtr` is the offset reached in `codes`; each
round moves to the next block, so it ends at the last block if not before. -/
def bulkLoadLoop (codes : Nat → WordUnit) (dataPtr blockId posInBlock numRemainTuples : Nat)
    (blocks : List ColumnBlock) : Option (List ColumnBlock) :=
  if 0 < numRemainTuples then
    match _hblock : blocks[blockId]? with
    | none => none
    | some block =>
        let size := min (sizeSub block.numTuples posInBlock) numRemainTuples
        bulkLoadLoop codes (dataPtr + size) (blockId + 1) 0 (numRemainTuples - size)
          (blocks.set blockId
            (block.bulkLoadArray (fun i => codes (dataPtr + i)) size posInBlock))
  else
    some blocks
termination_by blocks.length - blockId
decreasing_by
  have hlt := (List.getElem?_eq_some_iff.mp _hblock).1
  rw [List.length_set]
  omega

def bulkLoadArray (codes : Nat → WordUnit) (num pos : Nat) (c : Column) : Option Column :=
  let blockId := pos / kNumTuplesPerBlock
  let posInBlock := pos % kNumTuplesPerBlock
  (bulkLoadLoop codes 0 blockId posInBlock num c.blocks).map fun blocks =>
    { c with blocks := blocks }

/-- `Scan` against a literal: a parallel loop over the blocks of the column, with
its iterations in the given order. -/
def scanIn (c : Column) (order : List Nat) (cmp : Comparator) (literal : WordUnit)
    (bitvector : BitVector) (opt : Bitwise) : Option BitVector :=
  BitVector.forBlocks order (fun blockId bvBlock =>
    (c.blocks[blockId]?).map fun block => block.scan cmp literal bvBlock opt) bitvector

/-- `Scan` against another column. -/
def scanColumnIn (c : Column) (order : List Nat) (cmp : Comparator) (otherColumn : Column)
    (bitvector : BitVector) (opt : Bitwise) : Option BitVector :=
  BitVector.forBlocks order (fun blockId bvBlock =>
    (c.blocks[blockId]?).bind fun block => (otherColumn.blocks[blockId]?).bind fun otherBlock =>
      block.scanBlock cmp otherBlock bvBlock opt) bitvector

/-- `block_id` ascending. -/
def scan (c : Column) (cmp : Comparator) (literal : WordUnit) (bitvector : BitVector)
    (opt : Bitwise) : Option BitVector :=
  c.scanIn (List.range c.blocks.length) cmp literal bitvector opt

def scanColumn (c : Column) (cmp : Comparator) (otherColumn : Column) (bitvector : BitVector)
    (opt : Bitwise) : Option BitVector :=
  c.scanColumnIn (List.range c.blocks.length) cmp otherColumn bitvector opt

/-! ## Layout and content -/

/-- The number of blocks and their sizes are those of the constructor. -/
abbrev LaidOut (c : Column) : Prop :=
  Foundation.LaidOut kNumTuplesPerBlock ColumnBlock.numTuples c.numTuples c.blocks

/-- All blocks are sound and of one class. -/
def Uniform (kind : BlockKind) (blocks : List ColumnBlock) : Prop :=
  ∀ block ∈ blocks, block.kind = kind ∧ block.Sound

theorem exists_back {blocks : List ColumnBlock} (hpos : 0 < blocks.length) :
    ∃ last, blocks[blocks.length - 1]? = some last :=
  ⟨_, List.getElem?_eq_getElem (Nat.sub_lt hpos Nat.one_pos)⟩

/-- The sizes that appending and resizing the last block can leave. -/
def FullButLast (blocks : List ColumnBlock) : Prop :=
  ∀ (i : Nat) (block : ColumnBlock), i + 1 < blocks.length → blocks[i]? = some block →
    block.numTuples = kNumTuplesPerBlock

theorem FullButLast.set {blocks : List ColumnBlock} (h : FullButLast blocks) {i : Nat}
    {old new : ColumnBlock} (hold : blocks[i]? = some old)
    (hsize : new.numTuples = old.numTuples) : FullButLast (blocks.set i new) := by
  intro j block hj hblock
  have hlt := (List.getElem?_eq_some_iff.mp hold).1
  rw [List.length_set] at hj
  by_cases hij : i = j
  · subst hij
    rw [List.getElem?_set_self hlt] at hblock
    rw [← Option.some.inj hblock, hsize]
    exact h i old hj hold
  · rw [List.getElem?_set_ne hij] at hblock
    exact h j block hj hblock

theorem FullButLast.setLast {blocks : List ColumnBlock} (h : FullButLast blocks)
    (new : ColumnBlock) : FullButLast (blocks.set (blocks.length - 1) new) := by
  intro i block hi hblock
  rw [List.length_set] at hi
  rw [List.getElem?_set_ne (by omega)] at hblock
  exact h i block hi hblock

theorem FullButLast.take {blocks : List ColumnBlock} (h : FullButLast blocks) (n : Nat) :
    FullButLast (blocks.take n) := by
  intro i block hi hblock
  rw [List.length_take] at hi
  rw [List.getElem?_take_of_lt (by omega)] at hblock
  exact h i block (by omega) hblock

theorem LaidOut.fullButLast {c : Column} (h : c.LaidOut) : FullButLast c.blocks :=
  fun _ _ => h.size_of_succ_lt kNumTuplesPerBlock_pos

/-- The number that a column returns for an id. -/
def tuple (c : Column) (id : Nat) : Nat := ((c.getTuple id).map BitVec.toNat).getD 0

/-- The abstraction relation: a column of `num` tuples in blocks of one class,
whose tuple at each id below `num` is that of `content`. -/
structure Stores (c : Column) (kind : BlockKind) (num : Nat) (content : Nat → Nat) : Prop where
  num_eq : c.numTuples = num
  laidOut : c.LaidOut
  uniform : Uniform kind c.blocks
  tuple_eq : ∀ id, id < num → c.tuple id = content id

theorem tuple_eq_of_block {c : Column} {id : Nat} {block : ColumnBlock}
    (hblock : c.blocks[id / kNumTuplesPerBlock]? = some block) :
    c.tuple id = (block.getTuple (id % kNumTuplesPerBlock)).toNat := by
  unfold tuple getTuple
  simp only [hblock, Option.map_some, Option.getD_some]

theorem tuple_eq_readAt (c : Column) (id : Nat) :
    c.tuple id = (readAt kNumTuplesPerBlock (fun block p => (block.getTuple p).toNat)
      c.blocks id).getD 0 := by
  unfold tuple getTuple readAt
  rw [Option.map_map]
  rfl

theorem Uniform.set {kind : BlockKind} {blocks : List ColumnBlock} (h : Uniform kind blocks)
    (i : Nat) {new : ColumnBlock} (hnew : new.kind = kind ∧ new.Sound) :
    Uniform kind (blocks.set i new) := by
  intro block hmem
  rcases List.mem_or_eq_of_mem_set hmem with hold | rfl
  · exact h block hold
  · exact hnew

/-! ## Construction -/

/-- The number of low bits of a value that a column keeps: its width in byte
slices, the width of the element type in a plain array. -/
def keptBits (type : ColumnType) (bitWidth : Nat) : Nat :=
  match type with
  | .kNaive => if bitWidth ≤ 8 then 8 else if bitWidth ≤ 16 then 16 else 32
  | _ => bitWidth

theorem exists_blockKind {type : ColumnType} {bitWidth : Nat}
    (htype : type = .kNaive ∨ type = .kByteSlicePadRight) (hpos : 1 ≤ bitWidth)
    (hle : bitWidth ≤ 32) :
    ∃ kind, blockKind type bitWidth = some kind ∧ kind.bits = keptBits type bitWidth := by
  have hceil : ceil bitWidth 8 = (bitWidth + 7) / 8 := by
    rw [ceil_eq_ceilDiv hpos (by omega), Nat.ceilDiv_eq_add_pred_div]
    omega
  unfold blockKind
  rw [dif_pos ⟨hpos, hle⟩]
  rcases htype with rfl | rfl
  · dsimp only
    rw [hceil]
    unfold keptBits
    rcases (by omega : (bitWidth + 7) / 8 = 1 ∨ (bitWidth + 7) / 8 = 2 ∨
      (bitWidth + 7) / 8 = 3 ∨ (bitWidth + 7) / 8 = 4) with h | h | h | h
    · rw [h, if_pos (by omega)]
      exact ⟨_, rfl, rfl⟩
    · rw [h, if_neg (by omega), if_pos (by omega)]
      exact ⟨_, rfl, rfl⟩
    · rw [h, if_neg (by omega), if_neg (by omega)]
      exact ⟨_, rfl, rfl⟩
    · rw [h, if_neg (by omega), if_neg (by omega)]
      exact ⟨_, rfl, rfl⟩
  · exact ⟨_, rfl, rfl⟩

/-- A block can be created for these types and widths only. -/
theorem supported_of_blockKind {type : ColumnType} {bitWidth : Nat} {kind : BlockKind}
    (hkind : blockKind type bitWidth = some kind) :
    (type = .kNaive ∨ type = .kByteSlicePadRight) ∧ 1 ≤ bitWidth ∧ bitWidth ≤ 32 := by
  unfold blockKind at hkind
  split at hkind
  next hwidth =>
    cases type with
    | kNaive => exact ⟨Or.inl rfl, hwidth⟩
    | kByteSlicePadRight => exact ⟨Or.inr rfl, hwidth⟩
    | kByteSlicePadLeft => contradiction
  next => contradiction

theorem bits_of_blockKind {type : ColumnType} {bitWidth : Nat} {kind : BlockKind}
    (hkind : blockKind type bitWidth = some kind) : kind.bits = keptBits type bitWidth := by
  obtain ⟨htype, hpos, hle⟩ := supported_of_blockKind hkind
  obtain ⟨kind', hkind', hbits⟩ := exists_blockKind htype hpos hle
  obtain rfl : kind = kind' := Option.some.inj (hkind.symm.trans hkind')
  exact hbits

theorem le_keptBits (type : ColumnType) {bitWidth : Nat} (hle : bitWidth ≤ 32) :
    bitWidth ≤ keptBits type bitWidth := by
  unfold keptBits
  split
  · split
    · assumption
    · split
      · assumption
      · exact hle
  · exact Nat.le_refl _

/-- The class of a column's blocks keeps at least the bits of its codes. -/
theorem le_bits_of_blockKind {type : ColumnType} {bitWidth : Nat} {kind : BlockKind}
    (hkind : blockKind type bitWidth = some kind) : bitWidth ≤ kind.bits := by
  obtain ⟨_, _, hle⟩ := supported_of_blockKind hkind
  rw [bits_of_blockKind hkind]
  exact le_keptBits type hle

/-- The blocks of a new column. -/
def newBlocks (kind : BlockKind) (num : Nat) : List ColumnBlock :=
  forLoop num kNumTuplesPerBlock kNumTuplesPerBlock_pos
    (fun count _ made => made ++
      [(ColumnBlock.new kNumTuplesPerBlock kind).resize (min kNumTuplesPerBlock (num - count))])
    0 []

theorem new_eq {type : ColumnType} {bitWidth : Nat} {kind : BlockKind}
    (hkind : blockKind type bitWidth = some kind) (num : Nat) :
    new type bitWidth num = some
      { type := type, bitWidth := bitWidth, numTuples := num, blocks := newBlocks kind num } := by
  obtain ⟨_, _, hrel⟩ := forLoop_rel kNumTuplesPerBlock_pos
    (fun count (_ : count < num) (blocks : Option (List ColumnBlock)) => blocks.bind fun blocks =>
      (createNewBlock type bitWidth).map fun newBlock =>
        blocks ++ [newBlock.resize (min kNumTuplesPerBlock (num - count))])
    (fun count _ made => made ++
      [(ColumnBlock.new kNumTuplesPerBlock kind).resize (min kNumTuplesPerBlock (num - count))])
    (fun _ s t => s = some t)
    (fun count h s t hst => by
      rw [hst, createNewBlock, hkind]
      rfl)
    0 (some []) [] rfl
  rw [new, hrel, Option.map_some]
  rfl

theorem eq_resize_of_mem_newBlocks {kind : BlockKind} {num : Nat} {block : ColumnBlock}
    (hmem : block ∈ newBlocks kind num) :
    ∃ size, block = (ColumnBlock.new kNumTuplesPerBlock kind).resize size := by
  obtain ⟨_, _, _, _, _, h⟩ := forLoop_rule kNumTuplesPerBlock_pos
    (fun count (_ : count < num) made => made ++
      [(ColumnBlock.new kNumTuplesPerBlock kind).resize (min kNumTuplesPerBlock (num - count))])
    (fun _ (made : List ColumnBlock) => ∀ block ∈ made,
      ∃ size, block = (ColumnBlock.new kNumTuplesPerBlock kind).resize size)
    (fun count h made hmade block hmem => by
      rcases List.mem_append.mp hmem with hold | hnew
      · exact hmade block hold
      · exact ⟨_, List.mem_singleton.mp hnew⟩)
    0 [] (fun _ h => absurd h List.not_mem_nil)
  exact h block hmem

theorem eq_resize_of_new {type : ColumnType} {bitWidth num : Nat} {kind : BlockKind} {c : Column}
    (hkind : blockKind type bitWidth = some kind) (hnew : new type bitWidth num = some c)
    {block : ColumnBlock} (hmem : block ∈ c.blocks) :
    ∃ size, block = (ColumnBlock.new kNumTuplesPerBlock kind).resize size := by
  obtain rfl := Option.some.inj ((new_eq hkind num).symm.trans hnew)
  exact eq_resize_of_mem_newBlocks hmem

theorem exists_new {type : ColumnType} {bitWidth : Nat} {kind : BlockKind}
    (hkind : blockKind type bitWidth = some kind) (num : Nat) :
    ∃ c, new type bitWidth num = some c ∧ c.Stores kind num c.tuple := by
  refine ⟨_, new_eq hkind num, rfl, ?_, fun block hmem => ?_, fun _ _ => rfl⟩
  · exact laidOut_of_forLoop_append kNumTuplesPerBlock_pos _ fun _ _ =>
      ColumnBlock.numTuples_resize _ _
  · obtain ⟨size, rfl⟩ := eq_resize_of_mem_newBlocks hmem
    exact ⟨by rw [ColumnBlock.kind_resize, ColumnBlock.kind_new],
      (ColumnBlock.sound_new _ kind).resize _⟩

theorem stores_of_new {type : ColumnType} {bitWidth num : Nat} {kind : BlockKind} {c : Column}
    (hkind : blockKind type bitWidth = some kind) (hnew : new type bitWidth num = some c) :
    c.Stores kind num c.tuple := by
  obtain ⟨c', hnew', hstores⟩ := exists_new hkind num
  obtain rfl : c = c' := Option.some.inj (hnew.symm.trans hnew')
  exact hstores

/-- The constructor succeeds on a positive size only if a block can be created. -/
theorem exists_blockKind_of_new {type : ColumnType} {bitWidth num : Nat} {c : Column}
    (hnew : new type bitWidth num = some c) (hnum : 0 < num) :
    ∃ kind, blockKind type bitWidth = some kind := by
  cases hkind : blockKind type bitWidth with
  | some kind => exact ⟨kind, rfl⟩
  | none =>
      obtain ⟨exit, hstop, _, _, _, hexit⟩ := forLoop_rule kNumTuplesPerBlock_pos
        (fun count (_ : count < num) (blocks : Option (List ColumnBlock)) =>
          blocks.bind fun blocks => (createNewBlock type bitWidth).map fun newBlock =>
            blocks ++ [newBlock.resize (min kNumTuplesPerBlock (num - count))])
        (fun count blocks => 0 < count → blocks = none)
        (fun count _ blocks _ _ => by
          rw [createNewBlock, hkind]
          cases blocks <;> rfl)
        0 (some []) (fun h => absurd h (Nat.lt_irrefl 0))
      rw [new, hexit (by omega)] at hnew
      contradiction

/-- The constructor records its type and width. -/
theorem type_eq_of_new {type : ColumnType} {bitWidth num : Nat} {c : Column}
    (hnew : new type bitWidth num = some c) : c.type = type ∧ c.bitWidth = bitWidth := by
  obtain ⟨blocks, _, rfl⟩ := Option.map_eq_some_iff.mp hnew
  exact ⟨rfl, rfl⟩

theorem blockKind_of_new {type : ColumnType} {bitWidth num : Nat} {c : Column}
    (hnew : new type bitWidth num = some c) :
    blockKind c.type c.bitWidth = blockKind type bitWidth := by
  rw [(type_eq_of_new hnew).1, (type_eq_of_new hnew).2]

theorem new_zero (type : ColumnType) (bitWidth : Nat) :
    new type bitWidth 0 =
      some { type := type, bitWidth := bitWidth, numTuples := 0, blocks := [] } := by
  rw [new, forLoop_of_le _ _ (Nat.le_refl 0)]
  rfl

/-! ## Writes -/

/-- A single write finds its block, and acts on that block alone.  The sizes of the
blocks play no part. -/
theorem setTuple_of_block {c : Column} {kind : BlockKind} (huniform : Uniform kind c.blocks)
    {id : Nat} {block : ColumnBlock} (hblock : c.blocks[id / kNumTuplesPerBlock]? = some block)
    (value : WordUnit) :
    let blocks := c.blocks.set (id / kNumTuplesPerBlock)
      (block.setTuple (id % kNumTuplesPerBlock) value)
    c.setTuple id value = some { c with blocks := blocks } ∧ Uniform kind blocks ∧
      ∀ id', ({ c with blocks := blocks } : Column).tuple id' =
        if id' = id then value.toNat % 2 ^ kind.bits else c.tuple id' := by
  obtain ⟨hkind, hsound⟩ := huniform block (List.mem_of_getElem? hblock)
  refine ⟨?_, huniform.set _ ⟨(block.kind_setTuple _ _).trans hkind, hsound.setTuple _ _⟩,
    fun id' => ?_⟩
  · unfold setTuple
    dsimp only
    rw [stepCell_eq_some_iff.mpr ⟨block, _, hblock, rfl, rfl⟩]
    rfl
  · have hread : ((block.setTuple (id % kNumTuplesPerBlock) value).getTuple
          (id' % kNumTuplesPerBlock)).toNat =
        if id' % kNumTuplesPerBlock = id % kNumTuplesPerBlock then
          value.toNat % 2 ^ kind.bits
        else (block.getTuple (id' % kNumTuplesPerBlock)).toNat := by
      rw [block.toNat_getTuple_setTuple _ _ (Nat.mod_lt _ kNumTuplesPerBlock_pos), hkind]
      exact if_congr eq_comm rfl rfl
    rw [tuple_eq_readAt, tuple_eq_readAt]
    dsimp only
    rw [readAt_set_of_block hblock fun _ => hread]
    split <;> rfl

namespace Stores

variable {c : Column} {kind : BlockKind} {num : Nat} {content : Nat → Nat}

/-- Only the content below `num` matters. -/
theorem congr (h : Stores c kind num content) {content' : Nat → Nat}
    (heq : ∀ id, id < num → content id = content' id) : Stores c kind num content' :=
  ⟨h.num_eq, h.laidOut, h.uniform,
    fun id hid => (h.tuple_eq id hid).trans (heq id hid)⟩

theorem exists_block (h : Stores c kind num content) {id : Nat} (hid : id < num) :
    ∃ block, c.blocks[id / kNumTuplesPerBlock]? = some block ∧
      id % kNumTuplesPerBlock < block.numTuples :=
  h.laidOut.exists_block kNumTuplesPerBlock_pos (by rw [h.num_eq]; exact hid)

theorem getTuple_eq (h : Stores c kind num content) {id : Nat} (hid : id < num) :
    ∃ value, c.getTuple id = some value ∧ value.toNat = content id := by
  obtain ⟨block, hblock, _⟩ := h.exists_block hid
  refine ⟨block.getTuple (id % kNumTuplesPerBlock), readAt_of_block hblock, ?_⟩
  rw [← h.tuple_eq id hid, tuple_eq_of_block hblock]

/-- What a block of the column holds. -/
theorem getTuple_block (h : Stores c kind num content) {i : Nat} {block : ColumnBlock}
    (hblock : c.blocks[i]? = some block) {p : Nat} (hp : p < block.numTuples) :
    (block.getTuple p).toNat = content (i * kNumTuplesPerBlock + p) := by
  have hlt : i * kNumTuplesPerBlock + p < num := by
    rw [← h.num_eq]
    exact h.laidOut.mul_add_lt hblock hp
  have hread : readAt kNumTuplesPerBlock (fun block p => (block.getTuple p).toNat) c.blocks
      (i * kNumTuplesPerBlock + p) = some (block.getTuple p).toNat :=
    readAt_mul_add hblock (hp.trans_le (h.laidOut.size_le hblock))
  rw [← h.tuple_eq _ hlt, tuple_eq_readAt, hread]
  rfl

/-- The step lemma of a single write. -/
theorem exists_setTuple (h : Stores c kind num content) {id : Nat} (hid : id < num)
    (value : WordUnit) :
    ∃ c', c.setTuple id value = some c' ∧
      Stores c' kind num (Function.update content id (value.toNat % 2 ^ kind.bits)) := by
  obtain ⟨block, hblock, _⟩ := h.exists_block hid
  obtain ⟨hset, huniform, htuple⟩ := setTuple_of_block h.uniform hblock value
  refine ⟨_, hset, h.num_eq, h.laidOut.set hblock (block.numTuples_setTuple _ _), huniform,
    fun id' hid' => ?_⟩
  rw [htuple, Function.update_apply, h.tuple_eq id' hid']

end Stores

/-- The effect of `SetTuple` on the blocks. -/
def writeTuple (blocks : List ColumnBlock) (id : Nat) (value : WordUnit) :
    Option (List ColumnBlock) :=
  stepCell (fun _ block => some (block.setTuple (id % kNumTuplesPerBlock) value)) blocks
    (id / kNumTuplesPerBlock)

/-- The writes `SetTuple(pos + k, codes[k])` for `k = 0, ..., num - 1`. -/
def setTuples (codes : Nat → WordUnit) (num pos : Nat) (c : Column) : Option Column :=
  runOps (fun c k => c.setTuple (pos + k) (codes k)) c (List.range num)

theorem setTuples_eq (codes : Nat → WordUnit) (num pos : Nat) (c : Column) :
    c.setTuples codes num pos =
      ((List.range num).foldlM (fun blocks k => writeTuple blocks (pos + k) (codes k))
        c.blocks).map fun blocks => { c with blocks := blocks } := by
  unfold setTuples runOps
  -- over any list of offsets, since the induction is on the writes still to come
  generalize List.range num = ks
  induction ks generalizing c with
  | nil => rfl
  | cons k ks ih =>
      rw [List.foldlM_cons, List.foldlM_cons]
      have hstep : c.setTuple (pos + k) (codes k) =
          (writeTuple c.blocks (pos + k) (codes k)).map fun blocks =>
            { c with blocks := blocks } := rfl
      cases hwrite : writeTuple c.blocks (pos + k) (codes k) with
      | none =>
          rw [hstep, hwrite]
          rfl
      | some blocks =>
          rw [hstep, hwrite]
          exact ih { c with blocks := blocks }

/-- Consecutive writes inside one block are that block's bulk load. -/
theorem foldlM_writeTuple_block (codes : Nat → WordUnit) {blocks : List ColumnBlock}
    {blockId posInBlock size : Nat} {block : ColumnBlock} (hblock : blocks[blockId]? = some block)
    (hfit : posInBlock + size ≤ kNumTuplesPerBlock) :
    (List.range size).foldlM (fun blocks k =>
      writeTuple blocks (blockId * kNumTuplesPerBlock + posInBlock + k) (codes k)) blocks =
      some (blocks.set blockId (block.bulkLoadArray codes size posInBlock)) := by
  -- none of the writes crosses into the next block
  have hindex : ∀ k ∈ List.range size,
      (blockId * kNumTuplesPerBlock + posInBlock + k) / kNumTuplesPerBlock = blockId := by
    intro k hk
    have hlt := List.mem_range.mp hk
    rw [Nat.add_assoc]
    exact mul_add_div_of_lt (by omega)
  have hfold := foldlM_stepCell_of_index
    (fun k => (blockId * kNumTuplesPerBlock + posInBlock + k) / kNumTuplesPerBlock)
    (fun k (block : ColumnBlock) => block.setTuple
      ((blockId * kNumTuplesPerBlock + posInBlock + k) % kNumTuplesPerBlock) (codes k))
    hblock hindex
  refine hfold.trans ?_
  rw [block.bulkLoadArray_eq, forLoop_eq_foldl Nat.one_pos
    (fun i (block : ColumnBlock) => block.setTuple (posInBlock + i) (codes i)),
    show size ⌈/⌉ 1 = size by simp]
  congr 2
  refine List.foldl_ext _ _ _ fun block k hk => ?_
  have hlt := List.mem_range.mp hk
  rw [Nat.add_assoc, mul_add_mod_of_lt (by omega), Nat.mul_one]

/-- One round of the bulk load: the block is found, and the rest is left to the
blocks behind it. -/
theorem bulkLoadLoop_of_block (codes : Nat → WordUnit) (dataPtr : Nat)
    {blockId posInBlock numRemainTuples : Nat} {blocks : List ColumnBlock} {block : ColumnBlock}
    (hremain : 0 < numRemainTuples) (hblock : blocks[blockId]? = some block) {size : Nat}
    (hsize : size = min (sizeSub block.numTuples posInBlock) numRemainTuples) :
    bulkLoadLoop codes dataPtr blockId posInBlock numRemainTuples blocks =
      bulkLoadLoop codes (dataPtr + size) (blockId + 1) 0 (numRemainTuples - size)
        (blocks.set blockId
          (block.bulkLoadArray (fun k => codes (dataPtr + k)) size posInBlock)) := by
  rw [bulkLoadLoop, if_pos hremain, hsize]
  split
  next hnone =>
    rw [hblock] at hnone
    contradiction
  next block' hblock' =>
    obtain rfl : block = block' := Option.some.inj (hblock.symm.trans hblock')
    rfl

theorem bulkLoadLoop_eq_none (codes : Nat → WordUnit) (dataPtr posInBlock : Nat)
    {blockId numRemainTuples : Nat} {blocks : List ColumnBlock} (hremain : 0 < numRemainTuples)
    (hnone : blocks[blockId]? = none) :
    bulkLoadLoop codes dataPtr blockId posInBlock numRemainTuples blocks = none := by
  rw [bulkLoadLoop, if_pos hremain]
  split
  next => rfl
  next block hblock =>
    rw [hnone] at hblock
    contradiction

/-- The single writes of a round and those behind it are the single writes of the
loop, if the round ends with its block whenever tuples remain. -/
theorem foldlM_writeTuple_round (codes : Nat → WordUnit) (dataPtr : Nat)
    {blocks : List ColumnBlock} {blockId posInBlock size remain : Nat} {block : ColumnBlock}
    (hblock : blocks[blockId]? = some block) (hle : size ≤ remain)
    (hfit : posInBlock + size ≤ kNumTuplesPerBlock)
    (hnext : 0 < remain - size → posInBlock + size = kNumTuplesPerBlock) :
    (List.range (remain - size)).foldlM (fun blocks k =>
        writeTuple blocks ((blockId + 1) * kNumTuplesPerBlock + 0 + k)
          (codes (dataPtr + size + k)))
        (blocks.set blockId
          (block.bulkLoadArray (fun k => codes (dataPtr + k)) size posInBlock)) =
      (List.range remain).foldlM (fun blocks k =>
        writeTuple blocks (blockId * kNumTuplesPerBlock + posInBlock + k)
          (codes (dataPtr + k))) blocks := by
  have hsplit : List.range remain =
      List.range size ++ (List.range (remain - size)).map (size + ·) := by
    rw [← List.range_add]
    congr 1
    omega
  rw [hsplit, List.foldlM_append,
    foldlM_writeTuple_block (fun k => codes (dataPtr + k)) hblock hfit, Option.bind_eq_bind,
    Option.bind_some, List.foldlM_map]
  rcases Nat.eq_zero_or_pos (remain - size) with hzero | hleft
  · rw [hzero, List.range_zero, List.foldlM_nil, List.foldlM_nil]
  · have haddress : ∀ k, blockId * kNumTuplesPerBlock + posInBlock + (size + k) =
        (blockId + 1) * kNumTuplesPerBlock + 0 + k := by
      intro k
      have := hnext hleft
      rw [Nat.succ_mul]
      omega
    simp only [haddress, Nat.add_assoc]

/-- The loop of the bulk load, at a block and a position inside it, performs the
remaining single writes: each round those that fall on its block. -/
theorem bulkLoadLoop_eq (codes : Nat → WordUnit) {n : Nat}
    (dataPtr blockId posInBlock numRemainTuples : Nat) (blocks : List ColumnBlock)
    (hlaid : Foundation.LaidOut kNumTuplesPerBlock ColumnBlock.numTuples n blocks)
    (hpos : posInBlock < kNumTuplesPerBlock)
    (hrange : 0 < numRemainTuples →
      blockId * kNumTuplesPerBlock + posInBlock + numRemainTuples ≤ n) :
    bulkLoadLoop codes dataPtr blockId posInBlock numRemainTuples blocks =
      (List.range numRemainTuples).foldlM (fun blocks k =>
        writeTuple blocks (blockId * kNumTuplesPerBlock + posInBlock + k)
          (codes (dataPtr + k))) blocks := by
  induction dataPtr, blockId, posInBlock, numRemainTuples, blocks
    using bulkLoadLoop.induct codes with
  | case1 dataPtr blockId posInBlock remain blocks hremain hnone =>
      -- tuples remain, so their block exists and the access cannot fail
      have hid : blockId * kNumTuplesPerBlock + posInBlock < n := by
        have := hrange hremain
        omega
      obtain ⟨block, hblock, _⟩ := hlaid.exists_block kNumTuplesPerBlock_pos hid
      rw [mul_add_div_of_lt hpos, hnone] at hblock
      contradiction
  | case2 dataPtr blockId posInBlock remain blocks hremain block hblock size ih =>
      have hsum := hrange hremain
      have hcount := hlaid.size_block blockId block hblock
      -- the subtraction of `posInBlock` does not wrap, and the round makes progress
      have hinside : posInBlock < block.numTuples := by
        rw [hcount]
        unfold chunkSize
        omega
      have hsize : size = min (block.numTuples - posInBlock) remain := by
        show min (sizeSub block.numTuples posInBlock) remain = _
        rw [sizeSub_of_le hinside.le]
      have hfull : block.numTuples ≤ kNumTuplesPerBlock := hlaid.size_le hblock
      -- what is left after this block starts at the next one
      have hnext : 0 < remain - size → posInBlock + size = kNumTuplesPerBlock := by
        intro hleft
        have hsize' : size = block.numTuples - posInBlock := by omega
        rw [hcount] at hsize' hinside
        unfold chunkSize at hsize' hinside
        omega
      have hset : Foundation.LaidOut kNumTuplesPerBlock ColumnBlock.numTuples n
          (blocks.set blockId
            (block.bulkLoadArray (fun k => codes (dataPtr + k)) size posInBlock)) :=
        hlaid.set hblock (block.numTuples_bulkLoadArray _ _ _)
      have hrest := ih hset kNumTuplesPerBlock_pos fun hleft => by
        have := hnext hleft
        rw [Nat.succ_mul]
        omega
      rw [bulkLoadLoop_of_block codes dataPtr hremain hblock rfl, hrest]
      exact foldlM_writeTuple_round codes dataPtr hblock (by omega) (by omega) hnext
  | case3 dataPtr blockId posInBlock remain blocks hremain =>
      have hzero : remain = 0 := by omega
      subst hzero
      rw [bulkLoadLoop, if_neg hremain]
      rfl

/-- A bulk load inside the layout is the sequence of its single writes. -/
theorem bulkLoadArray_eq_setTuples {c : Column} {n : Nat}
    (hlaid : Foundation.LaidOut kNumTuplesPerBlock ColumnBlock.numTuples n c.blocks)
    (codes : Nat → WordUnit) {num pos : Nat} (hrange : pos + num ≤ n) :
    c.bulkLoadArray codes num pos = c.setTuples codes num pos := by
  have hsplit := Nat.div_add_mod' pos kNumTuplesPerBlock
  have hloop := bulkLoadLoop_eq codes 0 (pos / kNumTuplesPerBlock) (pos % kNumTuplesPerBlock)
    num c.blocks hlaid (Nat.mod_lt _ kNumTuplesPerBlock_pos)
    (fun _ => by rw [hsplit]; exact hrange)
  rw [hsplit] at hloop
  simp only [Nat.zero_add] at hloop
  rw [setTuples_eq, ← hloop]
  rfl

/-- The content after a bulk load of values that keep `bits` bits. -/
def loaded (codes : Nat → WordUnit) (num pos bits : Nat) (content : Nat → Nat) : Nat → Nat :=
  fun id => if pos ≤ id ∧ id < pos + num then (codes (id - pos)).toNat % 2 ^ bits else content id

theorem foldl_update_eq_loaded (codes : Nat → WordUnit) (num pos bits : Nat)
    (content : Nat → Nat) :
    (List.range num).foldl (fun content k =>
      Function.update content (pos + k) ((codes k).toNat % 2 ^ bits)) content =
      loaded codes num pos bits content := by
  induction num with
  | zero =>
      funext id
      show content id = loaded codes 0 pos bits content id
      unfold loaded
      rw [if_neg (by omega)]
  | succ num ih =>
      rw [List.range_succ, List.foldl_append, ih]
      funext id
      show Function.update (loaded codes num pos bits content) (pos + num) _ id = _
      unfold loaded
      by_cases hid : id = pos + num
      · subst hid
        rw [Function.update_self, if_pos (by omega), Nat.add_sub_cancel_left]
      · rw [Function.update_of_ne hid]
        by_cases hin : pos ≤ id ∧ id < pos + num
        · rw [if_pos hin, if_pos (by omega)]
        · rw [if_neg hin, if_neg (by omega)]

namespace Stores

variable {c : Column} {kind : BlockKind} {num : Nat} {content : Nat → Nat}

/-- A bulk load inside the column is the sequence of its single writes. -/
theorem bulkLoadArray_eq (h : Stores c kind num content) (codes : Nat → WordUnit)
    {count pos : Nat} (hrange : pos + count ≤ num) :
    c.bulkLoadArray codes count pos = c.setTuples codes count pos :=
  bulkLoadArray_eq_setTuples h.laidOut codes (by rw [h.num_eq]; exact hrange)

theorem exists_setTuples (h : Stores c kind num content) (codes : Nat → WordUnit)
    {count pos : Nat} (hrange : pos + count ≤ num) :
    ∃ c', c.setTuples codes count pos = some c' ∧
      Stores c' kind num (loaded codes count pos kind.bits content) := by
  have hinside : AdmissibleRun (fun _ k => pos + k < num)
      (fun content k => Function.update content (pos + k) ((codes k).toNat % 2 ^ kind.bits))
      content (List.range count) := by
    refine admissibleRun_of_forall (fun k hk _ => ?_) content
    have hlt := List.mem_range.mp hk
    omega
  rw [← foldl_update_eq_loaded]
  exact runOps_simulates (fun c content => Stores c kind num content)
    (fun c content k hc (hk : pos + k < num) => hc.exists_setTuple hk (codes k)) h hinside

theorem exists_bulkLoadArray (h : Stores c kind num content) (codes : Nat → WordUnit)
    {count pos : Nat} (hrange : pos + count ≤ num) :
    ∃ c', c.bulkLoadArray codes count pos = some c' ∧
      Stores c' kind num (loaded codes count pos kind.bits content) := by
  rw [h.bulkLoadArray_eq codes hrange]
  exact h.exists_setTuples codes hrange

end Stores

/-! ## Scans -/

/-- A bit vector of the column's size has blocks of the same sizes. -/
theorem LaidOut.forall₂_num {c : Column} (h : c.LaidOut) {bv : BitVector}
    (hnew : BitVector.new c.numTuples = some bv) :
    List.Forall₂ (fun block bvBlock => BitVectorBlock.num bvBlock = block.numTuples)
      c.blocks bv.blocks := by
  have hholds := BitVector.holds_of_new hnew
  have hbv := hholds.laidOut
  rw [BitVector.LaidOut, hholds.num_eq] at hbv
  exact h.forall₂_size hbv

theorem LaidOut.exists_block_of_bvBlock {c : Column} {bv : BitVector} (h : c.LaidOut)
    (hbv : bv.LaidOut) (hnum : bv.num = c.numTuples) {i : Nat} {bvBlock : BitVectorBlock}
    (hbvBlock : bv.blocks[i]? = some bvBlock) :
    ∃ block, c.blocks[i]? = some block ∧ block.numTuples = bvBlock.num := by
  rw [BitVector.LaidOut, hnum] at hbv
  exact Foundation.LaidOut.exists_block_of_block hbv h hbvBlock

/-- The body of a scan against a literal succeeds on every block. -/
theorem LaidOut.scan_body {c : Column} {bv : BitVector} (h : c.LaidOut) (hbv : bv.LaidOut)
    (hnum : bv.num = c.numTuples) (cmp : Comparator) (literal : WordUnit) (opt : Bitwise)
    (i : Nat) (bvBlock : BitVectorBlock) (hbvBlock : bv.blocks[i]? = some bvBlock) :
    ∃ new, ((c.blocks[i]?).map fun block => block.scan cmp literal bvBlock opt) = some new ∧
      new.num = bvBlock.num := by
  obtain ⟨block, hblock, _⟩ := h.exists_block_of_bvBlock hbv hnum hbvBlock
  rw [hblock]
  exact ⟨_, rfl, block.num_scan _ _ _ _⟩

/-- An iteration order of the block loop of a scan over `num` tuples. -/
abbrev IsSchedule (num : Nat) (order : List Nat) : Prop := BitVector.IsSchedule num order

namespace Stores

variable {c other : Column} {kind : BlockKind} {num : Nat} {content otherContent : Nat → Nat}
  {bv : BitVector} {bits : Nat → Bool}

/-- The bit vector block of an iteration exists and has the size of the column
block. -/
theorem exists_block_of_bvBlock (h : Stores c kind num content) (hbv : bv.LaidOut)
    (hnum : bv.num = num) {i : Nat} {bvBlock : BitVectorBlock}
    (hbvBlock : bv.blocks[i]? = some bvBlock) :
    ∃ block, c.blocks[i]? = some block ∧ block.numTuples = bvBlock.num ∧
      block.kind = kind ∧ block.Sound := by
  obtain ⟨block, hblock, hsize⟩ :=
    LaidOut.exists_block_of_bvBlock h.laidOut hbv (hnum.trans h.num_eq.symm) hbvBlock
  exact ⟨block, hblock, hsize, h.uniform block (List.mem_of_getElem? hblock)⟩

/-- The step lemma of a scan against a literal. -/
theorem exists_scanIn (h : Stores c kind num content) (hbv : BitVector.Holds bv num bits)
    {order : List Nat} (horder : IsSchedule num order) (cmp : Comparator) (literal : WordUnit)
    (opt : Bitwise) :
    ∃ out, c.scanIn order cmp literal bv opt = some out ∧
      BitVector.Holds out num fun id =>
        opt.apply (bits id) (cmp.holds (content id) (literal.toNat % 2 ^ kind.bits)) := by
  refine BitVector.Holds.exists_forBlocks hbv.laidOut hbv.num_eq horder fun i bvBlock hbvBlock => ?_
  obtain ⟨block, hblock, hsize, hkind, hsound⟩ :=
    h.exists_block_of_bvBlock hbv.laidOut hbv.num_eq hbvBlock
  have hscan := ColumnBlock.scanned_scan hsound hsize.symm
    (hbv.tailClear bvBlock (List.mem_of_getElem? hbvBlock)) cmp literal opt
  refine ⟨block.scan cmp literal bvBlock opt, by rw [hblock]; rfl, hscan.num_eq,
    hscan.tailClear, fun p hp => ?_⟩
  rw [hscan.getBit_eq p hp, hbv.getBit_block hbvBlock hp,
    h.getTuple_block hblock (by rw [hsize]; exact hp), hkind]

/-- The step lemma of a scan against another column. -/
theorem exists_scanColumnIn (h : Stores c kind num content)
    (hother : Stores other kind num otherContent) (hbv : BitVector.Holds bv num bits)
    {order : List Nat} (horder : IsSchedule num order) (cmp : Comparator) (opt : Bitwise) :
    ∃ out, c.scanColumnIn order cmp other bv opt = some out ∧
      BitVector.Holds out num fun id =>
        opt.apply (bits id) (cmp.holds (content id) (otherContent id)) := by
  refine BitVector.Holds.exists_forBlocks hbv.laidOut hbv.num_eq horder fun i bvBlock hbvBlock => ?_
  obtain ⟨block, hblock, hsize, hkind, hsound⟩ :=
    h.exists_block_of_bvBlock hbv.laidOut hbv.num_eq hbvBlock
  obtain ⟨otherBlock, hotherBlock, hotherSize, hotherKind, hotherSound⟩ :=
    hother.exists_block_of_bvBlock hbv.laidOut hbv.num_eq hbvBlock
  obtain ⟨out, hout, hscan⟩ := ColumnBlock.exists_scanned_scanBlock hsound hsize.symm
    (hbv.tailClear bvBlock (List.mem_of_getElem? hbvBlock)) hotherSound
    (hotherKind.trans hkind.symm) cmp opt
  refine ⟨out, by rw [hblock, hotherBlock]; exact hout, hscan.num_eq, hscan.tailClear,
    fun p hp => ?_⟩
  rw [hscan.getBit_eq p hp, hbv.getBit_block hbvBlock hp,
    h.getTuple_block hblock (by rw [hsize]; exact hp),
    hother.getTuple_block hotherBlock (by rw [hotherSize]; exact hp)]

end Stores

end Column

end ByteSlice
