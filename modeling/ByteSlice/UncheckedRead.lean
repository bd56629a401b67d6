import Mathlib
import ByteSlice.Foundation.Overlay
import ByteSlice.ScanFootprint
import ByteSlice.Serialization

/-!
# `DeserFromFile` of any file

Nothing checks a file before it is read, and nothing looks at the number of bytes that
`Read` returns.  So a column reads every file: a truncated one, one of another column, one
that no column has written.  What it then writes is what it would have written before,
overlaid with the bytes of the file.

The only bytes with a meaning outside the tuples are the sizes of the blocks.  They decide
alone whether a scan stays inside its storage.
-/

namespace ByteSlice

open Foundation

/-- `Read` of an object of a representation that has no invalid bytes. -/
theorem SequentialReadBinaryFile.exists_readInto {α : Type} {codec : ByteCodec α} {size : Nat}
    (hsize : codec.size = size) (honto : codec.Onto) (old : α) (bytes : List ByteUnit) :
    ∃ new, readInto codec old size { unread := bytes } =
        (new, { unread := bytes.drop (codec.encode old).length }) ∧
      codec.encode new = overlay (codec.encode old) bytes := by
  subst hsize
  refine ⟨codec.overwrite old (bytes.take codec.size), ?_, ?_⟩
  · rw [codec.length_encode]
    rfl
  · rw [honto.encode_overwrite old (by rw [List.length_take]; exact Nat.min_le_left _ _)]
    conv_lhs => rw [← codec.length_encode old]
    exact overlay_take _ bytes

theorem onto_sizeTCodec : sizeTCodec.Onto := ByteCodec.onto_word 8

/-- The size that the image of a block begins with. -/
theorem take_sizeTCodec {numTuples : Nat} (hnum : numTuples < 2 ^ 64) (rest : List ByteUnit) :
    (sizeTCodec.encode (BitVec.ofNat 64 numTuples) ++ rest).take 8 = bytesOf 8 numTuples := by
  have hlen : (sizeTCodec.encode (BitVec.ofNat 64 numTuples)).length = 8 :=
    sizeTCodec.length_encode _
  rw [List.take_left' hlen]
  show bytesOf 8 (BitVec.ofNat 64 numTuples).toNat = bytesOf 8 numTuples
  rw [BitVec.toNat_ofNat, Nat.mod_eq_of_lt hnum]

namespace NaiveColumnBlock

variable {dt : DType}

theorem onto_dataCodec (dt : DType) : (dataCodec dt).Onto := by
  cases dt with
  | uint8 => exact (ByteCodec.onto_word 1).vector _
  | uint16 => exact (ByteCodec.onto_word 2).vector _
  | uint32 => exact (ByteCodec.onto_word 4).vector _
  | uint64 => exact (ByteCodec.onto_word 8).vector _

theorem overlays_deserFromFile (b : NaiveColumnBlock dt) :
    Overlays SequentialReadBinaryFile.mk deserFromFile image
      (fun _ new => new.numTuples < 2 ^ 64) b := by
  intro bytes
  obtain ⟨numTuples, hnum, hnumImage⟩ := SequentialReadBinaryFile.exists_readInto
    size_sizeTCodec onto_sizeTCodec (BitVec.ofNat 64 b.numTuples) bytes
  obtain ⟨data, hdata, hdataImage⟩ := SequentialReadBinaryFile.exists_readInto
    (size_dataCodec dt) (onto_dataCodec dt) b.data
    (bytes.drop (sizeTCodec.encode (BitVec.ofNat 64 b.numTuples)).length)
  refine ⟨{ numTuples := numTuples.toNat, data := data }, ?_, ?_, numTuples.isLt⟩
  · unfold deserFromFile
    rw [hnum]
    dsimp only
    rw [hdata, List.drop_drop, image, List.length_append]
  · unfold image
    rw [BitVec.ofNat_toNat, BitVec.setWidth_eq, hnumImage, hdataImage, overlay_append]

end NaiveColumnBlock

namespace ByteSliceColumnBlock

variable {w : BitWidth} {dir : Direction}

theorem onto_sliceCodec : sliceCodec.Onto := (ByteCodec.onto_word 1).vector _

theorem slicesImage_snoc (b : ByteSliceColumnBlock w dir) (count : Nat) :
    b.slicesImage 0 (count + 1) =
      b.slicesImage 0 count ++ sliceCodec.encode (load b.data count) := by
  unfold slicesImage
  rw [List.range_succ, List.flatMap_append, List.flatMap_singleton, Nat.zero_add]

theorem slicesImage_congr {b b' : ByteSliceColumnBlock w dir} {count : Nat}
    (hslices : ∀ j, j < count → load b.data j = load b'.data j) :
    b.slicesImage 0 count = b'.slicesImage 0 count := by
  unfold slicesImage
  refine List.flatMap_congr fun j hj => ?_
  rw [Nat.zero_add, hslices j (List.mem_range.mp hj)]

/-- The reading loop.  The slices read so far are overlaid, the others are the old ones. -/
theorem overlays_deserFromFile (b : ByteSliceColumnBlock w dir) :
    Overlays SequentialReadBinaryFile.mk deserFromFile image
      (fun _ new => new.numTuples < 2 ^ 64) b := by
  intro bytes
  obtain ⟨numTuples, hnum, hnumImage⟩ := SequentialReadBinaryFile.exists_readInto
    size_sizeTCodec onto_sizeTCodec (BitVec.ofNat 64 b.numTuples) bytes
  let slices := bytes.drop (sizeTCodec.encode (BitVec.ofNat 64 b.numTuples)).length
  let body : (byteId : Nat) → byteId < kNumBytesPerCode w →
      ByteSliceColumnBlock w dir × SequentialReadBinaryFile →
      ByteSliceColumnBlock w dir × SequentialReadBinaryFile := fun byteId _ state =>
    let read := state.2.readInto sliceCodec (load state.1.data byteId) kMemSizePerByteSlice
    ({ state.1 with data := store state.1.data byteId read.1 }, read.2)
  have hloop : b.deserFromFile { unread := bytes } =
      forLoop (kNumBytesPerCode w) 1 Nat.one_pos body 0
        ({ b with numTuples := numTuples.toNat }, { unread := slices }) := by
    unfold deserFromFile
    rw [hnum]
  have hle := kNumBytesPerCode_le w
  obtain ⟨exit, hstop, _, _, _, hexit, hnumTuples, hread, _, hunread⟩ := forLoop_rule Nat.one_pos
    body
    (fun byteId state => byteId ≤ kNumBytesPerCode w ∧
      state.1.numTuples = numTuples.toNat ∧
      state.1.slicesImage 0 byteId = overlay (b.slicesImage 0 byteId) slices ∧
      (∀ j, byteId ≤ j → j < kNumBytesPerCode w → load state.1.data j = load b.data j) ∧
      state.2 = { unread := slices.drop (b.slicesImage 0 byteId).length })
    (by
      rintro byteId hlt ⟨new, file⟩ ⟨_, hnumTuples, hread, hunchanged, hunread⟩
      dsimp only [body] at hnumTuples hread hunchanged hunread ⊢
      obtain ⟨slice, hslice, himage⟩ := SequentialReadBinaryFile.exists_readInto
        size_sliceCodec onto_sliceCodec (load b.data byteId)
        (slices.drop (b.slicesImage 0 byteId).length)
      rw [hunread, hunchanged byteId (Nat.le_refl _) hlt, hslice]
      have hstore : ∀ j, j < kNumBytesPerCode w → load (store new.data byteId slice) j =
          if byteId = j then slice else load new.data j := fun j hj =>
        load_store new.data byteId slice (by omega)
      refine ⟨hlt, hnumTuples, ?_, fun j hj hjlt => ?_, ?_⟩
      · rw [slicesImage_snoc, slicesImage_snoc, overlay_append, ← hread, ← himage]
        congr 1
        · refine slicesImage_congr fun j hj => ?_
          rw [hstore j (by omega), if_neg (by omega)]
        · rw [hstore byteId hlt, if_pos rfl]
      · rw [hstore j hjlt, if_neg (by omega)]
        exact hunchanged j (by omega) hjlt
      · rw [slicesImage_snoc, List.length_append, List.drop_drop])
    0 ({ b with numTuples := numTuples.toNat }, { unread := slices })
    ⟨Nat.zero_le _, rfl, (overlay_empty slices).symm, fun _ _ _ => rfl, rfl⟩
  obtain rfl : exit = kNumBytesPerCode w := Nat.le_antisymm hexit hstop
  rw [← hloop] at hnumTuples hread hunread
  refine ⟨(b.deserFromFile { unread := bytes }).1, Prod.ext rfl ?_, ?_, ?_⟩
  · rw [hunread, image, List.length_append, List.drop_drop]
  · rw [image, image, overlay_append, hnumTuples, hread, BitVec.ofNat_toNat, BitVec.setWidth_eq,
      hnumImage]
  · show (b.deserFromFile { unread := bytes }).1.numTuples < 2 ^ 64
    rw [hnumTuples]
    exact numTuples.isLt

end ByteSliceColumnBlock

/-- The number of bytes that a block of the class writes. -/
def BlockKind.imageSize : BlockKind → Nat
  | .naive dt => 8 + NaiveColumnBlock.sizeofDType dt * kNumTuplesPerBlock
  | .byteSlice w => 8 + ByteSliceColumnBlock.kNumBytesPerCode w * kMemSizePerByteSlice

theorem BlockKind.le_imageSize (kind : BlockKind) : 8 ≤ kind.imageSize := by
  cases kind with
  | naive dt => exact Nat.le_add_right 8 _
  | byteSlice w => exact Nat.le_add_right 8 _

namespace ColumnBlock

theorem length_image (block : ColumnBlock) : block.image.length = block.kind.imageSize := by
  cases block with
  | naive dt b =>
      show (sizeTCodec.encode _ ++ (NaiveColumnBlock.dataCodec dt).encode _).length = _
      rw [List.length_append, sizeTCodec.length_encode, ByteCodec.length_encode, size_sizeTCodec,
        NaiveColumnBlock.size_dataCodec]
      rfl
  | byteSlice w b =>
      show (sizeTCodec.encode _ ++ (List.range _).flatMap _).length = _
      rw [List.length_append, sizeTCodec.length_encode, List.length_flatMap]
      simp only [ByteCodec.length_encode, List.map_const', List.length_range, List.sum_replicate,
        smul_eq_mul, ByteSliceColumnBlock.size_sliceCodec, size_sizeTCodec]
      rfl

/-- The size that a block records is what its image begins with. -/
theorem take_image {block : ColumnBlock} (hnum : block.numTuples < 2 ^ 64) :
    block.image.take 8 = bytesOf 8 block.numTuples := by
  cases block with
  | naive dt b => exact take_sizeTCodec hnum _
  | byteSlice w b => exact take_sizeTCodec hnum _

theorem numberOf_image {block : ColumnBlock} (hnum : block.numTuples < 2 ^ 64) :
    numberOf (block.image.take 8) = block.numTuples := by
  rw [take_image hnum, numberOf_bytesOf]
  exact Nat.mod_eq_of_lt hnum

/-- What reading keeps: the class of the block, and that its size is a `size_t`. -/
structure ReadInto (old new : ColumnBlock) : Prop where
  kind_eq : new.kind = old.kind
  numTuples_lt : new.numTuples < 2 ^ 64

theorem overlays_deserFromFile (block : ColumnBlock) :
    Overlays SequentialReadBinaryFile.mk deserFromFile image ReadInto block := by
  intro bytes
  cases block with
  | naive dt b =>
      obtain ⟨new, hread, himage, hlt⟩ := b.overlays_deserFromFile bytes
      refine ⟨.naive dt new, ?_, himage, rfl, hlt⟩
      unfold deserFromFile
      dsimp only
      rw [hread]
      rfl
  | byteSlice w b =>
      obtain ⟨new, hread, himage, hlt⟩ := b.overlays_deserFromFile bytes
      refine ⟨.byteSlice w new, ?_, himage, rfl, hlt⟩
      unfold deserFromFile
      dsimp only
      rw [hread]
      rfl

end ColumnBlock

namespace Column

/-- What reading keeps: everything of the column but its blocks, and what it keeps of
these. -/
structure ReadInto (old new : Column) : Prop where
  type_eq : new.type = old.type
  bitWidth_eq : new.bitWidth = old.bitWidth
  numTuples_eq : new.numTuples = old.numTuples
  blocks : List.Forall₂ ColumnBlock.ReadInto old.blocks new.blocks

theorem overlays_deserFromFile (c : Column) :
    Overlays SequentialReadBinaryFile.mk deserFromFile image ReadInto c := by
  intro bytes
  obtain ⟨blocks, hread, himage, hblocks⟩ := overlays_receiveAll
    (fun block (_ : block ∈ c.blocks) => block.overlays_deserFromFile) bytes
  refine ⟨{ c with blocks := blocks }, ?_, himage, rfl, rfl, rfl, hblocks⟩
  unfold deserFromFile
  rw [hread]
  rfl

end Column

/-- **What reading any file does.**  Columns are read from a file one after the other, and
nothing is known of the file or of the columns.  What they write afterwards is what they
would have written before, overlaid with the bytes of the file; as many bytes are taken
off the file, or all.  Types, widths, sizes and the classes of the blocks stay.  So
a file with enough bytes is written back as it is, whatever it is. -/
theorem deserializeAll_overlay (columns : List Column) (bytes : List ByteUnit) :
    let written := fun columns => (Column.serializeAll columns { written := [] }).written
    ∃ new, Column.deserializeAll columns { unread := bytes } =
        (new, { unread := bytes.drop (written columns).length }) ∧
      written new = overlay (written columns) bytes ∧
      List.Forall₂ Column.ReadInto columns new := by
  intro written
  have hwritten : ∀ columns, written columns = columns.flatMap Column.image :=
    fun columns => foldl_write_eq Column.written_serToFile columns { written := [] }
  obtain ⟨new, hread, himage, hkeeps⟩ := overlays_receiveAll
    (fun c (_ : c ∈ columns) => c.overlays_deserFromFile) bytes
  refine ⟨new, ?_, ?_, hkeeps⟩
  · rw [hwritten]
    exact hread
  · rw [hwritten, hwritten]
    exact himage

/-! ## Block by block -/

namespace Column

/-- The image of a column of blocks of one class has that of each block at its place. -/
theorem take_drop_image {kind : BlockKind} {c : Column}
    (hkinds : ∀ block ∈ c.blocks, block.kind = kind) {i : Nat} {block : ColumnBlock}
    (hblock : c.blocks[i]? = some block) :
    (c.image.drop (i * kind.imageSize)).take kind.imageSize = block.image :=
  take_drop_flatMap_of_length
    (fun block hmem => by rw [block.length_image, hkinds block hmem]) hblock

theorem length_image {kind : BlockKind} {c : Column}
    (hkinds : ∀ block ∈ c.blocks, block.kind = kind) :
    c.image.length = c.blocks.length * kind.imageSize := by
  unfold image
  rw [List.length_flatMap, List.map_congr_left fun block hmem =>
    (block.length_image.trans (congrArg BlockKind.imageSize (hkinds block hmem)))]
  rw [List.map_const', List.sum_replicate, smul_eq_mul]

/-- Every block is overlaid with the bytes at its place. -/
theorem exists_readInto {kind : BlockKind} {c : Column}
    (hkinds : ∀ block ∈ c.blocks, block.kind = kind) (bytes : List ByteUnit) :
    ∃ new, c.deserFromFile { unread := bytes } =
        (new, { unread := bytes.drop (c.blocks.length * kind.imageSize) }) ∧
      c.ReadInto new ∧
      (∀ block ∈ new.blocks, block.kind = kind) ∧
      ∀ i old block, c.blocks[i]? = some old → new.blocks[i]? = some block →
        block.image = overlay old.image (bytes.drop (i * kind.imageSize)) := by
  obtain ⟨new, hread, himage, hkeeps⟩ := c.overlays_deserFromFile bytes
  rw [length_image hkinds] at hread
  have hnew : ∀ block ∈ new.blocks, block.kind = kind := by
    intro block hmem
    obtain ⟨i, hget⟩ := List.mem_iff_getElem?.mp hmem
    obtain ⟨hi, rfl⟩ := List.getElem?_eq_some_iff.mp hget
    have hi' : i < c.blocks.length := hkeeps.blocks.length_eq ▸ hi
    exact (hkeeps.blocks.get hi' hi).kind_eq.trans (hkinds _ (List.getElem_mem hi'))
  refine ⟨new, hread, hkeeps, hnew, fun i old block hold hblock => ?_⟩
  rw [← take_drop_image hnew hblock, himage, take_drop_overlay, take_drop_image hkinds hold]

end Column

/-- The size that block `i` of a column of `n` tuples records when the bytes are read into
the column: the number in the eight bytes at the block's place, of which those behind the end
of the file are the old ones. -/
def Column.sizeRead (kind : BlockKind) (n : Nat) (bytes : List ByteUnit) (i : Nat) : Nat :=
  numberOf (overlay (bytesOf 8 (chunkSize kNumTuplesPerBlock n i))
    (bytes.drop (i * kind.imageSize)))

namespace Column

theorem ReadInto.numTuples_lt {old new : Column} (h : old.ReadInto new) {i : Nat}
    {block : ColumnBlock} (hblock : new.blocks[i]? = some block) : block.numTuples < 2 ^ 64 := by
  obtain ⟨hi, rfl⟩ := List.getElem?_eq_some_iff.mp hblock
  have hi' : i < old.blocks.length := h.blocks.length_eq ▸ hi
  exact (h.blocks.get hi' hi).numTuples_lt

namespace Stores

variable {kind : BlockKind} {c new : Column} {n : Nat} {content : Nat → Nat}

theorem numTuples_block (h : c.Stores kind n content) {i : Nat} {block : ColumnBlock}
    (hblock : c.blocks[i]? = some block) :
    block.numTuples = chunkSize kNumTuplesPerBlock n i ∧ block.numTuples < 2 ^ 64 := by
  refine ⟨?_, (h.laidOut.size_le hblock).trans_lt (by decide)⟩
  rw [h.laidOut.size_block i _ hblock, h.num_eq]

/-- Every block takes over the size that the file has at its place. -/
theorem numTuples_readInto {bytes : List ByteUnit} (h : c.Stores kind n content)
    (hkeeps : c.ReadInto new)
    (himages : ∀ i old block, c.blocks[i]? = some old → new.blocks[i]? = some block →
      block.image = overlay old.image (bytes.drop (i * kind.imageSize)))
    {i : Nat} {block : ColumnBlock} (hblock : new.blocks[i]? = some block) :
    block.numTuples = sizeRead kind n bytes i := by
  obtain ⟨hi, -⟩ := List.getElem?_eq_some_iff.mp hblock
  have hi' : i < c.blocks.length := hkeeps.blocks.length_eq ▸ hi
  have hold := List.getElem?_eq_getElem hi'
  obtain ⟨hsize, hlt⟩ := h.numTuples_block hold
  -- the first eight bytes of the image, before and after
  rw [← ColumnBlock.numberOf_image (hkeeps.numTuples_lt hblock), himages i _ _ hold hblock,
    take_overlay, ColumnBlock.take_image hlt, hsize, sizeRead]

end Stores

end Column

/-- **Which files are safe to scan.**  Any file is read into a column that construction and
writes have made.  The column keeps its size, and every block takes over the size that the
file has at its place.  The scans of all blocks against literals stay inside their storage if
and only if these sizes are at most `kNumTuplesPerBlock`, and so do those against any other
blocks; no other byte of the file matters for that. -/
theorem deserFromFile_scan_inRange_iff (type : ColumnType) (bitWidth n : Nat) (kind : BlockKind)
    (hkind : Column.blockKind type bitWidth = some kind) (c : Column)
    (hc : c.Built type bitWidth n) (bytes : List ByteUnit) :
    ∃ new, c.deserFromFile { unread := bytes } =
        (new, { unread := bytes.drop (chunkCount kNumTuplesPerBlock n * kind.imageSize) }) ∧
      new.numTuples = n ∧
      (∀ i block, new.blocks[i]? = some block →
        block.numTuples = Column.sizeRead kind n bytes i) ∧
      ((∀ block ∈ new.blocks, ∀ cmp literal bvBlock opt,
          ∀ access ∈ block.scanAccesses cmp literal bvBlock opt, access.InRange kind) ↔
        ∀ i, i < chunkCount kNumTuplesPerBlock n →
          Column.sizeRead kind n bytes i ≤ kNumTuplesPerBlock) ∧
      ((∀ block ∈ new.blocks, ∀ cmp columnBlock bvBlock opt accesses,
          block.scanBlockAccesses cmp columnBlock bvBlock opt = some accesses →
            ∀ access ∈ accesses, access.InRange kind) ↔
        ∀ i, i < chunkCount kNumTuplesPerBlock n →
          Column.sizeRead kind n bytes i ≤ kNumTuplesPerBlock) := by
  have h := hc.stores hkind
  have hkinds : ∀ block ∈ c.blocks, block.kind = kind := fun block hmem =>
    (h.uniform block hmem).1
  have hlen : c.blocks.length = chunkCount kNumTuplesPerBlock n := by
    rw [h.laidOut.length_blocks, h.num_eq]
  obtain ⟨new, hread, hkeeps, hnewKinds, himages⟩ := Column.exists_readInto hkinds bytes
  have hlen' := hkeeps.blocks.length_eq
  rw [hlen] at hread hlen'
  have hsizes : ∀ i block, new.blocks[i]? = some block →
      block.numTuples = Column.sizeRead kind n bytes i :=
    fun i block hblock => h.numTuples_readInto hkeeps himages hblock
  have hall : (∀ block ∈ new.blocks, block.numTuples ≤ kNumTuplesPerBlock) ↔
      ∀ i, i < chunkCount kNumTuplesPerBlock n →
        Column.sizeRead kind n bytes i ≤ kNumTuplesPerBlock := by
    constructor
    · intro hsmall i hi
      have hi' : i < new.blocks.length := by omega
      rw [← hsizes i _ (List.getElem?_eq_getElem hi')]
      exact hsmall _ (List.getElem_mem hi')
    · intro hsmall block hmem
      obtain ⟨i, hblock⟩ := List.mem_iff_getElem?.mp hmem
      obtain ⟨hi, _⟩ := List.getElem?_eq_some_iff.mp hblock
      rw [hsizes i block hblock]
      exact hsmall i (by omega)
  refine ⟨new, hread, hkeeps.numTuples_eq.trans h.num_eq, hsizes, ?_, ?_⟩
  · rw [← hall]
    refine forall₂_congr fun block hmem => ?_
    rw [← hnewKinds block hmem]
    -- one scan tells the size already
    refine ⟨fun hrange => ?_, fun hsmall cmp literal bvBlock opt =>
      (block.scanAccesses_inRange_iff cmp literal bvBlock opt).mpr hsmall⟩
    exact (block.scanAccesses_inRange_iff .kLess 0#64 (BitVectorBlock.new 1 (by decide)
      (by decide)) .kSet).mp (hrange _ _ _ _)
  · rw [← hall]
    refine forall₂_congr fun block hmem => ?_
    rw [← hnewKinds block hmem]
    refine ⟨fun hrange => ?_, fun hsmall cmp columnBlock bvBlock opt accesses haccesses =>
      (block.scanBlockAccesses_inRange_iff cmp columnBlock bvBlock opt haccesses).mpr hsmall⟩
    obtain ⟨accesses, haccesses⟩ := block.exists_scanBlockAccesses_self .kLess
      (BitVectorBlock.new 1 (by decide) (by decide)) .kSet
    exact (block.scanBlockAccesses_inRange_iff _ _ _ _ haccesses).mp
      (hrange _ _ _ _ _ haccesses)

/-- Eight bytes that write `2097152`, read into a column of three tuples: some scan against a
literal leaves the storage, and some scan against another block. -/
theorem deserFromFile_scan_inRange_iff_eight :
    ∃ c new, Column.new .kByteSlicePadRight 11 3 = some c ∧
      c.deserFromFile { unread := [0#8, 0#8, 32#8, 0#8, 0#8, 0#8, 0#8, 0#8] } =
        (new, { unread := [] }) ∧
      (¬ ∀ block ∈ new.blocks, ∀ cmp literal bvBlock opt,
        ∀ access ∈ block.scanAccesses cmp literal bvBlock opt,
          access.InRange (.byteSlice ⟨11, by decide, by decide⟩)) ∧
      ¬ ∀ block ∈ new.blocks, ∀ cmp columnBlock bvBlock opt accesses,
        block.scanBlockAccesses cmp columnBlock bvBlock opt = some accesses →
          ∀ access ∈ accesses, access.InRange (.byteSlice ⟨11, by decide, by decide⟩) := by
  have hkind : Column.blockKind .kByteSlicePadRight 11 =
      some (.byteSlice ⟨11, by decide, by decide⟩) := rfl
  have hone : chunkCount kNumTuplesPerBlock 3 = 1 :=
    chunkCount_eq_succ kNumTuplesPerBlock_pos (by decide) (by decide)
  obtain ⟨c, hnew, _⟩ := Column.exists_new hkind 3
  obtain ⟨new, hread, _, _, hiff, hiff'⟩ := deserFromFile_scan_inRange_iff .kByteSlicePadRight
    11 3 _ hkind c (Column.built_new hnew) [0#8, 0#8, 32#8, 0#8, 0#8, 0#8, 0#8, 0#8]
  have hlarge : ¬ ∀ i, i < chunkCount kNumTuplesPerBlock 3 →
      Column.sizeRead (.byteSlice ⟨11, by decide, by decide⟩) 3
        [0#8, 0#8, 32#8, 0#8, 0#8, 0#8, 0#8, 0#8] i ≤ kNumTuplesPerBlock := by
    intro hall
    exact absurd (hall 0 (by rw [hone]; exact Nat.one_pos)) (by decide)
  exact ⟨c, new, hnew, hread, fun hall => hlarge (hiff.mp hall),
    fun hall => hlarge (hiff'.mp hall)⟩

end ByteSlice
