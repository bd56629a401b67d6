import Mathlib
import ByteSlice.ColumnArray
import ByteSlice.SequentialBinaryFile

/-!
# `SerToFile` and `DeserFromFile`

A block writes its number of tuples and then its whole memory; a column writes its
blocks in order.  Nothing in the file says how many blocks or which class, so a
reader is right only because it takes the same lengths as the writer did.

`image` is what an object writes.  `Restores` is what a block must have in common
with the writer after reading: everything that can be observed of it.
-/

namespace ByteSlice

open Foundation

/-- The representation of a `size_t`. -/
def sizeTCodec : ByteCodec (BitVec 64) := ByteCodec.word 8

theorem size_sizeTCodec : sizeTCodec.size = 8 := rfl

namespace NaiveColumnBlock

variable {dt : DType}

/-- `sizeof(DTYPE)` -/
def sizeofDType : DType → Nat
  | .uint8 => 1
  | .uint16 => 2
  | .uint32 => 4
  | .uint64 => 8

/-- The representation of a `DTYPE`. -/
def dTypeCodec : (dt : DType) → ByteCodec (BitVec dt.bits)
  | .uint8 => ByteCodec.word 1
  | .uint16 => ByteCodec.word 2
  | .uint32 => ByteCodec.word 4
  | .uint64 => ByteCodec.word 8

/-- The representation of `data_`. -/
def dataCodec (dt : DType) : ByteCodec (Vector (BitVec dt.bits) kNumTuplesPerBlock) :=
  (dTypeCodec dt).vector kNumTuplesPerBlock

theorem size_dataCodec (dt : DType) :
    (dataCodec dt).size = sizeofDType dt * kNumTuplesPerBlock := by
  show kNumTuplesPerBlock * (dTypeCodec dt).size = _
  cases dt <;> exact Nat.mul_comm _ _

def serToFile (b : NaiveColumnBlock dt) (file : SequentialWriteBinaryFile) :
    SequentialWriteBinaryFile :=
  (file.append (sizeTCodec.encode (BitVec.ofNat 64 b.numTuples)) 8).append
    ((dataCodec dt).encode b.data) (sizeofDType dt * kNumTuplesPerBlock)

def deserFromFile (b : NaiveColumnBlock dt) (file : SequentialReadBinaryFile) :
    NaiveColumnBlock dt × SequentialReadBinaryFile :=
  let (numTuples, file) := file.readInto sizeTCodec (BitVec.ofNat 64 b.numTuples) 8
  let (data, file) := file.readInto (dataCodec dt) b.data (sizeofDType dt * kNumTuplesPerBlock)
  ({ numTuples := numTuples.toNat, data := data }, file)

/-- What the block writes. -/
def image (b : NaiveColumnBlock dt) : List ByteUnit :=
  sizeTCodec.encode (BitVec.ofNat 64 b.numTuples) ++ (dataCodec dt).encode b.data

theorem written_serToFile (b : NaiveColumnBlock dt) (file : SequentialWriteBinaryFile) :
    (b.serToFile file).written = file.written ++ b.image := by
  unfold serToFile image
  rw [SequentialWriteBinaryFile.append_encode size_sizeTCodec,
    SequentialWriteBinaryFile.append_encode (size_dataCodec dt), List.append_assoc]

/-- Reading the image of a block makes it that block. -/
theorem consumes_deserFromFile {b : NaiveColumnBlock dt} (hnum : b.numTuples < 2 ^ 64)
    (old : NaiveColumnBlock dt) :
    Consumes SequentialReadBinaryFile.mk deserFromFile b.image old fun new => new = b := by
  intro rest
  refine ⟨b, ?_, rfl⟩
  unfold deserFromFile image
  rw [List.append_assoc, SequentialReadBinaryFile.readInto_encode size_sizeTCodec]
  dsimp only
  rw [SequentialReadBinaryFile.readInto_encode (size_dataCodec dt), BitVec.toNat_ofNat,
    Nat.mod_eq_of_lt hnum]

end NaiveColumnBlock

namespace ByteSliceColumnBlock

variable {w : BitWidth} {dir : Direction}

/-- The representation of one slice. -/
def sliceCodec : ByteCodec (Vector ByteUnit kMemSizePerByteSlice) :=
  (ByteCodec.word 1).vector kMemSizePerByteSlice

theorem size_sliceCodec : sliceCodec.size = kMemSizePerByteSlice := Nat.mul_one _

def serToFile (b : ByteSliceColumnBlock w dir) (file : SequentialWriteBinaryFile) :
    SequentialWriteBinaryFile :=
  forLoop (kNumBytesPerCode w) 1 Nat.one_pos
    (fun byteId _ file =>
      file.append (sliceCodec.encode (load b.data byteId)) kMemSizePerByteSlice)
    0 (file.append (sizeTCodec.encode (BitVec.ofNat 64 b.numTuples)) 8)

def deserFromFile (b : ByteSliceColumnBlock w dir) (file : SequentialReadBinaryFile) :
    ByteSliceColumnBlock w dir × SequentialReadBinaryFile :=
  let (numTuples, file) := file.readInto sizeTCodec (BitVec.ofNat 64 b.numTuples) 8
  forLoop (kNumBytesPerCode w) 1 Nat.one_pos
    (fun byteId _ (state : ByteSliceColumnBlock w dir × SequentialReadBinaryFile) =>
      let (b, file) := state
      let (slice, file) := file.readInto sliceCodec (load b.data byteId) kMemSizePerByteSlice
      ({ b with data := store b.data byteId slice }, file))
    0 ({ b with numTuples := numTuples.toNat }, file)

/-- What the slices from `byteId` on write, `count` of them. -/
def slicesImage (b : ByteSliceColumnBlock w dir) (byteId count : Nat) : List ByteUnit :=
  (List.range count).flatMap fun k => sliceCodec.encode (load b.data (byteId + k))

theorem slicesImage_succ (b : ByteSliceColumnBlock w dir) (byteId count : Nat) :
    b.slicesImage byteId (count + 1) =
      sliceCodec.encode (load b.data byteId) ++ b.slicesImage (byteId + 1) count := by
  unfold slicesImage
  rw [List.range_succ_eq_map, List.flatMap_cons, List.flatMap_map]
  simp only [Nat.add_zero, Nat.succ_eq_add_one, Nat.add_assoc, Nat.add_comm 1]

/-- What the block writes. -/
def image (b : ByteSliceColumnBlock w dir) : List ByteUnit :=
  sizeTCodec.encode (BitVec.ofNat 64 b.numTuples) ++ b.slicesImage 0 (kNumBytesPerCode w)

/-- The image of a slice inside that of the slices. -/
theorem take_drop_slicesImage (b : ByteSliceColumnBlock w dir) {j count : Nat}
    (hj : j < count) :
    ((b.slicesImage 0 count).drop (j * kMemSizePerByteSlice)).take kMemSizePerByteSlice =
      sliceCodec.encode (load b.data j) := by
  refine (take_drop_flatMap_of_length (fun k _ => ?_) (List.getElem?_range hj)).trans ?_
  · rw [sliceCodec.length_encode, size_sliceCodec]
  · rw [Nat.zero_add]

/-- The writing loop.  What is written and what the rest of the loop writes make up
the whole throughout. -/
theorem written_serToFile (b : ByteSliceColumnBlock w dir)
    (file : SequentialWriteBinaryFile) :
    (b.serToFile file).written = file.written ++ b.image := by
  obtain ⟨exit, hstop, hnear, _, _, hexit⟩ := forLoop_rule Nat.one_pos
    (fun byteId (_ : byteId < kNumBytesPerCode w) (file : SequentialWriteBinaryFile) =>
      file.append (sliceCodec.encode (load b.data byteId)) kMemSizePerByteSlice)
    (fun byteId written => written.written ++
      b.slicesImage byteId (kNumBytesPerCode w - byteId) = file.written ++ b.image)
    (by
      intro byteId hlt written hwritten
      rw [show kNumBytesPerCode w - byteId = kNumBytesPerCode w - (byteId + 1) + 1 by omega,
        slicesImage_succ, ← List.append_assoc] at hwritten
      rw [SequentialWriteBinaryFile.append_encode size_sliceCodec]
      exact hwritten)
    0 (file.append (sizeTCodec.encode (BitVec.ofNat 64 b.numTuples)) 8)
    (by
      rw [SequentialWriteBinaryFile.append_encode size_sizeTCodec, Nat.sub_zero, image]
      exact List.append_assoc _ _ _)
  rw [show kNumBytesPerCode w - exit = 0 by omega] at hexit
  rw [← hexit]
  exact (List.append_nil _).symm

/-- Reading the image of a block makes the size and the slices in use those of that
block. -/
theorem consumes_deserFromFile {b : ByteSliceColumnBlock w dir} (hnum : b.numTuples < 2 ^ 64)
    (old : ByteSliceColumnBlock w dir) :
    Consumes SequentialReadBinaryFile.mk deserFromFile b.image old fun new =>
      new.numTuples = b.numTuples ∧
        ∀ j, j < kNumBytesPerCode w → load new.data j = load b.data j := by
  intro rest
  obtain ⟨exit, hstop, _, _, _, hnumTuples, hslices, hunread⟩ := forLoop_rule Nat.one_pos
    (fun byteId (_ : byteId < kNumBytesPerCode w)
        (state : ByteSliceColumnBlock w dir × SequentialReadBinaryFile) =>
      let (b, file) := state
      let (slice, file) := file.readInto sliceCodec (load b.data byteId) kMemSizePerByteSlice
      ({ b with data := store b.data byteId slice }, file))
    (fun byteId state => state.1.numTuples = b.numTuples ∧
      (∀ j, j < byteId → j < kNumBytesPerCode w → load state.1.data j = load b.data j) ∧
      state.2 = { unread := b.slicesImage byteId (kNumBytesPerCode w - byteId) ++ rest })
    (by
      rintro byteId hlt ⟨new, file⟩ ⟨hnumTuples, hslices, hunread⟩
      dsimp only at hnumTuples hslices hunread ⊢
      rw [show kNumBytesPerCode w - byteId = kNumBytesPerCode w - (byteId + 1) + 1 by omega,
        slicesImage_succ, List.append_assoc] at hunread
      rw [hunread, SequentialReadBinaryFile.readInto_encode size_sliceCodec]
      refine ⟨hnumTuples, fun j hj hjlt => ?_, rfl⟩
      have hle := kNumBytesPerCode_le w
      dsimp only
      rw [load_store _ _ _ (by omega)]
      -- the slice just read, or one read in an earlier round
      by_cases hsame : byteId = j
      · rw [if_pos hsame, hsame]
      · rw [if_neg hsame]
        exact hslices j (by omega) hjlt)
    0 ({ old with numTuples := b.numTuples },
      { unread := b.slicesImage 0 (kNumBytesPerCode w) ++ rest })
    ⟨rfl, fun j hj => absurd hj (Nat.not_lt_zero j), rfl⟩
  rw [Nat.sub_eq_zero_of_le hstop] at hunread
  refine ⟨_, ?_, hnumTuples, fun j hj => hslices j (by omega) hj⟩
  unfold deserFromFile image
  rw [List.append_assoc, SequentialReadBinaryFile.readInto_encode size_sizeTCodec]
  dsimp only
  rw [BitVec.toNat_ofNat, Nat.mod_eq_of_lt hnum]
  exact Prod.ext rfl hunread

/-- A tuple is read through the slices in use only. -/
theorem getTuple_congr {b b' : ByteSliceColumnBlock w dir}
    (hslices : ∀ j, j < kNumBytesPerCode w → load b.data j = load b'.data j) (pos : Nat) :
    b.getTuple pos = b'.getTuple pos := by
  have hbyte : ∀ j, j < kNumBytesPerCode w → b.byte j pos = b'.byte j pos := by
    intro j hj
    unfold byte
    rw [hslices j hj]
  unfold getTuple
  rcases kNumBytesPerCode_cases w with h | h | h | h
  · simp only [h, hbyte 0 (by omega)]
    cases dir <;> rfl
  · simp only [h, hbyte 0 (by omega), hbyte 1 (by omega)]
    cases dir <;> rfl
  · simp only [h, hbyte 0 (by omega), hbyte 1 (by omega), hbyte 2 (by omega)]
    cases dir <;> rfl
  · simp only [h, hbyte 0 (by omega), hbyte 1 (by omega), hbyte 2 (by omega),
      hbyte 3 (by omega)]
    cases dir <;> rfl

theorem image_congr {b b' : ByteSliceColumnBlock w dir} (hnum : b.numTuples = b'.numTuples)
    (hslices : ∀ j, j < kNumBytesPerCode w → load b.data j = load b'.data j) :
    b.image = b'.image := by
  unfold image slicesImage
  rw [hnum]
  congr 1
  refine List.flatMap_congr fun j hj => ?_
  rw [hslices (0 + j) (by have := List.mem_range.mp hj; omega)]

end ByteSliceColumnBlock

namespace ColumnBlock

def serToFile (block : ColumnBlock) (file : SequentialWriteBinaryFile) :
    SequentialWriteBinaryFile :=
  match block with
  | .naive _ b => b.serToFile file
  | .byteSlice _ b => b.serToFile file

def deserFromFile (block : ColumnBlock) (file : SequentialReadBinaryFile) :
    ColumnBlock × SequentialReadBinaryFile :=
  match block with
  | .naive dt b =>
      let (b, file) := b.deserFromFile file
      (.naive dt b, file)
  | .byteSlice w b =>
      let (b, file) := b.deserFromFile file
      (.byteSlice w b, file)

/-- What the block writes. -/
def image : ColumnBlock → List ByteUnit
  | .naive _ b => b.image
  | .byteSlice _ b => b.image

theorem written_serToFile (block : ColumnBlock) (file : SequentialWriteBinaryFile) :
    (block.serToFile file).written = file.written ++ block.image := by
  cases block with
  | naive dt b => exact b.written_serToFile file
  | byteSlice w b => exact b.written_serToFile file

/-- Everything that can be observed of `block` is so of `new`. -/
structure Restores (block new : ColumnBlock) : Prop where
  kind_eq : new.kind = block.kind
  numTuples_eq : new.numTuples = block.numTuples
  getTuple_eq : ∀ pos, new.getTuple pos = block.getTuple pos
  image_eq : new.image = block.image

/-- A block of the writer's class reads back the writer. -/
theorem consumes_deserFromFile {block old : ColumnBlock} (hkind : old.kind = block.kind)
    (hnum : block.numTuples < 2 ^ 64) :
    Consumes SequentialReadBinaryFile.mk deserFromFile block.image old (Restores block) := by
  intro rest
  cases block with
  | naive dt b =>
      cases old with
      | naive dt' old =>
          obtain rfl : dt' = dt := BlockKind.naive.inj hkind
          obtain ⟨new, hread, rfl⟩ := NaiveColumnBlock.consumes_deserFromFile hnum old rest
          refine ⟨.naive dt' new, ?_, rfl, rfl, fun _ => rfl, rfl⟩
          unfold deserFromFile image
          dsimp only
          rw [hread]
      | byteSlice w old => exact BlockKind.noConfusion hkind
  | byteSlice w b =>
      cases old with
      | naive dt old => exact BlockKind.noConfusion hkind
      | byteSlice w' old =>
          obtain rfl : w' = w := BlockKind.byteSlice.inj hkind
          obtain ⟨new, hread, hnumTuples, hslices⟩ :=
            ByteSliceColumnBlock.consumes_deserFromFile hnum old rest
          refine ⟨.byteSlice w' new, ?_, rfl, hnumTuples,
            ByteSliceColumnBlock.getTuple_congr hslices,
            ByteSliceColumnBlock.image_congr hnumTuples hslices⟩
          unfold deserFromFile image
          dsimp only
          rw [hread]

end ColumnBlock

namespace Column

def serToFile (c : Column) (file : SequentialWriteBinaryFile) : SequentialWriteBinaryFile :=
  c.blocks.foldl (fun file block => block.serToFile file) file

def deserFromFile (c : Column) (file : SequentialReadBinaryFile) :
    Column × SequentialReadBinaryFile :=
  let (blocks, file) := receiveAll ColumnBlock.deserFromFile c.blocks file
  ({ c with blocks := blocks }, file)

/-- What the column writes. -/
def image (c : Column) : List ByteUnit := c.blocks.flatMap ColumnBlock.image

theorem written_serToFile (c : Column) (file : SequentialWriteBinaryFile) :
    (c.serToFile file).written = file.written ++ c.image :=
  foldl_write_eq ColumnBlock.written_serToFile c.blocks file

/-- The restored column returns the same tuples for all ids, has the same number of
tuples in every block and writes the same bytes. -/
structure Restores (c new : Column) : Prop where
  getTuple_eq : ∀ id, new.getTuple id = c.getTuple id
  numTuples_eq : new.blocks.map ColumnBlock.numTuples = c.blocks.map ColumnBlock.numTuples
  serToFile_eq : ∀ file, new.serToFile file = c.serToFile file

/-- An observation on which restored blocks agree, over all blocks. -/
theorem map_eq_of_restores {β : Type} {observe : ColumnBlock → β} {blocks news : List ColumnBlock}
    (h : List.Forall₂ ColumnBlock.Restores blocks news)
    (hobserve : ∀ block new, ColumnBlock.Restores block new → observe new = observe block) :
    news.map observe = blocks.map observe := by
  induction h with
  | nil => rfl
  | cons hhead _ ih => rw [List.map_cons, List.map_cons, hobserve _ _ hhead, ih]

theorem restores_of_blocks {c new : Column}
    (h : List.Forall₂ ColumnBlock.Restores c.blocks new.blocks) : c.Restores new := by
  have himage : new.image = c.image := by
    have hmap := map_eq_of_restores h fun _ _ hblock => hblock.image_eq
    unfold image
    rw [List.flatMap_def, List.flatMap_def, hmap]
  refine ⟨fun id => ?_, map_eq_of_restores h fun _ _ hblock => hblock.numTuples_eq,
    fun file => ?_⟩
  -- all blocks agree at the position within the block, also when there is no such block
  · have hmap : new.blocks.map (fun block => block.getTuple (id % kNumTuplesPerBlock)) =
        c.blocks.map fun block => block.getTuple (id % kNumTuplesPerBlock) :=
      map_eq_of_restores h fun _ _ hblock => hblock.getTuple_eq _
    show (new.blocks[id / kNumTuplesPerBlock]?).map _ = (c.blocks[id / kNumTuplesPerBlock]?).map _
    rw [← List.getElem?_map, ← List.getElem?_map]
    exact congrArg (fun values : List WordUnit => values[id / kNumTuplesPerBlock]?) hmap
  · have hwritten : (new.serToFile file).written = (c.serToFile file).written := by
      rw [written_serToFile, written_serToFile, himage]
    exact congrArg SequentialWriteBinaryFile.mk hwritten

/-- Columns built for one type and width with equally many blocks have blocks of one
class, and their sizes fit a `size_t`. -/
theorem forall₂_of_built {type : ColumnType} {bitWidth n n' : Nat} {c old : Column}
    (hc : c.Built type bitWidth n) (hold : old.Built type bitWidth n')
    (hcount : chunkCount kNumTuplesPerBlock n = chunkCount kNumTuplesPerBlock n') :
    List.Forall₂ (fun block old : ColumnBlock =>
      old.kind = block.kind ∧ block.numTuples < 2 ^ 64) c.blocks old.blocks := by
  obtain ⟨kind, _, hstores⟩ := exists_kind_of_built type bitWidth
  have h := hstores n c hc
  have h' := hstores n' old hold
  have hlen : c.blocks.length = old.blocks.length := by
    rw [h.laidOut.length_blocks, h'.laidOut.length_blocks, h.num_eq, h'.num_eq, hcount]
  refine List.forall₂_iff_get.mpr ⟨hlen, fun i hi hi' => ⟨?_, ?_⟩⟩
  · exact (h'.uniform _ (List.getElem_mem hi')).1.trans
      (h.uniform _ (List.getElem_mem hi)).1.symm
  · have hle := h.laidOut.size_le (List.getElem?_eq_getElem hi)
    rw [kNumTuplesPerBlock_eq] at hle
    exact Nat.lt_of_le_of_lt hle (by decide)

/-- A column of the writer's type, width and number of blocks reads back the writer,
whatever it held before and whatever follows in the file. -/
theorem consumes_deserFromFile {type : ColumnType} {bitWidth n n' : Nat} {c old : Column}
    (hc : c.Built type bitWidth n) (hold : old.Built type bitWidth n')
    (hcount : chunkCount kNumTuplesPerBlock n = chunkCount kNumTuplesPerBlock n') :
    Consumes SequentialReadBinaryFile.mk deserFromFile c.image old (Restores c) := by
  intro rest
  have hblocks : Consumes SequentialReadBinaryFile.mk (receiveAll ColumnBlock.deserFromFile)
      c.image old.blocks fun news => List.Forall₂ ColumnBlock.Restores c.blocks news :=
    consumes_receiveAll ((forall₂_of_built hc hold hcount).imp fun block old h =>
      ColumnBlock.consumes_deserFromFile h.1 h.2)
  obtain ⟨news, hread, hrestores⟩ := hblocks rest
  refine ⟨{ old with blocks := news }, ?_, restores_of_blocks hrestores⟩
  unfold deserFromFile
  rw [hread]

/-- `SerToFile` of one column after the other. -/
def serializeAll (columns : List Column) (file : SequentialWriteBinaryFile) :
    SequentialWriteBinaryFile :=
  columns.foldl (fun file c => c.serToFile file) file

/-- `DeserFromFile` of one column after the other. -/
def deserializeAll (columns : List Column) (file : SequentialReadBinaryFile) :
    List Column × SequentialReadBinaryFile :=
  receiveAll deserFromFile columns file

end Column

/-- **Serialization round-trips.**  Columns are written to a new file one after the
other and read back in the same order into columns built for the same types, widths
and sizes, with any contents.  Every receiver restores its sender, and the reads
consume exactly the bytes written. -/
theorem serialization_round_trip (senders receivers : List Column)
    (hpairs : List.Forall₂ (fun c old : Column => ∃ type bitWidth n,
      c.Built type bitWidth n ∧ old.Built type bitWidth n) senders receivers) :
    ∃ restored, Column.deserializeAll receivers
        { unread := (Column.serializeAll senders { written := [] }).written } =
          (restored, { unread := [] }) ∧
      List.Forall₂ Column.Restores senders restored := by
  have hwritten : (Column.serializeAll senders { written := [] }).written =
      senders.flatMap Column.image :=
    foldl_write_eq Column.written_serToFile senders { written := [] }
  have hall : Consumes SequentialReadBinaryFile.mk (receiveAll Column.deserFromFile)
      (senders.flatMap Column.image) receivers fun restored =>
        List.Forall₂ Column.Restores senders restored :=
    consumes_receiveAll (hpairs.imp fun c old ⟨_, _, _, hc, hold⟩ =>
      Column.consumes_deserFromFile hc hold rfl)
  obtain ⟨restored, hread, hrestores⟩ := hall []
  refine ⟨restored, ?_, hrestores⟩
  rw [hwritten]
  rw [List.append_nil] at hread
  exact hread

/-- Two columns of different types, read back into columns on which the write to tuple
`1` of the first did not happen. -/
theorem serialization_round_trip_two :
    ∃ start c d r s, Column.new .kByteSlicePadRight 11 3 = some start ∧
      start.setTuple 1 7#64 = some c ∧ Column.new .kNaive 8 2 = some d ∧
      Column.deserializeAll [start, d]
        { unread := (Column.serializeAll [c, d] { written := [] }).written } =
          ([r, s], { unread := [] }) ∧
      r.getTuple 1 = some 7#64 := by
  have hkind : Column.blockKind .kByteSlicePadRight 11 =
      some (.byteSlice ⟨11, by omega, by omega⟩) := rfl
  have hnaive : Column.blockKind .kNaive 8 = some (.naive .uint8) := rfl
  obtain ⟨start, hnew, hstores⟩ := Column.exists_new hkind 3
  obtain ⟨d, hnewD, _⟩ := Column.exists_new hnaive 2
  obtain ⟨c, hset, hc⟩ := hstores.exists_setTuple (show 1 < 3 by omega) 7#64
  have hstart := Column.built_new hnew
  have hd := Column.built_new hnewD
  have hbuilt := hstart.exec (.setTuple 1 7#64) (show 1 < 3 by omega) hset
  obtain ⟨restored, hread, hrestores⟩ := serialization_round_trip [c, d] [start, d]
    (List.Forall₂.cons ⟨_, _, _, hbuilt, hstart⟩
      (List.Forall₂.cons ⟨_, _, _, hd, hd⟩ List.Forall₂.nil))
  obtain ⟨r, _, hr, hrest, rfl⟩ := List.forall₂_cons_left_iff.mp hrestores
  obtain ⟨s, _, _, hnil, rfl⟩ := List.forall₂_cons_left_iff.mp hrest
  obtain rfl := List.forall₂_nil_left_iff.mp hnil
  obtain ⟨value, hvalue, heq⟩ := hc.getTuple_eq (show 1 < 3 by omega)
  have hseven : value = 7#64 := by
    apply BitVec.eq_of_toNat_eq
    rw [heq, Function.update_self]
    rfl
  refine ⟨start, c, d, r, s, hnew, hset, hnewD, hread, ?_⟩
  rw [hr.getTuple_eq, hvalue, hseven]

/-! ## The two sizes -/

namespace Column

end Column

end ByteSlice
