import Mathlib
import ByteSlice.UncheckedRead

/-!
# Reading back a write that was cut off

`Append` returns how many bytes were written, and `SerToFile` does not look at it.  So a
file can end anywhere in the image of a column, and `DeserFromFile` reads it all the same.
A tuple at the cut is then neither the old nor the new one.  Which part of it is new depends
on the class of its block: byte slices are written from the most significant byte on, plain
elements begin with the least significant one.

Everything below is about the tuples that a block has room for, not only those it records.
-/

namespace ByteSlice

open Foundation

/-- How many bytes of the tuple at `pos` are among the first `cut` bytes of its block's
image. -/
def BlockKind.bytesBefore (kind : BlockKind) (cut pos : Nat) : Nat :=
  match kind with
  | .naive dt =>
      let size := NaiveColumnBlock.sizeofDType dt
      min size (cut - (8 + pos * size))
  | .byteSlice w =>
      min (ByteSliceColumnBlock.kNumBytesPerCode w)
        (chunkCount kMemSizePerByteSlice (cut - (8 + pos)))

/-- A tuple of which the first `count` bytes in the order of the file are those of `sent`. -/
def BlockKind.mix (kind : BlockKind) (count sent old : Nat) : Nat :=
  match kind with
  | .naive _ => sent % 256 ^ count + old / 256 ^ count * 256 ^ count
  | .byteSlice w =>
      let low := 8 * (ByteSliceColumnBlock.kNumBytesPerCode w - count) -
        ByteSliceColumnBlock.kNumPaddingBits w
      sent / 2 ^ low * 2 ^ low + old % 2 ^ low

/-- Equal tuples do not mix. -/
theorem BlockKind.mix_self (kind : BlockKind) (count value : Nat) :
    kind.mix count value value = value := by
  cases kind with
  | naive dt => exact Nat.mod_add_div' value _
  | byteSlice w => exact Nat.div_add_mod' value _

namespace ColumnBlock

theorem exists_naive {block : ColumnBlock} {dt : DType} (hkind : block.kind = .naive dt) :
    ∃ b, block = .naive dt b := by
  cases block with
  | naive dt' b =>
      obtain rfl : dt' = dt := BlockKind.naive.inj hkind
      exact ⟨b, rfl⟩
  | byteSlice w b => exact BlockKind.noConfusion hkind

theorem exists_byteSlice {block : ColumnBlock} {w : BitWidth} (hkind : block.kind = .byteSlice w) :
    ∃ b, block = .byteSlice w b := by
  cases block with
  | naive dt b => exact BlockKind.noConfusion hkind
  | byteSlice w' b =>
      obtain rfl : w' = w := BlockKind.byteSlice.inj hkind
      exact ⟨b, rfl⟩

end ColumnBlock

namespace NaiveColumnBlock

variable {dt : DType}

theorem encode_dTypeCodec (x : BitVec dt.bits) :
    (dTypeCodec dt).encode x = bytesOf (sizeofDType dt) x.toNat := by
  cases dt <;> rfl

theorem size_dTypeCodec (dt : DType) : (dTypeCodec dt).size = sizeofDType dt := by
  cases dt <;> rfl

theorem bits_eq (dt : DType) : dt.bits = 8 * sizeofDType dt := by
  cases dt <;> rfl

theorem length_image (b : NaiveColumnBlock dt) :
    b.image.length = 8 + sizeofDType dt * kNumTuplesPerBlock :=
  (ColumnBlock.naive dt b).length_image

/-- The bytes of an element in the image. -/
theorem take_drop_image (b : NaiveColumnBlock dt) {pos : Nat} (hpos : pos < kNumTuplesPerBlock) :
    (b.image.drop (8 + pos * sizeofDType dt)).take (sizeofDType dt) =
      bytesOf (sizeofDType dt) (b.getTuple pos).toNat := by
  have hlen : (sizeTCodec.encode (BitVec.ofNat 64 b.numTuples)).length = 8 :=
    sizeTCodec.length_encode _
  rw [image, ← hlen, List.drop_length_add_append, ← size_dTypeCodec, toNat_getTuple]
  refine (ByteCodec.take_drop_flatMap _ (getElem?_toList b.data hpos)).trans ?_
  rw [encode_dTypeCodec, size_dTypeCodec]

theorem getTuple_torn {sent old new : NaiveColumnBlock dt} {cut : Nat}
    (himage : new.image = overlay old.image (sent.image.take cut)) {pos : Nat}
    (hpos : pos < kNumTuplesPerBlock) :
    (new.getTuple pos).toNat = (BlockKind.naive dt).mix ((BlockKind.naive dt).bytesBefore cut pos)
      (sent.getTuple pos).toNat (old.getTuple pos).toNat := by
  have hfits : 8 + pos * sizeofDType dt + sizeofDType dt ≤ old.image.length := by
    have hmul : (pos + 1) * sizeofDType dt ≤ kNumTuplesPerBlock * sizeofDType dt :=
      Nat.mul_le_mul_right _ hpos
    rw [length_image, Nat.mul_comm (sizeofDType dt)]
    rw [Nat.succ_mul] at hmul
    omega
  have hlt : ∀ b : NaiveColumnBlock dt, (b.getTuple pos).toNat < 256 ^ sizeofDType dt := by
    intro b
    rw [show 256 = 2 ^ 8 from rfl, ← Nat.pow_mul, ← bits_eq]
    exact b.toNat_getTuple_lt pos
  have hbytes := congrArg numberOf (new.take_drop_image hpos)
  rw [himage, take_drop_overlay_take _ _ _ hfits, old.take_drop_image hpos,
    sent.take_drop_image hpos, numberOf_overlay_bytesOf (hlt old), numberOf_bytesOf,
    Nat.mod_eq_of_lt (hlt new)] at hbytes
  exact hbytes.symm

end NaiveColumnBlock

namespace ByteSliceColumnBlock

variable {w : BitWidth}

theorem length_image (b : ByteSliceColumnBlock w .kRight) :
    b.image.length = 8 + kNumBytesPerCode w * kMemSizePerByteSlice :=
  (ColumnBlock.byteSlice w b).length_image

/-- The byte of a slice in the image. -/
theorem take_drop_image (b : ByteSliceColumnBlock w .kRight) {j pos : Nat}
    (hj : j < kNumBytesPerCode w) (hpos : pos < kMemSizePerByteSlice) :
    (b.image.drop (8 + j * kMemSizePerByteSlice + pos)).take 1 = [b.byte j pos] := by
  have hlen : (sizeTCodec.encode (BitVec.ofNat 64 b.numTuples)).length = 8 :=
    sizeTCodec.length_encode _
  have hslice := b.take_drop_slicesImage hj
  have hbyte := ByteCodec.take_drop_flatMap (ByteCodec.word 1)
    (getElem?_toList (load b.data j) hpos)
  rw [show (ByteCodec.word 1).size = 1 from rfl, Nat.mul_one] at hbyte
  have hone : (sliceCodec.encode (load b.data j)).drop pos =
      (((b.slicesImage 0 (kNumBytesPerCode w)).drop (j * kMemSizePerByteSlice)).drop pos).take
        (kMemSizePerByteSlice - pos) := by
    rw [← hslice, List.drop_take]
  have hdrop : b.image.drop (8 + j * kMemSizePerByteSlice + pos) =
      ((b.slicesImage 0 (kNumBytesPerCode w)).drop (j * kMemSizePerByteSlice)).drop pos := by
    rw [← List.drop_drop, ← List.drop_drop, image, List.drop_left' hlen]
  rw [hdrop]
  calc
    _ = ((sliceCodec.encode (load b.data j)).drop pos).take 1 := by
      rw [hone, List.take_take, Nat.min_eq_left (by omega)]
    _ = (ByteCodec.word 1).encode (b.byte j pos) := hbyte
    _ = [b.byte j pos] := by
      show [BitVec.ofNat 8 (b.byte j pos).toNat] = _
      rw [BitVec.ofNat_toNat, BitVec.setWidth_eq]

/-- The slices that had been written that far are the sender's. -/
theorem digit_torn {sent old new : ByteSliceColumnBlock w .kRight} {cut : Nat}
    (himage : new.image = overlay old.image (sent.image.take cut)) {j pos : Nat}
    (hj : j < kNumBytesPerCode w) (hpos : pos < kMemSizePerByteSlice) :
    new.digit pos j = if j < (BlockKind.byteSlice w).bytesBefore cut pos then sent.digit pos j
      else old.digit pos j := by
  have hfits : 8 + j * kMemSizePerByteSlice + pos + 1 ≤ old.image.length := by
    have hmul : (j + 1) * kMemSizePerByteSlice ≤ kNumBytesPerCode w * kMemSizePerByteSlice :=
      Nat.mul_le_mul_right _ hj
    rw [Nat.succ_mul] at hmul
    rw [length_image]
    omega
  have hbyte := new.take_drop_image hj hpos
  rw [himage, take_drop_overlay_take _ _ _ hfits, old.take_drop_image hj hpos,
    sent.take_drop_image hj hpos] at hbyte
  have hbefore : j < (BlockKind.byteSlice w).bytesBefore cut pos ↔
      8 + j * kMemSizePerByteSlice + pos < cut := by
    have hcount := lt_chunkCount_iff (n := cut - (8 + pos))
      (show 0 < kMemSizePerByteSlice by decide) (i := j)
    show j < min _ _ ↔ _
    omega
  unfold digit
  by_cases hlt : 8 + j * kMemSizePerByteSlice + pos < cut
  · have hover : overlay [old.byte j pos] [sent.byte j pos] = [sent.byte j pos] :=
      overlay_of_length_le (Nat.le_refl 1)
    rw [List.take_of_length_le (by rw [List.length_singleton]; omega), hover] at hbyte
    rw [if_pos (hbefore.mpr hlt), List.singleton_injective hbyte]
  · rw [Nat.sub_eq_zero_of_le (by omega), List.take_zero, overlay_nil] at hbyte
    rw [if_neg (fun hin => hlt (hbefore.mp hin)), List.singleton_injective hbyte]

/-- The padding is part of the last byte. -/
theorem getTuple_torn {sent old new : ByteSliceColumnBlock w .kRight} {cut : Nat}
    (himage : new.image = overlay old.image (sent.image.take cut)) {pos : Nat}
    (hpos : pos < kNumTuplesPerBlock) :
    (new.getTuple pos).toNat =
      (BlockKind.byteSlice w).mix ((BlockKind.byteSlice w).bytesBefore cut pos)
        (sent.getTuple pos).toNat (old.getTuple pos).toNat := by
  let count := (BlockKind.byteSlice w).bytesBefore cut pos
  have hcount : count ≤ kNumBytesPerCode w := Nat.min_le_left _ _
  rw [← kMemSizePerByteSlice_eq] at hpos
  have hstored : new.stored pos =
      sent.stored pos / 256 ^ (kNumBytesPerCode w - count) * 256 ^ (kNumBytesPerCode w - count) +
        old.stored pos % 256 ^ (kNumBytesPerCode w - count) := by
    unfold stored
    rw [← prefixValue_ite (sent.digit_lt pos) (old.digit_lt pos) hcount]
    exact prefixValue_congr fun j hj => digit_torn himage hj hpos
  rw [toNat_getTuple, toNat_getTuple, toNat_getTuple, hstored]
  show _ = sent.stored pos / 2 ^ kNumPaddingBits w / 2 ^ (8 * (kNumBytesPerCode w - count) -
    kNumPaddingBits w) * 2 ^ (8 * (kNumBytesPerCode w - count) - kNumPaddingBits w) + _
  have hpad := kNumPaddingBits_le w
  rcases Nat.eq_zero_or_pos (kNumBytesPerCode w - count) with hall | hsome
  · rw [hall, Nat.mul_zero, Nat.zero_sub, Nat.pow_zero, Nat.div_one, Nat.mul_one, Nat.mod_one,
      Nat.add_zero, Nat.pow_zero, Nat.div_one, Nat.mul_one, Nat.mod_one, Nat.add_zero]
  · have hsplit : 256 ^ (kNumBytesPerCode w - count) = 2 ^ kNumPaddingBits w *
        2 ^ (8 * (kNumBytesPerCode w - count) - kNumPaddingBits w) := by
      rw [show 256 = 2 ^ 8 from rfl, ← Nat.pow_mul, ← Nat.pow_add]
      congr 1
      omega
    rw [hsplit]
    exact div_of_switched (Nat.two_pow_pos _) _ _

end ByteSliceColumnBlock

/-- A block overlaid with the part of another block of its class that had been written. -/
theorem ColumnBlock.getTuple_torn {kind : BlockKind} {sent old new : ColumnBlock} {cut : Nat}
    (hsent : sent.kind = kind) (hold : old.kind = kind) (hnew : new.kind = kind)
    (himage : new.image = overlay old.image (sent.image.take cut)) {pos : Nat}
    (hpos : pos < kNumTuplesPerBlock) :
    (new.getTuple pos).toNat =
      kind.mix (kind.bytesBefore cut pos) (sent.getTuple pos).toNat (old.getTuple pos).toNat := by
  cases kind with
  | naive dt =>
      obtain ⟨sent, rfl⟩ := exists_naive hsent
      obtain ⟨old, rfl⟩ := exists_naive hold
      obtain ⟨new, rfl⟩ := exists_naive hnew
      exact NaiveColumnBlock.getTuple_torn himage hpos
  | byteSlice w =>
      obtain ⟨sent, rfl⟩ := exists_byteSlice hsent
      obtain ⟨old, rfl⟩ := exists_byteSlice hold
      obtain ⟨new, rfl⟩ := exists_byteSlice hnew
      exact ByteSliceColumnBlock.getTuple_torn himage hpos

/-- The size that a block records is a mixture, too: eight bytes, of which those before the
cut are the sender's. -/
theorem ColumnBlock.numTuples_torn {sent old new : ColumnBlock} {cut : Nat}
    (hsent : sent.numTuples < 2 ^ 64) (hold : old.numTuples < 2 ^ 64)
    (hnew : new.numTuples < 2 ^ 64)
    (himage : new.image = overlay old.image (sent.image.take cut)) :
    new.numTuples =
      numberOf (overlay (bytesOf 8 old.numTuples) ((bytesOf 8 sent.numTuples).take cut)) := by
  rw [← numberOf_image hnew, himage, take_overlay, take_image hold, ← overlay_take,
    length_bytesOf, List.take_take, Nat.min_comm, ← List.take_take, take_image hsent]

/-- Of the bytes of the file, those at the place of a block go over it, as far as they come. -/
theorem Column.Stores.image_torn {kind : BlockKind} {sender : Column} {n cut : Nat}
    {content : Nat → Nat} (hs : sender.Stores kind n content) {i : Nat} {old new : ColumnBlock}
    (hkind : old.kind = kind)
    (himage : new.image = overlay old.image ((sender.image.take cut).drop (i * kind.imageSize))) :
    (i < chunkCount kNumTuplesPerBlock n ∧ ∃ sent, sender.blocks[i]? = some sent ∧
      sent.kind = kind ∧
        new.image = overlay old.image (sent.image.take (cut - i * kind.imageSize))) ∨
      (¬ i < chunkCount kNumTuplesPerBlock n ∧ new.image = old.image) := by
  have hkinds : ∀ block ∈ sender.blocks, block.kind = kind := fun block hmem =>
    (hs.uniform block hmem).1
  have hlen : sender.blocks.length = chunkCount kNumTuplesPerBlock n := by
    rw [hs.laidOut.length_blocks, hs.num_eq]
  rw [List.drop_take] at himage
  by_cases hin : i < chunkCount kNumTuplesPerBlock n
  · have hsent := List.getElem?_eq_getElem (hlen.symm ▸ hin)
    refine Or.inl ⟨hin, _, hsent, hkinds _ (List.mem_of_getElem? hsent), ?_⟩
    rw [himage, ← overlay_take, ColumnBlock.length_image, hkind, List.take_take, Nat.min_comm,
      ← List.take_take, Column.take_drop_image hkinds hsent]
  · have hrest : sender.image.drop (i * kind.imageSize) = [] := by
      refine List.drop_of_length_le ?_
      rw [Column.length_image hkinds, hlen]
      exact Nat.mul_le_mul_right _ (Nat.not_lt.mp hin)
    refine Or.inr ⟨hin, ?_⟩
    rw [himage, hrest, List.take_nil, overlay_nil]

/-- **A torn write, tuple by tuple.**  The file of one column is cut off after any number of
bytes and read into a column of the same type and width, of any size.  In the blocks that
both columns have, every tuple that a block has room for becomes the mixture of both tuples
that the bytes written up to the cut determine, and the size that the block records mixes
in the same way; in the other blocks neither changes. -/
theorem torn_write (type : ColumnType) (bitWidth n n' : Nat) (kind : BlockKind)
    (hkind : Column.blockKind type bitWidth = some kind) (sender receiver : Column)
    (hsender : sender.Built type bitWidth n) (hreceiver : receiver.Built type bitWidth n')
    (cut : Nat) :
    let file := (sender.serToFile { written := [] }).written.take cut
    ∃ new, receiver.deserFromFile { unread := file } =
        (new, { unread := file.drop (chunkCount kNumTuplesPerBlock n' * kind.imageSize) }) ∧
      new.numTuples = n' ∧ new.blocks.length = receiver.blocks.length ∧
      (∀ i old block, receiver.blocks[i]? = some old → new.blocks[i]? = some block →
        block.numTuples = if i < chunkCount kNumTuplesPerBlock n then
          numberOf (overlay (bytesOf 8 old.numTuples)
            ((bytesOf 8 (chunkSize kNumTuplesPerBlock n i)).take (cut - i * kind.imageSize)))
          else old.numTuples) ∧
      ∀ id, id / kNumTuplesPerBlock < chunkCount kNumTuplesPerBlock n' →
        ∃ result, new.getTuple id = some result ∧ result.toNat =
          if id / kNumTuplesPerBlock < chunkCount kNumTuplesPerBlock n then
            kind.mix (kind.bytesBefore (cut - id / kNumTuplesPerBlock * kind.imageSize)
              (id % kNumTuplesPerBlock)) (sender.tuple id) (receiver.tuple id)
          else receiver.tuple id := by
  intro file
  have hs := hsender.stores hkind
  have hr := hreceiver.stores hkind
  have hkinds : ∀ block ∈ receiver.blocks, block.kind = kind := fun block hmem =>
    (hr.uniform block hmem).1
  have hlen : receiver.blocks.length = chunkCount kNumTuplesPerBlock n' := by
    rw [hr.laidOut.length_blocks, hr.num_eq]
  have hfile : file = sender.image.take cut :=
    congrArg (List.take cut) (sender.written_serToFile { written := [] })
  obtain ⟨new, hread, hkeeps, hnewKinds, himages⟩ := Column.exists_readInto hkinds file
  rw [hlen] at hread
  rw [hfile] at himages
  refine ⟨new, hread, hkeeps.numTuples_eq.trans hr.num_eq, hkeeps.blocks.length_eq.symm,
    fun i old block hold hblock => ?_, fun id hid => ?_⟩
  · have hlt := (hr.numTuples_block hold).2
    have hlt' := hkeeps.numTuples_lt hblock
    have hkind := hkinds _ (List.mem_of_getElem? hold)
    rcases hs.image_torn hkind (himages i old block hold hblock) with
      ⟨hin, sent, hsent, -, himage⟩ | ⟨hout, himage⟩
    · obtain ⟨hsize, hsentLt⟩ := hs.numTuples_block hsent
      rw [if_pos hin, ← hsize]
      exact ColumnBlock.numTuples_torn hsentLt hlt hlt' himage
    · rw [if_neg hout, ← ColumnBlock.numberOf_image hlt', himage, ColumnBlock.numberOf_image hlt]
  · have hpos := Nat.mod_lt id kNumTuplesPerBlock_pos
    have hi : id / kNumTuplesPerBlock < receiver.blocks.length := by rw [hlen]; exact hid
    have hi' : id / kNumTuplesPerBlock < new.blocks.length := by
      rw [← hkeeps.blocks.length_eq]
      exact hi
    have hold := List.getElem?_eq_getElem hi
    have hnew := List.getElem?_eq_getElem hi'
    have hkind := hkinds _ (List.getElem_mem hi)
    have hkind' := hnewKinds _ (List.getElem_mem hi')
    refine ⟨_, readAt_of_block hnew, ?_⟩
    rcases hs.image_torn hkind (himages _ _ _ hold hnew) with
      ⟨hin, sent, hsent, hsentKind, himage⟩ | ⟨hout, himage⟩
    · rw [if_pos hin, Column.tuple_eq_of_block hsent, Column.tuple_eq_of_block hold]
      exact ColumnBlock.getTuple_torn hsentKind hkind hkind' himage hpos
    -- a block that nothing is read into is mixed with itself
    · have hself : new.blocks[id / kNumTuplesPerBlock].image =
          overlay receiver.blocks[id / kNumTuplesPerBlock].image
            (receiver.blocks[id / kNumTuplesPerBlock].image.take 0) := by
        rw [himage, List.take_zero, overlay_nil]
      rw [if_neg hout, Column.tuple_eq_of_block hold,
        ColumnBlock.getTuple_torn hkind hkind hkind' hself hpos, kind.mix_self]

/-- Cut off after the first slice, the code `2047` read over the code `0` becomes `2040`: its
last three bits were to come in the second slice. -/
theorem torn_write_first_slice :
    ∃ start sender receiver new result, Column.new .kByteSlicePadRight 11 3 = some start ∧
      start.setTuple 1 2047#64 = some sender ∧ start.setTuple 1 0#64 = some receiver ∧
      (receiver.deserFromFile { unread :=
        (sender.serToFile { written := [] }).written.take (8 + kMemSizePerByteSlice) }).1 = new ∧
      new.getTuple 1 = some result ∧ result.toNat = 2040 := by
  have hkind : Column.blockKind .kByteSlicePadRight 11 =
      some (.byteSlice ⟨11, by decide, by decide⟩) := rfl
  obtain ⟨start, hnew, hstores⟩ := Column.exists_new hkind 3
  obtain ⟨sender, hsend, hs⟩ := hstores.exists_setTuple (show 1 < 3 by decide) 2047#64
  obtain ⟨receiver, hreceive, hr⟩ := hstores.exists_setTuple (show 1 < 3 by decide) 0#64
  have hbuilt := Column.built_new hnew
  have hone : (1 : Nat) / kNumTuplesPerBlock < chunkCount kNumTuplesPerBlock 3 :=
    div_lt_chunkCount kNumTuplesPerBlock_pos (by decide)
  obtain ⟨new, hread, _, _, _, htuples⟩ := torn_write .kByteSlicePadRight 11 3 3 _ hkind sender
    receiver (hbuilt.exec (.setTuple 1 2047#64) (show 1 < 3 by decide) hsend)
    (hbuilt.exec (.setTuple 1 0#64) (show 1 < 3 by decide) hreceive) (8 + kMemSizePerByteSlice)
  obtain ⟨result, hresult, hvalue⟩ := htuples 1 hone
  refine ⟨start, sender, receiver, new, result, hnew, hsend, hreceive, congrArg Prod.fst hread,
    hresult, hvalue.trans ?_⟩
  have hslices : chunkCount kMemSizePerByteSlice (8 + kMemSizePerByteSlice - 9) = 1 :=
    chunkCount_eq_succ (by decide) (by decide) (by decide)
  have hbefore : (BlockKind.byteSlice ⟨11, by decide, by decide⟩).bytesBefore
      (8 + kMemSizePerByteSlice) 1 = 1 := by
    show min 2 (chunkCount kMemSizePerByteSlice (8 + kMemSizePerByteSlice - 9)) = 1
    rw [hslices]
    rfl
  have hsent : sender.tuple 1 = 2047 :=
    (hs.tuple_eq 1 (by decide)).trans (Function.update_self _ _ _)
  have hold : receiver.tuple 1 = 0 :=
    (hr.tuple_eq 1 (by decide)).trans (Function.update_self _ _ _)
  rw [if_pos hone, hsent, hold]
  exact congrArg (fun count => BlockKind.mix _ count 2047 0) hbefore

end ByteSlice
