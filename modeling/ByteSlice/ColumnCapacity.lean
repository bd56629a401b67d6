import Mathlib
import ByteSlice.ColumnRuns

/-!
# The capacity of a column

The two slips of `Resize` leave block sizes that do not fit `num_tuples_`.  They are
still block sizes of some column: at any time the blocks are cut as for `capacity`
tuples, which may be fewer than the size (a skipped correction) or more (a block too
many).  This module follows size, capacity and content through arbitrary runs of writes
and resizes, and says what such a run leaves behind.

`ColumnState` is the abstract machine.  Its content covers all places of the blocks,
also those behind the size, because a later growth brings them back.
-/

namespace ByteSlice

open Foundation

/-- What a column is, apart from how it is stored. -/
structure ColumnState where
  size : Nat
  capacity : Nat
  content : Nat → Nat

namespace ColumnState

/-- The capacity after a resize.  Blocks that are added are cut as intended; otherwise a
multiple of the block size leaves the last block as it is, and a shrink across a block
boundary leaves one block more than are needed. -/
def capacityAfter (capacity num : Nat) : Nat :=
  if chunkCount kNumTuplesPerBlock capacity < chunkCount kNumTuplesPerBlock num then num
  else if chunkCount kNumTuplesPerBlock num = chunkCount kNumTuplesPerBlock capacity then
    if num % kNumTuplesPerBlock = 0 then capacity else num
  else if num % kNumTuplesPerBlock = 0 then min capacity (num + kNumTuplesPerBlock)
  else num + kNumTuplesPerBlock

def start (kind : BlockKind) (n : Nat) : ColumnState where
  size := n
  capacity := n
  content := fun _ => kind.blank

/-- A resize forgets the content of the places whose block it removed. -/
def next (kind : BlockKind) (s : ColumnState) : ColumnOp → ColumnState
  | .write op => { s with content := op.onContent kind.bits s.content }
  | .resize num =>
      { size := num
        capacity := capacityAfter s.capacity num
        content := fun id =>
          if id / kNumTuplesPerBlock < chunkCount kNumTuplesPerBlock s.capacity then s.content id
          else kind.blank }

/-- Single writes into a present block, bulk loads within the capacity, and resizes to
a positive size. -/
def Admits (s : ColumnState) : ColumnOp → Prop
  | .write (.setTuple id _) =>
      id / kNumTuplesPerBlock < chunkCount kNumTuplesPerBlock s.capacity
  | .write (.bulkLoadArray _ num pos) => pos + num ≤ s.capacity
  | .resize num => 1 ≤ num

/-- The states that runs reach: the blocks present are those that the size needs, and
one more at most; with no block more, the capacity is the size, or the size is a
multiple of the block size and the capacity is below it. -/
structure WellSized (s : ColumnState) : Prop where
  size_pos : 0 < s.size
  capacity_pos : 0 < s.capacity
  count_cases :
    chunkCount kNumTuplesPerBlock s.capacity = chunkCount kNumTuplesPerBlock s.size ∧
        (s.capacity = s.size ∨ s.size % kNumTuplesPerBlock = 0 ∧ s.capacity < s.size) ∨
      chunkCount kNumTuplesPerBlock s.capacity = chunkCount kNumTuplesPerBlock s.size + 1

/-- A positive number between two multiples of the block size, the upper one included. -/
theorem exists_count {num : Nat} (hnum : 0 < num) :
    ∃ i, chunkCount kNumTuplesPerBlock num = i + 1 ∧ i * kNumTuplesPerBlock < num ∧
      num ≤ i * kNumTuplesPerBlock + kNumTuplesPerBlock := by
  obtain ⟨i, hi⟩ := Nat.exists_eq_succ_of_ne_zero (chunkCount_pos kNumTuplesPerBlock_pos hnum).ne'
  have hhigh : ¬ i + 1 < chunkCount kNumTuplesPerBlock num := by omega
  rw [lt_chunkCount_iff kNumTuplesPerBlock_pos, Nat.succ_mul] at hhigh
  exact ⟨i, hi, (lt_chunkCount_iff kNumTuplesPerBlock_pos).mp (by omega), by omega⟩

/-- A positive multiple of the block size fills its blocks. -/
theorem mul_count_of_mod_eq_zero {num : Nat} (hnum : 0 < num)
    (hmod : num % kNumTuplesPerBlock = 0) :
    num = chunkCount kNumTuplesPerBlock num * kNumTuplesPerBlock := by
  obtain ⟨i, hcount, hlow, hhigh⟩ := exists_count hnum
  obtain ⟨k, hk⟩ := Nat.dvd_of_mod_eq_zero hmod
  rw [Nat.mul_comm] at hk
  have hlt : i < k := by
    rw [hk] at hlow
    exact Nat.lt_of_mul_lt_mul_right hlow
  have hle : k ≤ i + 1 := by
    rw [hk, ← Nat.succ_mul] at hhigh
    exact Nat.le_of_mul_le_mul_right hhigh kNumTuplesPerBlock_pos
  rw [hcount, hk, show k = i + 1 by omega]

/-- The number of blocks after a resize: as many as are needed, or one more. -/
theorem count_capacityAfter {capacity num : Nat} (hnum : 0 < num) :
    chunkCount kNumTuplesPerBlock (capacityAfter capacity num) =
      if chunkCount kNumTuplesPerBlock num < chunkCount kNumTuplesPerBlock capacity then
        chunkCount kNumTuplesPerBlock num + 1
      else chunkCount kNumTuplesPerBlock num := by
  unfold capacityAfter
  by_cases hgrow : chunkCount kNumTuplesPerBlock capacity < chunkCount kNumTuplesPerBlock num
  · rw [if_pos hgrow, if_neg (by omega)]
  · rw [if_neg hgrow]
    by_cases hsame : chunkCount kNumTuplesPerBlock num = chunkCount kNumTuplesPerBlock capacity
    · rw [if_pos hsame, if_neg hsame.not_lt]
      split
      · exact hsame.symm
      · rfl
    · have hshrink : chunkCount kNumTuplesPerBlock num < chunkCount kNumTuplesPerBlock capacity :=
        by omega
      rw [if_neg hsame, if_pos hshrink]
      obtain ⟨i, hcount, hlow, hhigh⟩ := exists_count hnum
      have hmore := (lt_chunkCount_iff kNumTuplesPerBlock_pos).mp hshrink
      rw [hcount, Nat.succ_mul] at hmore
      -- in both cases the new capacity ends in the block after those that are needed
      rw [hcount]
      split
      · rename_i hmod
        have hmul := mul_count_of_mod_eq_zero hnum hmod
        rw [hcount, Nat.succ_mul] at hmul
        refine chunkCount_eq_succ kNumTuplesPerBlock_pos ?_ ?_
        · rw [Nat.succ_mul]
          omega
        · rw [Nat.succ_mul, Nat.succ_mul]
          omega
      · refine chunkCount_eq_succ kNumTuplesPerBlock_pos ?_ ?_
        · rw [Nat.succ_mul]
          omega
        · rw [Nat.succ_mul, Nat.succ_mul]
          omega

theorem capacityAfter_pos {capacity num : Nat} (hcapacity : 0 < capacity) (hnum : 0 < num) :
    0 < capacityAfter capacity num := by
  have hpos := kNumTuplesPerBlock_pos
  unfold capacityAfter
  split
  · exact hnum
  · split
    · split
      · exact hcapacity
      · exact hnum
    · split <;> omega

/-- The skipped correction: five tuples grown to a full block. -/
theorem capacityAfter_five : capacityAfter 5 1048576 = 5 := by
  have hone : chunkCount kNumTuplesPerBlock 5 = 1 :=
    chunkCount_eq_succ kNumTuplesPerBlock_pos (by decide) (by decide)
  have hsame : chunkCount kNumTuplesPerBlock 1048576 = 1 :=
    chunkCount_eq_succ kNumTuplesPerBlock_pos (by decide) (by decide)
  unfold capacityAfter
  rw [hone, hsame, if_neg (Nat.lt_irrefl 1), if_pos rfl, if_pos (by decide)]

theorem wellSized_start (kind : BlockKind) {n : Nat} (hn : 1 ≤ n) : (start kind n).WellSized :=
  ⟨hn, hn, Or.inl ⟨rfl, Or.inl rfl⟩⟩

/-- Every operation keeps the state well sized. -/
theorem WellSized.next {s : ColumnState} (h : s.WellSized) {kind : BlockKind} {op : ColumnOp}
    (hop : s.Admits op) : (s.next kind op).WellSized := by
  match op, hop with
  | .write op, _ => exact ⟨h.size_pos, h.capacity_pos, h.count_cases⟩
  | .resize num, hnum =>
      have hcount := @count_capacityAfter s.capacity num hnum
      refine ⟨hnum, capacityAfter_pos h.capacity_pos hnum, ?_⟩
      show chunkCount kNumTuplesPerBlock (capacityAfter s.capacity num) =
            chunkCount kNumTuplesPerBlock num ∧
          (capacityAfter s.capacity num = num ∨
            num % kNumTuplesPerBlock = 0 ∧ capacityAfter s.capacity num < num) ∨
        chunkCount kNumTuplesPerBlock (capacityAfter s.capacity num) =
          chunkCount kNumTuplesPerBlock num + 1
      by_cases hshrink : chunkCount kNumTuplesPerBlock num <
          chunkCount kNumTuplesPerBlock s.capacity
      · rw [if_pos hshrink] at hcount
        exact Or.inr hcount
      · rw [if_neg hshrink] at hcount
        refine Or.inl ⟨hcount, ?_⟩
        unfold capacityAfter
        by_cases hgrow : chunkCount kNumTuplesPerBlock s.capacity <
            chunkCount kNumTuplesPerBlock num
        · exact Or.inl (if_pos hgrow)
        · rw [if_neg hgrow, if_pos (by omega)]
          by_cases hmod : num % kNumTuplesPerBlock = 0
          · -- the capacity stays, and does not exceed the blocks, which the size fills
            rw [if_pos hmod]
            obtain ⟨i, hi, _, hhigh⟩ := exists_count h.capacity_pos
            have hmul := mul_count_of_mod_eq_zero hnum hmod
            rw [show chunkCount kNumTuplesPerBlock num = i + 1 by omega, Nat.succ_mul] at hmul
            rcases Nat.lt_or_ge s.capacity num with hlt | hge
            · exact Or.inr ⟨hmod, hlt⟩
            · exact Or.inl (by omega)
          · exact Or.inl (if_neg hmod)

end ColumnState

namespace Column

open ColumnState

/-! ## The blocks after a resize -/

/-- The correction of the last block makes the layout right for a size that has the same
remainder and needs the blocks present. -/
theorem laidOut_setLast {blocks : List ColumnBlock} (hfull : FullButLast blocks)
    {last : ColumnBlock} (hlast : blocks[blocks.length - 1]? = some last) {n : Nat}
    (hcount : blocks.length = chunkCount kNumTuplesPerBlock n)
    (hmod : 0 < n % kNumTuplesPerBlock) :
    Foundation.LaidOut kNumTuplesPerBlock ColumnBlock.numTuples n
      (blocks.set (blocks.length - 1) (last.resize (n % kNumTuplesPerBlock))) := by
  obtain ⟨out, hout, hiff⟩ := exists_correctLast hcount hfull hlast
  rw [correctLast_eq n hlast, if_pos hmod] at hout
  rw [Option.some.inj hout]
  exact hiff.mpr (Or.inl hmod)

/-- **The step of the layout.** -/
theorem laidOut_resize {c c' : Column} {kind : BlockKind}
    (hkind : blockKind c.type c.bitWidth = some kind) {capacity num : Nat}
    (hcapacity : 0 < capacity)
    (hlaid : Foundation.LaidOut kNumTuplesPerBlock ColumnBlock.numTuples capacity c.blocks)
    (hnum : 0 < num) (hresize : c.resize num = some c') :
    Foundation.LaidOut kNumTuplesPerBlock ColumnBlock.numTuples (capacityAfter capacity num)
      c'.blocks := by
  have hlen := hlaid.length_blocks
  have hpos : 0 < c.blocks.length := by
    rw [hlen]
    exact chunkCount_pos kNumTuplesPerBlock_pos hcapacity
  have hfull : FullButLast c.blocks := fun i block hi hblock =>
    hlaid.size_of_succ_lt kNumTuplesPerBlock_pos hi hblock
  unfold capacityAfter
  rcases Nat.lt_or_ge (chunkCount kNumTuplesPerBlock capacity)
    (chunkCount kNumTuplesPerBlock num) with hgrow | hle
  · rw [if_pos hgrow]
    obtain ⟨blocks, hadjust, hcount, hall⟩ :=
      exists_adjustBlocks_grow hfull hkind hpos hnum (hlen ▸ hgrow)
    obtain ⟨last, hlast⟩ : ∃ last, blocks[blocks.length - 1]? = some last := exists_back (by omega)
    obtain ⟨out, hout, hiff⟩ := exists_correctLast hcount (fun i block _ => hall i block) hlast
    rw [resize_of_adjustBlocks hadjust hout] at hresize
    rw [← Option.some.inj hresize]
    exact hiff.mpr (Or.inr (hall _ last hlast))
  · rw [if_neg hle.not_gt]
    -- the blocks that stay, before the correction
    let need := chunkCount kNumTuplesPerBlock num
    let kept := c.blocks.take (need + 1)
    have hadjust : c.adjustBlocks num = some kept := adjustBlocks_of_le hnum (hlen ▸ hle)
    have hkept := hlaid.take kNumTuplesPerBlock_pos (need + 1)
    have hkeptLen : kept.length = min (need + 1) c.blocks.length := List.length_take
    obtain ⟨last, hlast⟩ : ∃ last, kept[kept.length - 1]? = some last := exists_back (by omega)
    rw [resize_of_adjustBlocks hadjust (correctLast_eq num hlast)] at hresize
    rw [← Option.some.inj hresize]
    dsimp only
    by_cases hmod : num % kNumTuplesPerBlock = 0
    · -- nothing is corrected
      rw [if_neg (show ¬ 0 < num % kNumTuplesPerBlock by omega), if_pos hmod]
      by_cases hsame : need = chunkCount kNumTuplesPerBlock capacity
      · obtain ⟨i, hi, _, hhigh⟩ := exists_count hcapacity
        have hall : min capacity ((need + 1) * kNumTuplesPerBlock) = capacity := by
          rw [hsame, hi, Nat.succ_mul, Nat.succ_mul]
          omega
        rw [if_pos hsame]
        rw [hall] at hkept
        exact hkept
      · have hmul : (need + 1) * kNumTuplesPerBlock = num + kNumTuplesPerBlock := by
          rw [Nat.succ_mul, ← mul_count_of_mod_eq_zero hnum hmod]
        rw [if_neg hsame, if_pos hmod]
        rw [hmul] at hkept
        exact hkept
    · have hrest : 0 < num % kNumTuplesPerBlock := Nat.pos_of_ne_zero hmod
      have hkeptFull : FullButLast kept := hfull.take _
      rw [if_pos hrest, if_neg hmod]
      by_cases hsame : need = chunkCount kNumTuplesPerBlock capacity
      · rw [if_pos hsame]
        exact laidOut_setLast hkeptFull hlast (by omega) hrest
      · -- one block more: the last one gets the remainder, which is that of one block more
        have hcount := @count_capacityAfter capacity num hnum
        unfold capacityAfter at hcount
        rw [if_neg hle.not_gt, if_neg hsame, if_neg hmod,
          if_pos (show need < chunkCount kNumTuplesPerBlock capacity by omega)] at hcount
        rw [if_neg hsame, if_neg hmod]
        have hmod' : (num + kNumTuplesPerBlock) % kNumTuplesPerBlock = num % kNumTuplesPerBlock :=
          Nat.add_mod_right _ _
        rw [← hmod'] at hrest ⊢
        exact laidOut_setLast hkeptFull hlast (by omega) hrest

/-! ## Runs -/

/-- The invariant: the column is the state's, block by block. -/
structure Follows (kind : BlockKind) (c : Column) (s : ColumnState) : Prop where
  kind_eq : blockKind c.type c.bitWidth = some kind
  num_eq : c.numTuples = s.size
  wellSized : s.WellSized
  laidOut : Foundation.LaidOut kNumTuplesPerBlock ColumnBlock.numTuples s.capacity c.blocks
  uniform : Uniform kind c.blocks
  tuple_eq : ∀ id, id / kNumTuplesPerBlock < c.blocks.length → c.tuple id = s.content id

theorem follows_new {type : ColumnType} {bitWidth n : Nat} {kind : BlockKind} {c : Column}
    (hkind : blockKind type bitWidth = some kind) (hnew : new type bitWidth n = some c)
    (hn : 1 ≤ n) : Follows kind c (ColumnState.start kind n) := by
  have hstores := stores_of_new hkind hnew
  refine ⟨(blockKind_of_new hnew).trans hkind, hstores.num_eq, wellSized_start kind hn, ?_,
    hstores.uniform, fun id hid => ?_⟩
  · have hlaid := hstores.laidOut
    rw [LaidOut, hstores.num_eq] at hlaid
    exact hlaid
  · have hblock := List.getElem?_eq_getElem hid
    obtain ⟨size, hsize⟩ := eq_resize_of_new hkind hnew (List.mem_of_getElem? hblock)
    rw [tuple_eq_of_block hblock, hsize, ColumnBlock.getTuple_resize]
    exact ColumnBlock.toNat_getTuple_new _ _ (Nat.mod_lt _ kNumTuplesPerBlock_pos)

namespace Follows

variable {kind : BlockKind} {c : Column} {s : ColumnState}

/-- Every place of the blocks reads as the state's content. -/
theorem exists_getTuple (h : Follows kind c s) {id : Nat}
    (hid : id / kNumTuplesPerBlock < chunkCount kNumTuplesPerBlock s.capacity) :
    ∃ result, c.getTuple id = some result ∧ result.toNat = s.content id := by
  rw [← h.laidOut.length_blocks] at hid
  have hblock := List.getElem?_eq_getElem hid
  refine ⟨_, readAt_of_block hblock, ?_⟩
  rw [← tuple_eq_of_block hblock]
  exact h.tuple_eq id hid

theorem exists_setTuple (h : Follows kind c s) {id : Nat}
    (hid : id / kNumTuplesPerBlock < chunkCount kNumTuplesPerBlock s.capacity)
    (value : WordUnit) :
    ∃ c', c.setTuple id value = some c' ∧
      Follows kind c' { s with
        content := Function.update s.content id (value.toNat % 2 ^ kind.bits) } := by
  rw [← h.laidOut.length_blocks] at hid
  have hblock := List.getElem?_eq_getElem hid
  obtain ⟨hset, huniform, htuple⟩ := setTuple_of_block h.uniform hblock value
  refine ⟨_, hset, h.kind_eq, h.num_eq,
    ⟨h.wellSized.size_pos, h.wellSized.capacity_pos, h.wellSized.count_cases⟩,
    h.laidOut.set hblock (ColumnBlock.numTuples_setTuple _ _ _), huniform, fun id' hid' => ?_⟩
  rw [List.length_set] at hid'
  rw [htuple, h.tuple_eq id' hid']
  exact (Function.update_apply s.content id _ id').symm

/-- Single writes into present blocks. -/
theorem exists_setTuples (h : Follows kind c s) (codes : Nat → WordUnit) {num pos : Nat}
    (hrange : pos + num ≤ chunkCount kNumTuplesPerBlock s.capacity * kNumTuplesPerBlock) :
    ∃ c', c.setTuples codes num pos = some c' ∧
      Follows kind c' { s with content := loaded codes num pos kind.bits s.content } := by
  have hinside : AdmissibleRun
      (fun _ k => (pos + k) / kNumTuplesPerBlock < chunkCount kNumTuplesPerBlock s.capacity)
      (fun content k => Function.update content (pos + k) ((codes k).toNat % 2 ^ kind.bits))
      s.content (List.range num) := by
    refine admissibleRun_of_forall (fun k hk _ => ?_) s.content
    have hlt := List.mem_range.mp hk
    exact Nat.div_lt_of_lt_mul (by rw [Nat.mul_comm]; omega)
  rw [← foldl_update_eq_loaded]
  exact runOps_simulates (fun c content => Follows kind c { s with content := content })
    (fun _ _ k hc
        (hk : (pos + k) / kNumTuplesPerBlock < chunkCount kNumTuplesPerBlock s.capacity) =>
      hc.exists_setTuple hk (codes k)) h hinside

theorem exists_bulkLoadArray (h : Follows kind c s) (codes : Nat → WordUnit) {num pos : Nat}
    (hrange : pos + num ≤ s.capacity) :
    ∃ c', c.bulkLoadArray codes num pos = some c' ∧
      Follows kind c' { s with content := loaded codes num pos kind.bits s.content } := by
  rw [bulkLoadArray_eq_setTuples h.laidOut codes hrange]
  exact h.exists_setTuples codes (hrange.trans (le_chunkCount_mul kNumTuplesPerBlock_pos))

theorem exists_resize (h : Follows kind c s) {num : Nat} (hnum : 1 ≤ num) :
    ∃ c', c.resize num = some c' ∧ Follows kind c' (s.next kind (.resize num)) := by
  have hlen := h.laidOut.length_blocks
  have hpos : 0 < c.blocks.length := by
    rw [hlen]
    exact chunkCount_pos kNumTuplesPerBlock_pos h.wellSized.capacity_pos
  obtain ⟨blocks, hresize, hresized⟩ := Column.exists_resize h.kind_eq hpos hnum
  have hsized : (s.next kind (.resize num)).WellSized := h.wellSized.next hnum
  refine ⟨_, hresize, h.kind_eq, rfl, hsized,
    laidOut_resize h.kind_eq h.wellSized.capacity_pos h.laidOut hnum hresize,
    hresized.resizedFrom.uniform h.uniform, fun id hid => ?_⟩
  rw [tuple_of_resizedFrom hresized.resizedFrom hid, hlen]
  show _ = if id / kNumTuplesPerBlock < chunkCount kNumTuplesPerBlock s.capacity then s.content id
    else kind.blank
  by_cases hold : id / kNumTuplesPerBlock < chunkCount kNumTuplesPerBlock s.capacity
  · rw [if_pos hold, if_pos hold, h.tuple_eq id (hlen ▸ hold)]
  · rw [if_neg hold, if_neg hold]
    exact ColumnBlock.toNat_getTuple_new _ _ (Nat.mod_lt _ kNumTuplesPerBlock_pos)

/-- The step lemma. -/
theorem exists_exec (h : Follows kind c s) (op : ColumnOp) (hop : s.Admits op) :
    ∃ c', op.exec c = some c' ∧ Follows kind c' (s.next kind op) := by
  match op, hop with
  | .write (.setTuple id value), hid => exact h.exists_setTuple hid value
  | .write (.bulkLoadArray codes num pos), hrange => exact h.exists_bulkLoadArray codes hrange
  | .resize num, hnum => exact h.exists_resize hnum

/-- The run lemma. -/
theorem exists_runOps (h : Follows kind c s) {ops : List ColumnOp}
    (hops : AdmissibleRun ColumnState.Admits (ColumnState.next kind) s ops) :
    ∃ c', runOps ColumnOp.exec c ops = some c' ∧
      Follows kind c' (ops.foldl (ColumnState.next kind) s) :=
  runOps_simulates (Follows kind) (fun _ _ op hc hop => hc.exists_exec op hop) h hops

end Follows

end Column

/-! ## Scans of a column with another capacity -/

/-- Whether a scan compares a place of a scanned word.  The plain array stops at its last
tuple, the byte slices are compared in full. -/
def BlockKind.compares (inside : Bool) : BlockKind → Bool
  | .naive _ => inside
  | .byteSlice _ => true

/-- The word of a place starts inside its block as it does inside the capacity. -/
theorem word_lt_chunkSize_iff {capacity i p : Nat} (hp : p < kNumTuplesPerBlock) :
    p / 64 * 64 < chunkSize kNumTuplesPerBlock capacity i ↔
      (i * kNumTuplesPerBlock + p) / 64 * 64 < capacity := by
  unfold chunkSize
  rw [kNumTuplesPerBlock_eq] at hp ⊢
  omega

/-- The scan of a block into a bit vector block of any size. -/
theorem ColumnBlock.getBit_scan_of_lt {block : ColumnBlock} (hsound : block.Sound)
    (cmp : Comparator) (literal : WordUnit) (opt : Bitwise) {bvBlock : BitVectorBlock} {p : Nat}
    (hp : p < bvBlock.num) :
    (block.scan cmp literal bvBlock opt).getBit p =
      if p / 64 * 64 < block.numTuples then
        opt.apply (bvBlock.getBit p) (block.kind.compares (decide (p < block.numTuples)) &&
          cmp.holds (block.getTuple p).toNat (literal.toNat % 2 ^ block.kind.bits))
      else bvBlock.getBit p := by
  have hword : p / 64 < kNumWordsPerBlock := by
    have hunits := bvBlock.num_le_numWordUnits
    exact BitVectorBlock.word_lt_of_lt (b := bvBlock) (by omega)
  cases block with
  | naive dt b =>
      refine (NaiveColumnBlock.getBit_scanHelper2_eq cmp opt b _ bvBlock hword).trans ?_
      rw [BitVec.toNat_setWidth]
      rfl
  | byteSlice w b =>
      have hle : p < kNumTuplesPerBlock := hp.trans_le bvBlock.num_le
      have hscan := ByteSliceColumnBlock.getBit_scanHelper2_of_lt cmp opt b
        (ByteSliceColumnBlock.operandDigits_maskLiteral w literal) hp
      rw [ByteSliceColumnBlock.PaddingClean.stored_eq hsound hle,
        ByteSliceColumnBlock.prefixValue_maskLiteral,
        ByteSliceColumnBlock.Comparator.holds_mul_right cmp (Nat.two_pow_pos _)] at hscan
      exact hscan

namespace Column.Follows

variable {kind : BlockKind} {c : Column} {s : ColumnState} {bv : BitVector}

/-- A scan whose blocks all have a bit vector block scans the words that hold tuples of the
capacity, and leaves the bits of the others alone. -/
theorem exists_scanIn (h : Follows kind c s)
    (hcount : chunkCount kNumTuplesPerBlock s.capacity = chunkCount kNumTuplesPerBlock s.size)
    (hlaid : bv.LaidOut) (hnum : bv.num = s.size) {order : List Nat}
    (horder : IsSchedule s.size order) (cmp : Comparator) (literal : WordUnit) (opt : Bitwise) :
    ∃ out, c.scanIn order cmp literal bv opt = some out ∧
      ∀ id, id < s.size → out.getBit id = some (if id / 64 * 64 < s.capacity then
        opt.apply (bv.bit id) (kind.compares (decide (id < s.capacity)) &&
          cmp.holds (s.content id) (literal.toNat % 2 ^ kind.bits))
        else bv.bit id) := by
  rw [← hnum] at horder hcount ⊢
  have hfind : ∀ (i : Nat) (bvBlock : BitVectorBlock), bv.blocks[i]? = some bvBlock →
      ∃ block : ColumnBlock, c.blocks[i]? = some block ∧
        ((c.blocks[i]?).map fun block => block.scan cmp literal bvBlock opt) =
          some (block.scan cmp literal bvBlock opt) := by
    intro i bvBlock hbvBlock
    have hlt : i < c.blocks.length := by
      rw [h.laidOut.length_blocks, hcount, ← hlaid.length_blocks]
      exact (List.getElem?_eq_some_iff.mp hbvBlock).1
    refine ⟨c.blocks[i], List.getElem?_eq_getElem hlt, ?_⟩
    rw [List.getElem?_eq_getElem hlt]
    rfl
  obtain ⟨out, hout, _, _, hblocks⟩ := BitVector.exists_forBlocks hlaid horder
    fun i bvBlock hbvBlock => by
      obtain ⟨block, _, hscan⟩ := hfind i bvBlock hbvBlock
      exact ⟨_, hscan, block.num_scan _ _ _ _⟩
  refine ⟨out, hout, fun id hid => ?_⟩
  -- the bit is written in the iteration of its block
  obtain ⟨bvBlock, hbvBlock, hp⟩ := hlaid.exists_block kNumTuplesPerBlock_pos hid
  obtain ⟨block, hblock, hscan⟩ := hfind _ bvBlock hbvBlock
  obtain ⟨new, hnew, _, hget⟩ := hblocks _ bvBlock hbvBlock
  obtain rfl := Option.some.inj (hscan.symm.trans hnew)
  obtain ⟨hkind, hsound⟩ := h.uniform block (List.mem_of_getElem? hblock)
  have hsize := h.laidOut.size_block _ block hblock
  have hpK : id % kNumTuplesPerBlock < kNumTuplesPerBlock := Nat.mod_lt _ kNumTuplesPerBlock_pos
  have hsplit := Nat.div_add_mod' id kNumTuplesPerBlock
  have hinside : id % kNumTuplesPerBlock < block.numTuples ↔ id < s.capacity := by
    rw [hsize, lt_chunkSize_iff hpK, hsplit]
  have hword : id % kNumTuplesPerBlock / 64 * 64 < block.numTuples ↔
      id / 64 * 64 < s.capacity := by
    rw [hsize, word_lt_chunkSize_iff hpK, hsplit]
  have hread : out.getBit id = some ((block.scan cmp literal bvBlock opt).getBit
      (id % kNumTuplesPerBlock)) := readAt_of_block hget
  have hcontent := h.tuple_eq id (List.getElem?_eq_some_iff.mp hblock).1
  rw [hread, ColumnBlock.getBit_scan_of_lt hsound cmp literal opt hp, hkind,
    decide_eq_decide.mpr hinside, BitVector.bit_eq_of_block hbvBlock, ← hcontent,
    tuple_eq_of_block hblock]
  by_cases hscanned : id % kNumTuplesPerBlock / 64 * 64 < block.numTuples
  · rw [if_pos hscanned, if_pos (hword.mp hscanned)]
  · rw [if_neg hscanned, if_neg fun hin => hscanned (hword.mpr hin)]

end Column.Follows

/-- **Size, capacity and content of every run.**  From every column that the constructor
makes for at least one tuple, every sequence of single writes into present blocks, bulk
loads within the capacity and resizes to positive sizes succeeds and does what it does to
the abstract state: the size is the state's, the blocks are cut as for its capacity, and
every place of every block reads as the state's content.  The column is fit for its size if
and only if the capacity is the size. -/
theorem column_follows_state (type : ColumnType) (bitWidth n : Nat) (kind : BlockKind)
    (hkind : Column.blockKind type bitWidth = some kind) (start : Column)
    (hnew : Column.new type bitWidth n = some start) (hn : 1 ≤ n) (ops : List ColumnOp)
    (hops : AdmissibleRun ColumnState.Admits (ColumnState.next kind) (ColumnState.start kind n)
      ops) :
    let s := ops.foldl (ColumnState.next kind) (ColumnState.start kind n)
    ∃ c, runOps ColumnOp.exec start ops = some c ∧ c.numTuples = s.size ∧
      Foundation.LaidOut kNumTuplesPerBlock ColumnBlock.numTuples s.capacity c.blocks ∧
      (∀ id, id / kNumTuplesPerBlock < chunkCount kNumTuplesPerBlock s.capacity →
        ∃ result, c.getTuple id = some result ∧ result.toNat = s.content id) ∧
      (c.FitFor s.size ↔ s.capacity = s.size) := by
  intro s
  obtain ⟨c, hrun, h⟩ := (Column.follows_new hkind hnew hn).exists_runOps hops
  refine ⟨c, hrun, h.num_eq, h.laidOut, fun id hid => h.exists_getTuple hid, ?_⟩
  · rw [Column.fitFor_iff_laidOut h.num_eq, Column.LaidOut, h.num_eq]
    constructor
    · exact fun hlaid => h.laidOut.eq_of_laidOut kNumTuplesPerBlock_pos hlaid
    · intro hfits
      have hlaid := h.laidOut
      rw [hfits] at hlaid
      exact hlaid

/-- A column of five tuples grown to a full block, which leaves its capacity at five, and
then to a tuple more, which repairs it. -/
theorem column_follows_state_five :
    ∃ start c, Column.new .kByteSlicePadRight 11 5 = some start ∧
      runOps ColumnOp.exec start [.write (.setTuple 3 7#64), .resize 1048576,
        .resize 1048577] = some c ∧ c.FitFor 1048577 := by
  have hkind : Column.blockKind .kByteSlicePadRight 11 =
      some (.byteSlice ⟨11, by omega, by omega⟩) := rfl
  obtain ⟨start, hnew, _⟩ := Column.exists_new hkind 5
  have hone : chunkCount kNumTuplesPerBlock 5 = 1 :=
    chunkCount_eq_succ kNumTuplesPerBlock_pos (by decide) (by decide)
  have hfull : ColumnState.capacityAfter 5 1048576 = 5 :=
    ColumnState.capacityAfter_five
  have htwo : chunkCount kNumTuplesPerBlock 1048577 = 2 :=
    chunkCount_eq_succ kNumTuplesPerBlock_pos (by decide) (by decide)
  have hgrown : ColumnState.capacityAfter 5 1048577 = 1048577 := by
    unfold ColumnState.capacityAfter
    rw [hone, htwo, if_pos (by decide)]
  obtain ⟨c, hrun, _, _, _, hfit⟩ := column_follows_state .kByteSlicePadRight 11 5 _ hkind start
    hnew (by decide) [.write (.setTuple 3 7#64), .resize 1048576, .resize 1048577]
    ⟨show 3 / kNumTuplesPerBlock < chunkCount kNumTuplesPerBlock 5 by rw [hone]; decide,
      show 1 ≤ 1048576 by decide, show 1 ≤ 1048577 by decide, trivial⟩
  refine ⟨start, c, hnew, hrun, hfit.mpr ?_⟩
  simp only [List.foldl_cons, List.foldl_nil, ColumnState.next, ColumnState.start]
  rw [hfull, hgrown]

/-- **What a scan makes of the capacity.**  After every such run the column has the blocks of
its capacity.  For every bit vector of the column's size, a scan against a literal, with these
blocks in whatever order, fails if and only if the capacity has more blocks than the size.
Otherwise it scans the words that the capacity reaches, and leaves the other bits as they are.
In the last of those words, behind the capacity, a plain array counts as no match and byte
slices are compared with what is stored there. -/
theorem column_scan_capacity (type : ColumnType) (bitWidth n : Nat) (kind : BlockKind)
    (hkind : Column.blockKind type bitWidth = some kind) (start : Column)
    (hnew : Column.new type bitWidth n = some start) (hn : 1 ≤ n) (ops : List ColumnOp)
    (hops : AdmissibleRun ColumnState.Admits (ColumnState.next kind) (ColumnState.start kind n)
      ops) :
    let s := ops.foldl (ColumnState.next kind) (ColumnState.start kind n)
    ∃ c, runOps ColumnOp.exec start ops = some c ∧
      c.blocks.length = chunkCount kNumTuplesPerBlock s.capacity ∧
      ∀ bv : BitVector, bv.num = s.size → bv.LaidOut →
        ∀ order, Column.IsSchedule s.capacity order → ∀ cmp literal opt,
          (c.scanIn order cmp literal bv opt = none ↔
            chunkCount kNumTuplesPerBlock s.size < chunkCount kNumTuplesPerBlock s.capacity) ∧
          ∀ out, c.scanIn order cmp literal bv opt = some out → ∀ id, id < s.size →
            out.getBit id = some (if id / 64 * 64 < s.capacity then
              opt.apply (bv.bit id) (kind.compares (decide (id < s.capacity)) &&
                cmp.holds (s.content id) (literal.toNat % 2 ^ kind.bits))
              else bv.bit id) := by
  intro s
  obtain ⟨c, hrun, h⟩ := (Column.follows_new hkind hnew hn).exists_runOps hops
  have hlen := h.laidOut.length_blocks
  refine ⟨c, hrun, hlen, fun bv hnum hlaid order horder cmp literal opt => ?_⟩
  rcases Nat.lt_or_ge (chunkCount kNumTuplesPerBlock s.size)
    (chunkCount kNumTuplesPerBlock s.capacity) with hmore | hle
  · have hnone : c.scanIn order cmp literal bv opt = none := by
      have hascending : c.scan cmp literal bv opt = none := by
        refine Column.scan_eq_none ?_ cmp literal opt
        rw [hlaid.length_blocks, hnum, hlen]
        exact hmore
      rw [Column.scan, hlen] at hascending
      exact (BitVector.forBlocks_perm horder _ bv).trans hascending
    refine ⟨iff_of_true hnone hmore, fun out hout => ?_⟩
    rw [hnone] at hout
    contradiction
  · have hcount : chunkCount kNumTuplesPerBlock s.capacity =
        chunkCount kNumTuplesPerBlock s.size := by
      rcases h.wellSized.count_cases with ⟨hsame, _⟩ | hmore
      · exact hsame
      · exact absurd hle (by rw [hmore]; exact Nat.not_succ_le_self _)
    have horder' : Column.IsSchedule s.size order := by
      rw [Column.IsSchedule, BitVector.IsSchedule, ← hcount]
      exact horder
    obtain ⟨out, hscan, hbits⟩ := h.exists_scanIn hcount hlaid hnum horder' cmp literal opt
    refine ⟨iff_of_false (by rw [hscan]; exact Option.some_ne_none out) hle.not_gt,
      fun out' hout' => ?_⟩
    obtain rfl := Option.some.inj (hscan.symm.trans hout')
    exact hbits

/-- Five tuples grown to a full block: no tuple is less than `0`, but the scan for that,
which is to replace every bit, leaves the bit of tuple 64 set. -/
theorem column_scan_capacity_five :
    ∃ start c bv, Column.new .kByteSlicePadRight 11 5 = some start ∧
      runOps ColumnOp.exec start [.resize 1048576] = some c ∧
      BitVector.new 1048576 = some bv ∧
      ∀ out, c.scanIn [0] .kLess 0#64 bv .kSet = some out → out.getBit 64 = some true := by
  have hkind : Column.blockKind .kByteSlicePadRight 11 =
      some (.byteSlice ⟨11, by omega, by omega⟩) := rfl
  obtain ⟨start, hnew, _⟩ := Column.exists_new hkind 5
  obtain ⟨bv, hbv, hholds⟩ := BitVector.exists_new 1048576
  obtain ⟨c, hrun, _, hscan⟩ := column_scan_capacity .kByteSlicePadRight 11 5 _ hkind start hnew
    (by decide) [.resize 1048576] ⟨show 1 ≤ 1048576 by decide, trivial⟩
  refine ⟨start, c, bv, hnew, hrun, hbv, fun out hout => ?_⟩
  simp only [List.foldl_cons, List.foldl_nil, ColumnState.next, ColumnState.start,
    ColumnState.capacityAfter_five] at hscan
  obtain ⟨_, hbits⟩ := hscan bv hholds.num_eq hholds.laidOut [0]
    (BitVector.isSchedule_singleton (by decide) (by decide)) .kLess 0#64 .kSet
  rw [hbits out hout 64 (by decide), if_neg (by decide), hholds.bit_eq 64 (by decide)]

end ByteSlice
