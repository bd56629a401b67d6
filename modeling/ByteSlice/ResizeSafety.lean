import Mathlib
import ByteSlice.ColumnRuns

/-!
# When `Resize` is safe

`Resize` subtracts `1` twice without a test.  The `CEIL` macro does it to the new
size, so that a new size of zero asks for `2^44` blocks; the branch that adds blocks
does it to the number of blocks, so that a column without blocks is indexed at
`2^64 - 1`.  The main result is that nothing else goes wrong.
-/

namespace ByteSlice

open Foundation

namespace Column

/-- The deletion loop once more, failing where `back` and `pop_back` have no block. -/
def popBlocks (newNumBlocks bid : Nat) (blocks : List ColumnBlock) :
    Option (List ColumnBlock) :=
  if newNumBlocks < bid then
    if blocks.isEmpty then none else popBlocks newNumBlocks (bid - 1) blocks.dropLast
  else some blocks
termination_by bid

theorem popBlocks_eq {newNumBlocks bid : Nat} {blocks : List ColumnBlock}
    (hle : bid ≤ blocks.length) :
    popBlocks newNumBlocks bid blocks = some (removeBlocks newNumBlocks bid blocks) := by
  induction bid generalizing blocks with
  | zero =>
      rw [popBlocks, removeBlocks, if_neg (Nat.not_lt_zero _), if_neg (Nat.not_lt_zero _)]
  | succ bid ih =>
      rw [popBlocks, removeBlocks]
      by_cases hlt : newNumBlocks < bid + 1
      · have hsome : blocks.isEmpty = false := by
          rw [List.isEmpty_eq_false_iff, ← List.length_pos_iff]
          omega
        have hdrop : bid ≤ blocks.dropLast.length := by
          rw [List.length_dropLast]
          omega
        rw [if_pos hlt, if_pos hlt, hsome, if_neg Bool.false_ne_true, Nat.add_sub_cancel]
        exact ih hdrop
      · rw [if_neg hlt, if_neg hlt]

/-- The number of blocks is computed without a wrap, every access to `blocks_` finds
its block, and as many blocks are added as are missing. -/
structure ResizeSafe (c : Column) (num : Nat) : Prop where
  ceil_eq : ceil num kNumTuplesPerBlock = num ⌈/⌉ kNumTuplesPerBlock
  accesses : ∃ c', c.resize num = some c'
  pops : ceil num kNumTuplesPerBlock < c.blocks.length →
    ∃ rest, popBlocks (ceil num kNumTuplesPerBlock) (c.blocks.length - 1) c.blocks = some rest
  added : ∀ c', c.resize num = some c' →
    c'.blocks.length - c.blocks.length = num ⌈/⌉ kNumTuplesPerBlock - c.blocks.length

/-- Whatever the new size, a column without blocks is indexed before its first. -/
theorem resize_of_no_blocks {c : Column} (hblocks : c.blocks = []) (num : Nat) :
    c.resize num = none := by
  have hgrow : ceil num kNumTuplesPerBlock > c.blocks.length := by
    rw [hblocks]
    exact Nat.succ_pos _
  have hfill : resizeBlock kNumTuplesPerBlock (sizeSub c.blocks.length 1) c.blocks = none := by
    rw [hblocks]
    rfl
  unfold resize adjustBlocks
  dsimp only
  rw [if_pos hgrow, hfill]
  rfl

theorem resizeSafe_of_pos {c : Column} {kind : BlockKind}
    (hkind : blockKind c.type c.bitWidth = some kind) (hpos : 0 < c.blocks.length)
    {num : Nat} (hnum : 0 < num) : ResizeSafe c num := by
  have hceil := ceil_eq_ceilDiv hnum kNumTuplesPerBlock_pos
  obtain ⟨blocks, hresize, hresized⟩ := exists_resize hkind hpos hnum
  refine ⟨hceil, ⟨_, hresize⟩, fun _ => ⟨_, popBlocks_eq (Nat.sub_le _ _)⟩, fun c' hc' => ?_⟩
  show c'.blocks.length - c.blocks.length = chunkCount kNumTuplesPerBlock num - c.blocks.length
  rcases Nat.lt_or_ge (chunkCount kNumTuplesPerBlock num) c.blocks.length with hshrink | hle
  · obtain ⟨c'', hresize', _, hlen⟩ := exists_resize_shrink hnum hshrink
    obtain rfl : c' = c'' := Option.some.inj (hc'.symm.trans hresize')
    omega
  · obtain rfl := Option.some.inj (hresize.symm.trans hc')
    rw [← hresized.length_eq hle]

end Column

/-- **`Resize`, safe exactly when nothing is empty.**  Of every column that the
constructor made for `n` tuples, written or not, and every `num`: the resize to
`num` computes the number of blocks without a wrap, accesses existing blocks only
and adds as many as are missing, if and only if both sizes are positive. -/
theorem resizeSafe_iff (type : ColumnType) (bitWidth n : Nat) (c : Column)
    (hbuilt : Column.Built type bitWidth n c) (num : Nat) :
    Column.ResizeSafe c num ↔ 1 ≤ n ∧ 1 ≤ num := by
  obtain ⟨_, _, hstores⟩ := Column.exists_kind_of_built type bitWidth
  have hlen := (hstores n c hbuilt).laidOut.length_blocks
  rw [(hstores n c hbuilt).num_eq] at hlen
  constructor
  · intro hsafe
    refine ⟨?_, ?_⟩
    · by_contra hn
      obtain rfl : n = 0 := by omega
      rw [chunkCount_zero] at hlen
      obtain ⟨c', hresize⟩ := hsafe.accesses
      rw [Column.resize_of_no_blocks (List.length_eq_zero_iff.mp hlen)] at hresize
      contradiction
    · by_contra hnum
      obtain rfl : num = 0 := by omega
      have hceil := hsafe.ceil_eq
      rw [zero_ceilDiv] at hceil
      exact absurd hceil (Nat.succ_ne_zero _)
  · rintro ⟨hn, hnum⟩
    have hpos : 0 < c.blocks.length := by
      rw [hlen]
      exact chunkCount_pos kNumTuplesPerBlock_pos hn
    obtain ⟨kind, hkind⟩ := hbuilt.exists_blockKind hn
    exact Column.resizeSafe_of_pos hkind hpos hnum

/-- A column of three tuples, resized to two blocks and a tuple. -/
theorem resizeSafe_iff_three :
    ∃ c, Column.new .kByteSlicePadRight 11 3 = some c ∧ Column.ResizeSafe c 2097153 := by
  have hkind : Column.blockKind .kByteSlicePadRight 11 =
      some (.byteSlice ⟨11, by omega, by omega⟩) := rfl
  obtain ⟨c, hnew, _⟩ := Column.exists_new hkind 3
  exact ⟨c, hnew, (resizeSafe_iff .kByteSlicePadRight 11 3 c (Column.built_new hnew) 2097153).mpr
    (by decide)⟩

/-- A column of the default size, resized to one tuple: the block before the first
is asked for.  And a column of one tuple, resized to none: `2^44` blocks are. -/
theorem resize_empty_unsafe :
    (∃ c, Column.new .kNaive 8 0 = some c ∧ c.resize 1 = none ∧ ¬ Column.ResizeSafe c 1) ∧
      ∃ c, Column.new .kNaive 8 1 = some c ∧ ceil 0 kNumTuplesPerBlock = 2 ^ 44 ∧
        ¬ Column.ResizeSafe c 0 := by
  have hkind : Column.blockKind .kNaive 8 = some (.naive .uint8) := rfl
  constructor
  · obtain ⟨c, hnew, hstores⟩ := Column.exists_new hkind 0
    have hlen := hstores.laidOut.length_blocks
    rw [hstores.num_eq, chunkCount_zero] at hlen
    have hnone := Column.resize_of_no_blocks (List.length_eq_zero_iff.mp hlen) 1
    refine ⟨c, hnew, hnone, fun hsafe => ?_⟩
    obtain ⟨c', hresize⟩ := hsafe.accesses
    rw [hnone] at hresize
    contradiction
  · obtain ⟨c, hnew, _⟩ := Column.exists_new hkind 1
    refine ⟨c, hnew, by decide, fun hsafe => ?_⟩
    have hceil := hsafe.ceil_eq
    rw [zero_ceilDiv] at hceil
    exact absurd hceil (Nat.succ_ne_zero _)

end ByteSlice
