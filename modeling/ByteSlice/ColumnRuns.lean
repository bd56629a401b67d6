import Mathlib
import ByteSlice.ColumnResize

/-!
# Runs of writes and resizes

`Resize` can leave a column in layouts that the constructor never makes: one block
too many after a shrink, an old size in the last block after a growth.  What it
does keep is weaker.  There are enough blocks for the size, and every block is the
old one at its place or a new one (`ResizedFrom`), whatever its recorded size.

`KeptValues` says which values a run must not lose: those written and never left
outside the size since.  The main result is about all such runs.
-/

namespace ByteSlice

open Foundation

/-- The operations that change a column. -/
inductive ColumnOp
  | write (op : ColumnWrite)
  | resize (num : Nat)

def ColumnOp.exec (c : Column) : ColumnOp → Option Column
  | .write op => op.exec c
  | .resize num => c.resize num

/-! ## One resize -/

/-- Every block is the old one at its place, or a new one, up to its size. -/
def ResizedFrom (kind : BlockKind) (old blocks : List ColumnBlock) : Prop :=
  ∀ (i : Nat) (block : ColumnBlock), blocks[i]? = some block →
    ∃ size, block = (old.getD i (ColumnBlock.new kNumTuplesPerBlock kind)).resize size

namespace ResizedFrom

variable {kind : BlockKind} {old blocks : List ColumnBlock}

theorem take (kind : BlockKind) (old : List ColumnBlock) (n : Nat) :
    ResizedFrom kind old (old.take n) := by
  intro i block hblock
  have hold : old[i]? = some block := by
    rw [List.getElem?_take] at hblock
    split at hblock
    · exact hblock
    · contradiction
  refine ⟨block.numTuples, ?_⟩
  rw [List.getD_eq_getElem?_getD, hold, Option.getD_some, ColumnBlock.resize_self]

/-- Another size for one of the blocks. -/
theorem set (h : ResizedFrom kind old blocks) {i : Nat} {block : ColumnBlock}
    (hblock : blocks[i]? = some block) (size : Nat) :
    ResizedFrom kind old (blocks.set i (block.resize size)) := by
  intro j block' hblock'
  have hlt := (List.getElem?_eq_some_iff.mp hblock).1
  by_cases hij : i = j
  · subst hij
    rw [List.getElem?_set_self hlt] at hblock'
    obtain ⟨size', hsize'⟩ := h i block hblock
    refine ⟨size, ?_⟩
    rw [← Option.some.inj hblock', hsize', ColumnBlock.resize_resize]
  · rw [List.getElem?_set_ne hij] at hblock'
    exact h j block' hblock'

theorem append_replicate (h : ResizedFrom kind old blocks) (hlen : blocks.length = old.length)
    (count size : Nat) :
    ResizedFrom kind old (blocks ++
      List.replicate count ((ColumnBlock.new kNumTuplesPerBlock kind).resize size)) := by
  intro i block hblock
  by_cases hi : i < blocks.length
  · rw [List.getElem?_append_left hi] at hblock
    exact h i block hblock
  · rw [List.getElem?_append_right (by omega)] at hblock
    refine ⟨size, ?_⟩
    rw [List.eq_of_mem_replicate (List.mem_of_getElem? hblock), List.getD_eq_getElem?_getD,
      List.getElem?_eq_none (by omega), Option.getD_none]

theorem uniform (h : ResizedFrom kind old blocks) (hold : Column.Uniform kind old) :
    Column.Uniform kind blocks := by
  intro block hmem
  obtain ⟨i, hblock⟩ := List.mem_iff_getElem?.mp hmem
  obtain ⟨size, rfl⟩ := h i block hblock
  have hfrom : (old.getD i (ColumnBlock.new kNumTuplesPerBlock kind)).kind = kind ∧
      (old.getD i (ColumnBlock.new kNumTuplesPerBlock kind)).Sound := by
    rw [List.getD_eq_getElem?_getD]
    cases hi : old[i]? with
    | none => exact ⟨ColumnBlock.kind_new _ _, ColumnBlock.sound_new _ _⟩
    | some block => exact hold block (List.mem_of_getElem? hi)
  exact ⟨(ColumnBlock.kind_resize _ _).trans hfrom.1, hfrom.2.resize _⟩

end ResizedFrom

namespace Column

/-- What a resize to `count` blocks makes of the old ones: their number is right
unless there were too many, and they stay full but the last. -/
structure ResizedTo (kind : BlockKind) (count : Nat) (old blocks : List ColumnBlock) : Prop where
  enough : count ≤ blocks.length
  length_eq : old.length ≤ count → blocks.length = count
  resizedFrom : ResizedFrom kind old blocks
  fullButLast : FullButLast old → FullButLast blocks

theorem exists_adjustBlocks {c : Column} {kind : BlockKind}
    (hkind : blockKind c.type c.bitWidth = some kind) (hpos : 0 < c.blocks.length)
    {num : Nat} (hnum : 0 < num) :
    ∃ blocks, c.adjustBlocks num = some blocks ∧
      ResizedTo kind (chunkCount kNumTuplesPerBlock num) c.blocks blocks := by
  rcases Nat.lt_or_ge c.blocks.length (chunkCount kNumTuplesPerBlock num) with hgrow | hle
  · obtain ⟨last, hlast⟩ := exists_back hpos
    have hsame : ResizedFrom kind c.blocks c.blocks := by
      have h := ResizedFrom.take kind c.blocks c.blocks.length
      rwa [List.take_length] at h
    have hblocks := adjustBlocks_grow hkind hnum hgrow hlast
    have hlen : ∀ new : ColumnBlock, (c.blocks.set (c.blocks.length - 1)
        (last.resize kNumTuplesPerBlock) ++ List.replicate
          (chunkCount kNumTuplesPerBlock num - c.blocks.length) new).length =
        chunkCount kNumTuplesPerBlock num := by
      intro new
      rw [List.length_append, List.length_replicate, List.length_set]
      omega
    refine ⟨_, hblocks, (hlen _).ge, fun _ => hlen _,
      (hsame.set hlast _).append_replicate List.length_set _ _, fun hfull => ?_⟩
    obtain ⟨blocks, hblocks', _, hall⟩ := exists_adjustBlocks_grow hfull hkind hpos hnum hgrow
    rw [Option.some.inj (hblocks.symm.trans hblocks')]
    exact fun i block _ hblock => hall i block hblock
  · have hlen : (c.blocks.take (chunkCount kNumTuplesPerBlock num + 1)).length =
        min (chunkCount kNumTuplesPerBlock num + 1) c.blocks.length := List.length_take
    exact ⟨_, adjustBlocks_of_le hnum hle, by omega, fun _ => by omega,
      ResizedFrom.take kind c.blocks _, fun hfull => hfull.take _⟩

/-- To a positive size, every column with a block resizes. -/
theorem exists_resize {c : Column} {kind : BlockKind}
    (hkind : blockKind c.type c.bitWidth = some kind) (hpos : 0 < c.blocks.length)
    {num : Nat} (hnum : 0 < num) :
    ∃ blocks, c.resize num = some { c with numTuples := num, blocks := blocks } ∧
      ResizedTo kind (chunkCount kNumTuplesPerBlock num) c.blocks blocks := by
  obtain ⟨blocks, hblocks, hadjusted⟩ := exists_adjustBlocks hkind hpos hnum
  obtain ⟨last, hlast⟩ :=
    exists_back ((chunkCount_pos kNumTuplesPerBlock_pos hnum).trans_le hadjusted.enough)
  refine ⟨_, resize_of_adjustBlocks hblocks (correctLast_eq num hlast), ?_⟩
  split
  · refine ⟨?_, fun hle => ?_, hadjusted.resizedFrom.set hlast _,
      fun hfull => (hadjusted.fullButLast hfull).setLast _⟩
    · rw [List.length_set]
      exact hadjusted.enough
    · rw [List.length_set]
      exact hadjusted.length_eq hle
  · exact hadjusted

/-- The tuples of a resized column are those of the old blocks, and of new blocks
behind them. -/
theorem tuple_of_resizedFrom {c c' : Column} {kind : BlockKind}
    (hfrom : ResizedFrom kind c.blocks c'.blocks) {id : Nat}
    (hid : id / kNumTuplesPerBlock < c'.blocks.length) :
    c'.tuple id = if id / kNumTuplesPerBlock < c.blocks.length then c.tuple id
      else ((ColumnBlock.new kNumTuplesPerBlock kind).getTuple (id % kNumTuplesPerBlock)).toNat :=
  by
  have hblock := List.getElem?_eq_getElem hid
  obtain ⟨size, hsize⟩ := hfrom _ _ hblock
  rw [tuple_eq_of_block hblock, hsize, ColumnBlock.getTuple_resize, List.getD_eq_getElem?_getD]
  by_cases hold : id / kNumTuplesPerBlock < c.blocks.length
  · have hblock' := List.getElem?_eq_getElem hold
    rw [if_pos hold, tuple_eq_of_block hblock', hblock', Option.getD_some]
  · rw [if_neg hold, List.getElem?_eq_none (Nat.not_lt.mp hold), Option.getD_none]

end Column

/-! ## Values that stay -/

/-- The values that a column must not lose: for each id the last value written to
it, unless the id has been outside the size since. -/
structure KeptValues where
  size : Nat
  value : Nat → Option WordUnit

namespace KeptValues

def start (n : Nat) : KeptValues where
  size := n
  value := fun _ => none

def next (kept : KeptValues) : ColumnOp → KeptValues
  | .write op => { kept with value := fun id => (op.written id).or (kept.value id) }
  | .resize num =>
      { size := num, value := fun id => if id < num then kept.value id else none }

/-- Single writes below the size, and resizes to a positive size. -/
def Admits (kept : KeptValues) : ColumnOp → Prop
  | .write (.setTuple id _) => id < kept.size
  | .write (.bulkLoadArray _ _ _) => False
  | .resize num => 1 ≤ num

end KeptValues

namespace Column

/-- The invariant of such runs.  It says nothing about the sizes of the blocks. -/
structure Keeps (kind : BlockKind) (c : Column) (kept : KeptValues) : Prop where
  kind_eq : blockKind c.type c.bitWidth = some kind
  num_eq : c.numTuples = kept.size
  size_pos : 0 < kept.size
  enough : chunkCount kNumTuplesPerBlock kept.size ≤ c.blocks.length
  uniform : Uniform kind c.blocks
  inside : ∀ id value, kept.value id = some value → id < kept.size
  tuple_eq : ∀ id value, kept.value id = some value →
    c.tuple id = value.toNat % 2 ^ kind.bits

namespace Keeps

variable {c : Column} {kind : BlockKind} {kept : KeptValues}

theorem div_lt_length (h : Keeps kind c kept) {id : Nat} (hid : id < kept.size) :
    id / kNumTuplesPerBlock < c.blocks.length :=
  (div_lt_chunkCount kNumTuplesPerBlock_pos hid).trans_le h.enough

theorem exists_setTuple (h : Keeps kind c kept) {id : Nat} (hid : id < kept.size)
    (value : WordUnit) :
    ∃ c', c.setTuple id value = some c' ∧
      Keeps kind c' (kept.next (.write (.setTuple id value))) := by
  obtain ⟨hset, huniform, htuple⟩ :=
    setTuple_of_block h.uniform (List.getElem?_eq_getElem (h.div_lt_length hid)) value
  have hvalue : ∀ id' value', (kept.next (.write (.setTuple id value))).value id' = some value' →
      (id' = id ∧ value' = value) ∨ (id' ≠ id ∧ kept.value id' = some value') := by
    intro id' value' hvalue
    have hwritten : ((if id = id' then some value else none).or (kept.value id')) =
        some value' := hvalue
    by_cases hsame : id = id'
    · rw [if_pos hsame] at hwritten
      exact Or.inl ⟨hsame.symm, (Option.some.inj hwritten).symm⟩
    · rw [if_neg hsame] at hwritten
      exact Or.inr ⟨fun heq => hsame heq.symm, hwritten⟩
  refine ⟨_, hset, h.kind_eq, h.num_eq, h.size_pos, ?_, huniform, ?_, ?_⟩
  · show _ ≤ (c.blocks.set _ _).length
    rw [List.length_set]
    exact h.enough
  · intro id' value' hkept
    rcases hvalue id' value' hkept with ⟨rfl, -⟩ | ⟨-, hold⟩
    · exact hid
    · exact h.inside id' value' hold
  · intro id' value' hkept
    rw [htuple]
    rcases hvalue id' value' hkept with ⟨rfl, rfl⟩ | ⟨hne, hold⟩
    · rw [if_pos rfl]
    · rw [if_neg hne]
      exact h.tuple_eq id' value' hold

theorem exists_resize (h : Keeps kind c kept) {num : Nat} (hnum : 1 ≤ num) :
    ∃ c', c.resize num = some c' ∧ Keeps kind c' (kept.next (.resize num)) := by
  have hpos : 0 < c.blocks.length :=
    (chunkCount_pos kNumTuplesPerBlock_pos h.size_pos).trans_le h.enough
  obtain ⟨blocks, hresize, hresized⟩ := Column.exists_resize h.kind_eq hpos hnum
  have hvalue : ∀ id value, (kept.next (.resize num)).value id = some value →
      id < num ∧ kept.value id = some value := by
    intro id value hkept
    have hstays : (if id < num then kept.value id else none) = some value := hkept
    by_cases hid : id < num
    · rw [if_pos hid] at hstays
      exact ⟨hid, hstays⟩
    · rw [if_neg hid] at hstays
      contradiction
  refine ⟨_, hresize, h.kind_eq, rfl, hnum, hresized.enough,
    hresized.resizedFrom.uniform h.uniform, ?_, ?_⟩
  · intro id value hkept
    exact (hvalue id value hkept).1
  · intro id value hkept
    obtain ⟨hid, hold⟩ := hvalue id value hkept
    -- a kept id is below both sizes, so its block is one of the old ones
    have hnew : id / kNumTuplesPerBlock < blocks.length :=
      (div_lt_chunkCount kNumTuplesPerBlock_pos hid).trans_le hresized.enough
    rw [tuple_of_resizedFrom hresized.resizedFrom hnew,
      if_pos (h.div_lt_length (h.inside id value hold))]
    exact h.tuple_eq id value hold

/-- The step lemma. -/
theorem exists_exec (h : Keeps kind c kept) (op : ColumnOp) (hop : kept.Admits op) :
    ∃ c', op.exec c = some c' ∧ Keeps kind c' (kept.next op) := by
  match op, hop with
  | .write (.setTuple id value), hid => exact h.exists_setTuple hid value
  | .resize num, hnum => exact h.exists_resize hnum

/-- The run lemma. -/
theorem exists_runOps (h : Keeps kind c kept) {ops : List ColumnOp}
    (hops : AdmissibleRun KeptValues.Admits KeptValues.next kept ops) :
    ∃ c', runOps ColumnOp.exec c ops = some c' ∧
      Keeps kind c' (ops.foldl KeptValues.next kept) :=
  runOps_simulates (Keeps kind) (fun _ _ op hc hop => hc.exists_exec op hop) h hops

end Keeps

theorem keeps_new {type : ColumnType} {bitWidth n : Nat} {kind : BlockKind} {c : Column}
    (hkind : blockKind type bitWidth = some kind) (hnew : new type bitWidth n = some c)
    (hn : 1 ≤ n) : Keeps kind c (KeptValues.start n) := by
  have hstores := stores_of_new hkind hnew
  have hnone : ∀ id value, (KeptValues.start n).value id ≠ some value :=
    fun _ value hvalue => Option.some_ne_none value hvalue.symm
  refine ⟨(blockKind_of_new hnew).trans hkind, hstores.num_eq, hn, ?_, hstores.uniform,
    fun id value hvalue => absurd hvalue (hnone id value),
    fun id value hvalue => absurd hvalue (hnone id value)⟩
  rw [hstores.laidOut.length_blocks, hstores.num_eq]
  exact Nat.le_refl _

end Column

/-- **Resizing keeps what stays in range.**  From every column that the constructor
makes for at least one tuple, every sequence of single writes below the size at
hand and resizes to positive sizes, growing and shrinking in any order, succeeds.
Afterwards every id that was written and has stayed below the size since returns the
last value written to it, reduced to the bits that the column keeps. -/
theorem resize_keeps_values (type : ColumnType) (bitWidth n : Nat) (start : Column)
    (hnew : Column.new type bitWidth n = some start) (hn : 1 ≤ n) (ops : List ColumnOp)
    (hops : AdmissibleRun KeptValues.Admits KeptValues.next (KeptValues.start n) ops) :
    ∃ c, runOps ColumnOp.exec start ops = some c ∧
      c.numTuples = (ops.foldl KeptValues.next (KeptValues.start n)).size ∧
      ∀ id value, (ops.foldl KeptValues.next (KeptValues.start n)).value id = some value →
        id < c.numTuples ∧ ∃ result, c.getTuple id = some result ∧
          result.toNat = value.toNat % 2 ^ Column.keptBits type bitWidth := by
  obtain ⟨kind, hkind⟩ := Column.exists_blockKind_of_new hnew hn
  obtain ⟨c, hrun, hkeeps⟩ := (Column.keeps_new hkind hnew hn).exists_runOps hops
  refine ⟨c, hrun, hkeeps.num_eq, fun id value hvalue => ?_⟩
  have hid := hkeeps.inside id value hvalue
  have hblock := List.getElem?_eq_getElem (hkeeps.div_lt_length hid)
  refine ⟨by rw [hkeeps.num_eq]; exact hid, _, readAt_of_block hblock, ?_⟩
  rw [← Column.tuple_eq_of_block hblock, hkeeps.tuple_eq id value hvalue,
    Column.bits_of_blockKind hkind]

/-- Five tuples of eleven bits.  The fourth is written, the column grown to three
blocks and shrunk to one, which leaves two, and then grown and shrunk again. -/
theorem resize_keeps_values_five :
    ∃ start c result, Column.new .kByteSlicePadRight 11 5 = some start ∧
      runOps ColumnOp.exec start [.write (.setTuple 3 7#64), .resize 3000000, .resize 4,
        .resize 1048576, .resize 9] = some c ∧
      c.numTuples = 9 ∧ c.getTuple 3 = some result ∧ result.toNat = 7 := by
  have hkind : Column.blockKind .kByteSlicePadRight 11 =
      some (.byteSlice ⟨11, by omega, by omega⟩) := rfl
  obtain ⟨start, hnew, _⟩ := Column.exists_new hkind 5
  have hops : AdmissibleRun KeptValues.Admits KeptValues.next (KeptValues.start 5)
      [.write (.setTuple 3 7#64), .resize 3000000, .resize 4, .resize 1048576, .resize 9] := by
    refine ⟨show 3 < 5 by decide, show 1 ≤ 3000000 by decide, show 1 ≤ 4 by decide,
      show 1 ≤ 1048576 by decide, show 1 ≤ 9 by decide, trivial⟩
  obtain ⟨c, hrun, hnum, hvalues⟩ :=
    resize_keeps_values .kByteSlicePadRight 11 5 start hnew (by decide) _ hops
  obtain ⟨_, result, hresult, heq⟩ := hvalues 3 7#64 rfl
  exact ⟨start, c, result, hnew, hrun, hnum, hresult, heq⟩

end ByteSlice
