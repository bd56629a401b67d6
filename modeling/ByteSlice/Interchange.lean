import Mathlib
import ByteSlice.ColumnArray
import ByteSlice.ScanStep

/-!
# The storage formats are interchangeable

Two sides, one with columns of type `kNaive` and one with `kByteSlicePadRight`, hold
a pair of columns and a bit vector each and go through the same operations.  Both
simulate the same `Tables`, two arrays of codes and a set of bits, so no observation
tells them apart.
-/

namespace ByteSlice

open Foundation

/-- The two columns of a side. -/
inductive Which
  | first
  | second
  deriving DecidableEq

/-- Two columns of one format and the bit vector that they are scanned into. -/
structure Side where
  columns : Which → Column
  bitVector : BitVector

/-- One operation on a side.  The order in which a block loop happens to run is the
side's own. -/
inductive SideOp
  | write (which : Which) (op : ColumnWrite)
  | scan (which : Which) (cmp : Comparator) (operand : ScanOperand Which) (opt : Bitwise)
      (order : ColumnType → List Nat)

/-- What a side stands for. -/
structure Tables where
  contents : Which → Nat → Nat
  bits : Nat → Bool

namespace ColumnWrite

/-- Every value written is a code of `w` bits. -/
def CodesBelow (w : Nat) : ColumnWrite → Prop
  | .setTuple _ value => value.toNat < 2 ^ w
  | .bulkLoadArray codes num _ => ∀ k, k < num → (codes k).toNat < 2 ^ w

/-- On codes of `w` bits a format that keeps more bits acts like one that keeps
`w`. -/
theorem CodesBelow.onContent_eq {w bits : Nat} {op : ColumnWrite} (h : op.CodesBelow w)
    (hle : w ≤ bits) (content : Nat → Nat) :
    op.onContent bits content = op.onContent w content := by
  have hkept : ∀ value : WordUnit, value.toNat < 2 ^ w →
      value.toNat % 2 ^ bits = value.toNat % 2 ^ w := by
    intro value hvalue
    rw [Nat.mod_eq_of_lt hvalue,
      Nat.mod_eq_of_lt (hvalue.trans_le (Nat.pow_le_pow_right (by omega) hle))]
  cases op with
  | setTuple id value =>
      show Function.update content id (value.toNat % 2 ^ bits) = _
      rw [hkept value h]
      rfl
  | bulkLoadArray codes num pos =>
      funext id
      show Column.loaded codes num pos bits content id = Column.loaded codes num pos w content id
      unfold Column.loaded
      by_cases hin : pos ≤ id ∧ id < pos + num
      · rw [if_pos hin, if_pos hin, hkept _ (h (id - pos) (by omega))]
      · rw [if_neg hin, if_neg hin]

end ColumnWrite

namespace SideOp

/-- The scan as a step over the side's columns. -/
def scanStep (type : ColumnType) (which : Which) (cmp : Comparator)
    (operand : ScanOperand Which) (opt : Bitwise) (order : ColumnType → List Nat) :
    ScanStep Which :=
  { column := which, cmp := cmp, operand := operand, opt := opt, order := order type }

def exec (type : ColumnType) (side : Side) : SideOp → Option Side
  | .write which op => (op.exec (side.columns which)).map fun column =>
      { side with columns := Function.update side.columns which column }
  | .scan which cmp operand opt order =>
      ((scanStep type which cmp operand opt order).exec side.columns side.bitVector).map
        fun bitVector => { side with bitVector := bitVector }

/-- Writes are in range, with codes of `w` bits; literals are such codes; the block
loops run once for each block. -/
def Admissible (w n : Nat) : SideOp → Prop
  | .write _ op => op.InRange n ∧ op.CodesBelow w
  | .scan which cmp operand opt order =>
      ∀ type, (scanStep type which cmp operand opt order).WellFormed (fun _ => type)
        (fun _ => w) n

/-- The operation on tables of `w`-bit codes. -/
def onTables (w : Nat) (tables : Tables) : SideOp → Tables
  | .write which op =>
      { tables with
        contents := Function.update tables.contents which
          (op.onContent w (tables.contents which)) }
  | .scan which cmp operand opt order =>
      { tables with
        bits := (scanStep .kNaive which cmp operand opt order).onBits tables.contents
          tables.bits }

end SideOp

namespace Side

/-- Both columns of a size and format, loaded in full, and a new bit vector. -/
def load (type : ColumnType) (w n : Nat) (codes : Which → Nat → WordUnit)
    (order : ColumnType → List Nat) : Option Side :=
  ((Column.new type w n).bind (Column.bulkLoadArray (codes .first) n 0)).bind fun first =>
    ((Column.new type w n).bind (Column.bulkLoadArray (codes .second) n 0)).bind fun second =>
      (BitVector.newIn (order type) n).map fun bitVector =>
        { columns := fun which => match which with
            | .first => first
            | .second => second
          bitVector := bitVector }

/-- The abstraction relation. -/
structure Represents (side : Side) (kind : BlockKind) (n : Nat) (tables : Tables) : Prop where
  stores : ∀ which, (side.columns which).Stores kind n (tables.contents which)
  holds : side.bitVector.Holds n tables.bits

/-- What can be observed of two sides is the same: the value of every tuple, every
word in use of the bit vectors, and with them every bit and the count. -/
structure Agree (n : Nat) (a b : Side) : Prop where
  getTuple_eq : ∀ which id, id < n → ∃ value, (a.columns which).getTuple id = some value ∧
    (b.columns which).getTuple id = some value
  words_eq : List.Forall₂ (fun block block' : BitVectorBlock => block.num = block'.num ∧
    ∀ k, k < block.numWordUnits → block.getWordUnit k = block'.getWordUnit k)
    a.bitVector.blocks b.bitVector.blocks
  getBit_eq : ∀ pos, pos < n → ∃ bit, a.bitVector.getBit pos = some bit ∧
    b.bitVector.getBit pos = some bit
  countOnes_eq : ∃ count, a.bitVector.countOnes = some count ∧
    b.bitVector.countOnes = some count

/-- Sides that stand for the same tables agree. -/
theorem Represents.agree {a b : Side} {kind kind' : BlockKind} {n : Nat} {tables : Tables}
    (ha : a.Represents kind n tables) (hb : b.Represents kind' n tables) : Agree n a b := by
  refine ⟨fun which id hid => ?_, ha.holds.forall₂_words hb.holds,
    fun pos hpos => ⟨_, ha.holds.getBit_eq hpos, hb.holds.getBit_eq hpos⟩,
    ⟨_, ha.holds.countOnes_eq, hb.holds.countOnes_eq⟩⟩
  obtain ⟨value, hvalue, heq⟩ := (ha.stores which).getTuple_eq hid
  obtain ⟨value', hvalue', heq'⟩ := (hb.stores which).getTuple_eq hid
  -- both values are the code that the tables have
  obtain rfl : value = value' := BitVec.eq_of_toNat_eq (heq.trans heq'.symm)
  exact ⟨value, hvalue, hvalue'⟩

variable {type : ColumnType} {w n : Nat} {kind : BlockKind}

/-- The step lemma: an admissible operation on a side is the operation on the tables
that it stands for, whatever its format. -/
theorem Represents.exists_exec {side : Side} {tables : Tables}
    (h : side.Represents kind n tables)
    (hkind : Column.blockKind type w = some kind) (op : SideOp) (hop : op.Admissible w n) :
    ∃ side', op.exec type side = some side' ∧ side'.Represents kind n (op.onTables w tables) := by
  cases op with
  | write which op =>
      obtain ⟨hrange, hcodes⟩ := hop
      -- the element type of a plain array may keep more bits than `w`, but no code has them
      have hbits := Column.le_bits_of_blockKind hkind
      obtain ⟨column, hexec, hstores⟩ := (h.stores which).exists_exec op hrange
      rw [hcodes.onContent_eq hbits] at hstores
      refine ⟨{ side with columns := Function.update side.columns which column }, ?_,
        fun which' => ?_, h.holds⟩
      · unfold SideOp.exec
        dsimp only
        rw [hexec, Option.map_some]
      · show (Function.update side.columns which column which').Stores kind n
          (Function.update tables.contents which (op.onContent w (tables.contents which)) which')
        by_cases hsame : which' = which
        · subst hsame
          rw [Function.update_self, Function.update_self]
          exact hstores
        · rw [Function.update_of_ne hsame, Function.update_of_ne hsame]
          exact h.stores which'
  | scan which cmp operand opt order =>
      obtain ⟨bitVector, hexec, hholds⟩ := ScanStep.exists_exec (fun _ => hkind) h.stores
        h.holds (SideOp.scanStep type which cmp operand opt order) (hop type)
      refine ⟨{ side with bitVector := bitVector }, ?_, h.stores, hholds⟩
      unfold SideOp.exec
      dsimp only
      rw [hexec, Option.map_some]

/-- A column loaded in full with codes of `w` bits stores them, whatever its format. -/
theorem exists_column_load (hkind : Column.blockKind type w = some kind) {codes : Nat → WordUnit}
    (hcodes : ∀ k, k < n → (codes k).toNat < 2 ^ w) :
    ∃ column, (Column.new type w n).bind (Column.bulkLoadArray codes n 0) = some column ∧
      column.Stores kind n fun id => (codes id).toNat := by
  have hbits := Column.le_bits_of_blockKind hkind
  obtain ⟨c, hnew, hstores⟩ := Column.exists_new hkind n
  obtain ⟨column, hload, hloaded⟩ := hstores.exists_bulkLoadArray codes (show 0 + n ≤ n by omega)
  refine ⟨column, by rw [hnew, Option.bind_some]; exact hload, hloaded.congr fun id hid => ?_⟩
  unfold Column.loaded
  rw [if_pos (by omega), Nat.sub_zero]
  exact Nat.mod_eq_of_lt ((hcodes id hid).trans_le (Nat.pow_le_pow_right (by omega) hbits))

/-- A loaded side stands for its codes and the full set of bits. -/
theorem exists_load (hkind : Column.blockKind type w = some kind)
    {codes : Which → Nat → WordUnit}
    (hcodes : ∀ which k, k < n → (codes which k).toNat < 2 ^ w) {order : ColumnType → List Nat}
    (horder : BitVector.IsSchedule n (order type)) :
    ∃ side, load type w n codes order = some side ∧
      side.Represents kind n
        { contents := fun which id => (codes which id).toNat, bits := fun _ => true } := by
  obtain ⟨first, hfirst, hfirstStores⟩ := exists_column_load hkind (hcodes .first)
  obtain ⟨second, hsecond, hsecondStores⟩ := exists_column_load hkind (hcodes .second)
  obtain ⟨bitVector, hnew, hholds⟩ := BitVector.exists_newIn horder
  refine ⟨_, by rw [load, hfirst, Option.bind_some, hsecond, Option.bind_some, hnew,
    Option.map_some], fun which => ?_, hholds⟩
  cases which with
  | first => exact hfirstStores
  | second => exact hsecondStores

/-- The run lemma of one side. -/
theorem exists_run (hkind : Column.blockKind type w = some kind) {side : Side} {tables : Tables}
    (h : side.Represents kind n tables) {ops : List SideOp}
    (hops : ∀ op ∈ ops, op.Admissible w n) :
    ∃ side', runOps (SideOp.exec type) side ops = some side' ∧
      side'.Represents kind n (ops.foldl (SideOp.onTables w) tables) :=
  runOps_simulates (fun side tables => Side.Represents side kind n tables)
    (fun _ _ op hside (hop : op.Admissible w n) => hside.exists_exec hkind op hop) h
    (admissibleRun_of_forall (fun op hmem _ => hops op hmem) tables)

end Side

/-- **The two storage formats are interchangeable.**  A side of plain arrays and a
side of byte slices, loaded in full with the same codes of `w` bits, run the same
sequence of writes and scans, each with its own bit vector and its own order of the
block loops.  At every point of the run, that is after every initial segment of the
sequence, both sides have succeeded so far and agree in every tuple and every word. -/
theorem formats_interchangeable (w : Nat) (hpos : 1 ≤ w) (hle : w ≤ 32) (n : Nat)
    (codes : Which → Nat → WordUnit) (hcodes : ∀ which k, k < n → (codes which k).toNat < 2 ^ w)
    (startOrder : ColumnType → List Nat)
    (hstart : ∀ type, BitVector.IsSchedule n (startOrder type)) (ops : List SideOp)
    (hops : ∀ op ∈ ops, op.Admissible w n) :
    ∃ naive byteSlice, Side.load .kNaive w n codes startOrder = some naive ∧
      Side.load .kByteSlicePadRight w n codes startOrder = some byteSlice ∧
      ∀ before, before <+: ops → ∃ a b, runOps (SideOp.exec .kNaive) naive before = some a ∧
        runOps (SideOp.exec .kByteSlicePadRight) byteSlice before = some b ∧
        Side.Agree n a b := by
  have hnaive : ColumnType.kNaive = .kNaive ∨ ColumnType.kNaive = .kByteSlicePadRight :=
    Or.inl rfl
  have hbyteSlice : ColumnType.kByteSlicePadRight = .kNaive ∨
      ColumnType.kByteSlicePadRight = .kByteSlicePadRight := Or.inr rfl
  obtain ⟨kind, hkind, _⟩ := Column.exists_blockKind hnaive hpos hle
  obtain ⟨kind', hkind', _⟩ := Column.exists_blockKind hbyteSlice hpos hle
  obtain ⟨naive, hload, hrep⟩ := Side.exists_load hkind hcodes (hstart .kNaive)
  obtain ⟨byteSlice, hload', hrep'⟩ :=
    Side.exists_load hkind' hcodes (hstart .kByteSlicePadRight)
  refine ⟨naive, byteSlice, hload, hload', fun before hbefore => ?_⟩
  have hops' : ∀ op ∈ before, op.Admissible w n := fun op hmem => hops op (hbefore.subset hmem)
  obtain ⟨a, hrun, ha⟩ := Side.exists_run hkind hrep hops'
  obtain ⟨b, hrun', hb⟩ := Side.exists_run hkind' hrep' hops'
  exact ⟨a, b, hrun, hrun', ha.agree hb⟩

/-- Three codes of eleven bits on each side, an overwritten tuple, and a scan of the
first column against the second. -/
theorem formats_interchangeable_three :
    ∃ naive byteSlice a b,
      Side.load .kNaive 11 3 (fun _ k => BitVec.ofNat 64 (5 + k)) (fun _ => [0]) = some naive ∧
      Side.load .kByteSlicePadRight 11 3 (fun _ k => BitVec.ofNat 64 (5 + k)) (fun _ => [0]) =
        some byteSlice ∧
      runOps (SideOp.exec .kNaive) naive [.write .first (.setTuple 1 2047#64),
        .scan .first .kGreater (.column .second) .kAnd fun _ => [0]] = some a ∧
      runOps (SideOp.exec .kByteSlicePadRight) byteSlice [.write .first (.setTuple 1 2047#64),
        .scan .first .kGreater (.column .second) .kAnd fun _ => [0]] = some b ∧
      Side.Agree 3 a b := by
  have horder := BitVector.isSchedule_singleton (show 0 < 3 by omega) (by decide)
  obtain ⟨naive, byteSlice, hload, hload', hrun⟩ := formats_interchangeable 11 (by omega)
    (by omega) 3 (fun _ k => BitVec.ofNat 64 (5 + k))
    (fun _ k hk => by
      rw [BitVec.toNat_ofNat]
      omega)
    (fun _ => [0]) (fun _ => horder)
    [.write .first (.setTuple 1 2047#64),
      .scan .first .kGreater (.column .second) .kAnd fun _ => [0]]
    (by
      intro op hmem
      rcases List.mem_cons.mp hmem with rfl | hmem
      · exact ⟨show 1 < 3 by omega, show (2047#64).toNat < 2 ^ 11 by decide⟩
      · rw [List.mem_singleton.mp hmem]
        exact fun _ => ⟨horder, rfl, rfl⟩)
  obtain ⟨a, b, hrunA, hrunB, hagree⟩ := hrun _ (List.prefix_refl _)
  exact ⟨naive, byteSlice, a, b, hload, hload', hrunA, hrunB, hagree⟩

end ByteSlice
