import Mathlib
import ByteSlice.BitVectorBlock

/-!
# `NaiveColumnBlock`

Stores data in a plain array of a fixed-width unsigned type.  A scan builds each
bit vector word with a scalar loop, stops at the last tuple, and writes only the
words that hold tuples; it never calls `ClearTail`.  Clear tails are therefore
kept, not established.
-/

namespace ByteSlice

open Foundation

/-- The element types at which the template is instantiated. -/
inductive DType
  | uint8
  | uint16
  | uint32
  | uint64
  deriving DecidableEq

/-- `8*sizeof(DTYPE)` -/
def DType.bits : DType → Nat
  | .uint8 => 8
  | .uint16 => 16
  | .uint32 => 32
  | .uint64 => 64

theorem DType.bits_le (dt : DType) : dt.bits ≤ 64 := by
  cases dt <;> decide

structure NaiveColumnBlock (dt : DType) where
  numTuples : Nat
  data : Vector (BitVec dt.bits) kNumTuplesPerBlock

namespace NaiveColumnBlock

variable {dt : DType}

def new (num : Nat) : NaiveColumnBlock dt where
  numTuples := num
  data := Vector.replicate kNumTuplesPerBlock 0

def resize (num : Nat) (b : NaiveColumnBlock dt) : NaiveColumnBlock dt :=
  { b with numTuples := num }

def getTuple (b : NaiveColumnBlock dt) (posInBlock : Nat) : WordUnit :=
  (load b.data posInBlock).setWidth 64

def setTuple (b : NaiveColumnBlock dt) (posInBlock : Nat) (value : WordUnit) :
    NaiveColumnBlock dt :=
  { b with data := store b.data posInBlock (value.setWidth dt.bits) }

/-- `codes` is the pointer to the first code. -/
def bulkLoadArray (codes : Nat → WordUnit) (num startPos : Nat) (b : NaiveColumnBlock dt) :
    NaiveColumnBlock dt :=
  forLoop num 1 Nat.one_pos
    (fun i _ b => { b with data := store b.data (startPos + i) ((codes i).setWidth dt.bits) }) 0 b

/-- `data_[pos] CMP lit` -/
def compare (cmp : Comparator) (x lit : BitVec dt.bits) : Bool :=
  match cmp with
  | .kLess => decide (x < lit)
  | .kGreater => decide (x > lit)
  | .kLessEqual => decide (x ≤ lit)
  | .kGreaterEqual => decide (x ≥ lit)
  | .kEqual => decide (x = lit)
  | .kInequal => decide (x ≠ lit)

/-- `word` at tuples `offset, ..., offset + 63`.  The inner loop breaks at the
first position past the last tuple, so it runs below both bounds. -/
def scanBits (cmp : Comparator) (b : NaiveColumnBlock dt) (lit : Nat → BitVec dt.bits)
    (offset : Nat) : WordUnit :=
  forLoop (min kNumWordBits (b.numTuples - offset)) 1 Nat.one_pos
    (fun i _ word => word |||
      (if compare cmp (load b.data (offset + i)) (lit (offset + i)) then 1#64 else 0#64) <<< i)
    0 0#64

/-- `ScanHelper2` over either kind of second operand, which is a function of the
position. -/
def scanHelper2 (cmp : Comparator) (opt : Bitwise) (b : NaiveColumnBlock dt)
    (lit : Nat → BitVec dt.bits) (bvBlock : BitVectorBlock) : BitVectorBlock :=
  forLoop b.numTuples kNumWordBits kNumWordBits_pos
    (fun offset _ bvBlock =>
      let word := scanBits cmp b lit offset
      let bvWordId := offset / kNumWordBits
      let x :=
        match opt with
        | .kSet => word
        | .kAnd => bvBlock.getWordUnit bvWordId &&& word
        | .kOr => bvBlock.getWordUnit bvWordId ||| word
      bvBlock.setWordUnit x bvWordId)
    0 bvBlock

/-- `Scan` against a literal, which dispatches on the two enumerations. -/
def scan (b : NaiveColumnBlock dt) (cmp : Comparator) (literal : WordUnit)
    (bvBlock : BitVectorBlock) (opt : Bitwise) : BitVectorBlock :=
  scanHelper2 cmp opt b (fun _ => literal.setWidth dt.bits) bvBlock

/-- `Scan` against another column block, which is read through its virtual
`GetTuple`. -/
def scanBlock (b : NaiveColumnBlock dt) (cmp : Comparator) (columnBlock : Nat → WordUnit)
    (bvBlock : BitVectorBlock) (opt : Bitwise) : BitVectorBlock :=
  scanHelper2 cmp opt b (fun pos => (columnBlock pos).setWidth dt.bits) bvBlock

/-! ## Storage -/

theorem toNat_getTuple (b : NaiveColumnBlock dt) (pos : Nat) :
    (b.getTuple pos).toNat = (load b.data pos).toNat :=
  BitVec.toNat_setWidth_of_le dt.bits_le

theorem toNat_getTuple_lt (b : NaiveColumnBlock dt) (pos : Nat) :
    (b.getTuple pos).toNat < 2 ^ dt.bits := by
  rw [toNat_getTuple]
  exact (load b.data pos).isLt

theorem toNat_getTuple_new (num : Nat) {p : Nat} (hp : p < kNumTuplesPerBlock) :
    ((new num : NaiveColumnBlock dt).getTuple p).toNat = 0 := by
  rw [toNat_getTuple]
  unfold new
  rw [load_replicate _ hp]
  exact BitVec.toNat_zero

theorem toNat_getTuple_setTuple (b : NaiveColumnBlock dt) (q : Nat) (value : WordUnit)
    {p : Nat} (hp : p < kNumTuplesPerBlock) :
    ((b.setTuple q value).getTuple p).toNat =
      if q = p then value.toNat % 2 ^ dt.bits else (b.getTuple p).toNat := by
  rw [toNat_getTuple, toNat_getTuple]
  unfold setTuple
  rw [load_store _ _ _ hp]
  split
  · exact BitVec.toNat_setWidth _ _
  · rfl

/-! ## Scans -/

theorem compare_eq (cmp : Comparator) (x lit : BitVec dt.bits) :
    compare cmp x lit = cmp.holds x.toNat lit.toNat := by
  cases cmp with
  | kEqual => exact decide_eq_decide.mpr (BitVec.toNat_inj).symm
  | kInequal => exact decide_eq_decide.mpr (not_congr (BitVec.toNat_inj).symm)
  | kLess => rfl
  | kGreater => rfl
  | kLessEqual => rfl
  | kGreaterEqual => rfl

theorem getLsbD_scanBits (cmp : Comparator) (b : NaiveColumnBlock dt)
    (lit : Nat → BitVec dt.bits) (offset : Nat) {j : Nat} (hj : j < 64) :
    (scanBits cmp b lit offset).getLsbD j = (decide (offset + j < b.numTuples) &&
      cmp.holds (b.getTuple (offset + j)).toNat (lit (offset + j)).toNat) := by
  have hm : min kNumWordBits (b.numTuples - offset) ≤ 64 := Nat.min_le_left _ _
  refine (getLsbD_forLoop_or
    (fun i => compare cmp (load b.data (offset + i)) (lit (offset + i))) hm j).trans ?_
  rw [compare_eq, toNat_getTuple]
  congr 1
  -- the inner loop breaks at the last tuple or at the end of the word
  rw [decide_eq_decide, Nat.lt_min, kNumWordBits_eq]
  omega

@[simp] theorem num_scanHelper2 (cmp : Comparator) (opt : Bitwise) (b : NaiveColumnBlock dt)
    (lit : Nat → BitVec dt.bits) (bvBlock : BitVectorBlock) :
    (scanHelper2 cmp opt b lit bvBlock).num = bvBlock.num :=
  BitVectorBlock.num_forLoop_setWordUnit _ _ _ bvBlock

/-- The effect of the whole loop on one bit of the storage: the words that hold
tuples are combined, the others are left alone. -/
theorem getBit_scanHelper2_eq (cmp : Comparator) (opt : Bitwise) (b : NaiveColumnBlock dt)
    (lit : Nat → BitVec dt.bits) (bvBlock : BitVectorBlock) {p : Nat}
    (hp : p / 64 < kNumWordsPerBlock) :
    (scanHelper2 cmp opt b lit bvBlock).getBit p =
      if p / 64 * 64 < b.numTuples then
        opt.apply (bvBlock.getBit p) (decide (p < b.numTuples) &&
          cmp.holds (b.getTuple p).toNat (lit p).toNat)
      else bvBlock.getBit p := by
  let combine : Nat → WordUnit → WordUnit := fun offset old =>
    match opt with
    | .kSet => scanBits cmp b lit offset
    | .kAnd => old &&& scanBits cmp b lit offset
    | .kOr => old ||| scanBits cmp b lit offset
  have hloop : (scanHelper2 cmp opt b lit bvBlock).getWordUnit (p / 64) =
      if p / 64 * kNumWordBits < b.numTuples then
        combine (p / 64 * kNumWordBits) (bvBlock.getWordUnit (p / 64))
      else bvBlock.getWordUnit (p / 64) :=
    BitVectorBlock.words.get_forLoop_set combine b.numTuples kNumWordBits kNumWordBits_pos
      bvBlock hp
  have hmod : p % 64 < 64 := Nat.mod_lt _ (by omega)
  have hbits := getLsbD_scanBits cmp b lit (p / 64 * 64) hmod
  rw [show p / 64 * 64 + p % 64 = p by omega] at hbits
  rw [BitVectorBlock.getBit_eq, BitVectorBlock.getBit_eq]
  unfold bitAt
  rw [hloop, kNumWordBits_eq]
  split
  · rw [← hbits]
    cases opt with
    | kSet => rfl
    | kAnd => exact BitVec.getLsbD_and
    | kOr => exact BitVec.getLsbD_or
  · rfl

theorem getBit_scanHelper2 (cmp : Comparator) (opt : Bitwise) (b : NaiveColumnBlock dt)
    (lit : Nat → BitVec dt.bits) {bvBlock : BitVectorBlock} (hnum : bvBlock.num = b.numTuples)
    {p : Nat} (hp : p < b.numTuples) :
    (scanHelper2 cmp opt b lit bvBlock).getBit p =
      opt.apply (bvBlock.getBit p) (cmp.holds (b.getTuple p).toNat (lit p).toNat) := by
  have hunits := bvBlock.num_le_numWordUnits
  have hword : p / 64 < kNumWordsPerBlock :=
    BitVectorBlock.word_lt_of_lt (b := bvBlock) (by omega)
  rw [getBit_scanHelper2_eq cmp opt b lit bvBlock hword, if_pos (by omega), decide_eq_true hp,
    Bool.true_and]

/-- A clear tail stays clear although nothing clears it: the bits that the last
word gets past the last tuple are `0`, and the words behind it are not written. -/
theorem tailClear_scanHelper2 (cmp : Comparator) (opt : Bitwise) (b : NaiveColumnBlock dt)
    (lit : Nat → BitVec dt.bits) {bvBlock : BitVectorBlock} (hnum : bvBlock.num = b.numTuples)
    (htail : bvBlock.TailClear) : (scanHelper2 cmp opt b lit bvBlock).TailClear := by
  intro p hle hp
  rw [num_scanHelper2] at hle
  rw [BitVectorBlock.numWordUnits_congr (num_scanHelper2 cmp opt b lit bvBlock)] at hp
  -- past the last tuple the word gets `0`, which no combination turns into `1`
  have hout : ¬p < b.numTuples := by omega
  rw [getBit_scanHelper2_eq cmp opt b lit bvBlock (BitVectorBlock.word_lt_of_lt hp),
    htail p hle hp, decide_eq_false hout, Bool.false_and]
  split
  · cases opt <;> rfl
  · rfl

end NaiveColumnBlock

/-- **The naive scan is the element-wise comparison.**  It runs on any array of any
element type, against a literal that the type can represent or against another array
of the type, which may be the same one, and into a bit vector block of the array's
size whose tail is clear.  Every bit below the size is the old bit combined with the
comparison, and the tail is still clear. -/
theorem naive_scan (dt : DType) (b : NaiveColumnBlock dt) (cmp : Comparator) (opt : Bitwise)
    (bvBlock : BitVectorBlock) (hnum : bvBlock.num = b.numTuples) (htail : bvBlock.TailClear) :
    (∀ literal : WordUnit, literal.toNat < 2 ^ dt.bits →
      (∀ i, i < b.numTuples → (b.scan cmp literal bvBlock opt).getBit i =
        opt.apply (bvBlock.getBit i) (cmp.holds (b.getTuple i).toNat literal.toNat)) ∧
      ∀ p, b.numTuples ≤ p → p < 64 * (b.scan cmp literal bvBlock opt).numWordUnits →
        (b.scan cmp literal bvBlock opt).getBit p = false) ∧
    ∀ other : NaiveColumnBlock dt,
      (∀ i, i < b.numTuples → (b.scanBlock cmp other.getTuple bvBlock opt).getBit i =
        opt.apply (bvBlock.getBit i)
          (cmp.holds (b.getTuple i).toNat (other.getTuple i).toNat)) ∧
      ∀ p, b.numTuples ≤ p → p < 64 * (b.scanBlock cmp other.getTuple bvBlock opt).numWordUnits →
        (b.scanBlock cmp other.getTuple bvBlock opt).getBit p = false := by
  have hclear : ∀ lit : Nat → BitVec dt.bits, ∀ p, b.numTuples ≤ p →
      p < 64 * (NaiveColumnBlock.scanHelper2 cmp opt b lit bvBlock).numWordUnits →
      (NaiveColumnBlock.scanHelper2 cmp opt b lit bvBlock).getBit p = false := by
    intro lit p hle hp
    refine NaiveColumnBlock.tailClear_scanHelper2 cmp opt b lit hnum htail p ?_ hp
    rw [NaiveColumnBlock.num_scanHelper2, hnum]
    exact hle
  refine ⟨fun literal hliteral => ⟨fun i hi => ?_, hclear _⟩,
    fun other => ⟨fun i hi => ?_, hclear _⟩⟩
  · refine (NaiveColumnBlock.getBit_scanHelper2 cmp opt b _ hnum hi).trans ?_
    rw [BitVec.toNat_setWidth, Nat.mod_eq_of_lt hliteral]
  -- the cast of the other array's tuple undoes the widening of `GetTuple`
  · refine (NaiveColumnBlock.getBit_scanHelper2 cmp opt b _ hnum hi).trans ?_
    rw [BitVec.toNat_setWidth, Nat.mod_eq_of_lt (other.toNat_getTuple_lt i)]

/-- Three elements of eight bits, the first set to `5`, into a new bit vector block:
it is less than `7`, and the bit past the last element is clear. -/
theorem naive_scan_three :
    let b : NaiveColumnBlock .uint8 := (NaiveColumnBlock.new 3).setTuple 0 5#64
    let bvBlock := BitVectorBlock.new 3 (by decide) (by decide)
    (b.scan .kLess 7#64 bvBlock .kAnd).getBit 0 = true ∧
      (b.scan .kLess 7#64 bvBlock .kAnd).getBit 3 = false := by
  intro b bvBlock
  obtain ⟨hscan, -⟩ := naive_scan .uint8 b .kLess .kAnd bvBlock
    (BitVectorBlock.num_new _ _ _) (BitVectorBlock.tailClear_setOnes _)
  obtain ⟨hbits, hclear⟩ := hscan 7#64 (by decide)
  refine ⟨?_, hclear 3 (by decide) ?_⟩
  · rw [hbits 0 (by decide), BitVectorBlock.getBit_new _ _ _ (by decide),
      NaiveColumnBlock.toNat_getTuple_setTuple _ _ _ (by decide)]
    rfl
  · have hpos := (b.scan .kLess 7#64 bvBlock .kAnd).num_pos
    have hwords := BitVectorBlock.numWordUnits_eq (b.scan .kLess 7#64 bvBlock .kAnd)
    omega

end ByteSlice
