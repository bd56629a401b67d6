import Mathlib
import ByteSlice.Foundation.BitWords
import ByteSlice.Foundation.Cells
import ByteSlice.Types

/-!
# `BitVectorBlock`

Every 64 tuples are placed in one word, the tuple with the smaller id at the
less significant bit.  A block always owns the storage of a full block but uses
only `num_word_units` words of it, a count rounded up to whole 256-bit units.

The constructor's assertion and the fact that blocks are only created for at
least one tuple are fields, so that the word count and the storage bound hold
of every value of the type.  `num_word_units_` is fixed by the constructor's
initialiser and written nowhere else; it is the definition `numWordUnits`.

The rest of the module states what each operation does to the bits.  `TailClear`
is the invariant on which counting and iteration depend.
-/

namespace ByteSlice

open Foundation

/-- The words of a full block's storage: `CEIL(kNumTuplesPerBlock, kNumWordBits)`. -/
def kNumWordsPerBlock : Nat := ceil kNumTuplesPerBlock kNumWordBits

theorem kNumWordsPerBlock_eq : kNumWordsPerBlock = 16384 := by decide

structure BitVectorBlock where
  num : Nat
  data : Vector WordUnit kNumWordsPerBlock
  num_pos : 0 < num
  num_le : num ≤ kNumTuplesPerBlock

namespace BitVectorBlock

/-- `num_word_units_` as computed by the constructor's initialiser. -/
def numWordUnits (b : BitVectorBlock) : Nat :=
  ceil b.num kNumAvxBits * (kNumAvxBits / kNumWordBits)

def getWordUnit (b : BitVectorBlock) (pos : Nat) : WordUnit :=
  load b.data pos

def setWordUnit (b : BitVectorBlock) (word : WordUnit) (pos : Nat) : BitVectorBlock :=
  { b with data := store b.data pos word }

/-- The loop of `ClearTail`: whole words are zeroed downwards while at least a
word of padding is left, and the last word touched is masked. -/
def clearTailLoop (data : Vector WordUnit kNumWordsPerBlock) (i numEmpty : Nat) :
    Vector WordUnit kNumWordsPerBlock :=
  if _h : kNumWordBits ≤ numEmpty then
    clearTailLoop (store data i 0#64) (sizeSub i 1) (numEmpty - kNumWordBits)
  else
    store data i (load data i &&& (-1#64) >>> numEmpty)
termination_by numEmpty
decreasing_by
  have := kNumWordBits_pos
  omega

def clearTail (b : BitVectorBlock) : BitVectorBlock :=
  let numEmpty := kNumAvxBits - b.num % kNumAvxBits
  if kNumAvxBits ≠ numEmpty then
    { b with data := clearTailLoop b.data (b.numWordUnits - 1) numEmpty }
  else
    b

/-- `memset` of the words in use. -/
def fillWords (word : WordUnit) (b : BitVectorBlock) : BitVectorBlock :=
  forLoop b.numWordUnits 1 Nat.one_pos (fun i _ b => b.setWordUnit word i) 0 b

def setOnes (b : BitVectorBlock) : BitVectorBlock :=
  (fillWords (-1#64) b).clearTail

def setZeros (b : BitVectorBlock) : BitVectorBlock :=
  fillWords 0#64 b

/-- The constructor.  The storage comes from the allocator; every word in use is
written by `SetOnes` before it is read. -/
def new (num : Nat) (hpos : 0 < num) (hle : num ≤ kNumTuplesPerBlock) : BitVectorBlock :=
  setOnes { num := num, data := Vector.replicate _ 0#64, num_pos := hpos, num_le := hle }

def getBit (b : BitVectorBlock) (pos : Nat) : Bool :=
  let wordId := pos / kNumWordBits
  let offset := pos % kNumWordBits
  let mask : WordUnit := 1#64 <<< offset
  b.getWordUnit wordId &&& mask != 0#64

def setBit (b : BitVectorBlock) (pos : Nat) : BitVectorBlock :=
  let wordId := pos / kNumWordBits
  let offset := pos % kNumWordBits
  let mask : WordUnit := 1#64 <<< offset
  b.setWordUnit (b.getWordUnit wordId ||| mask) wordId

def unsetBit (b : BitVectorBlock) (pos : Nat) : BitVectorBlock :=
  let wordId := pos / kNumWordBits
  let offset := pos % kNumWordBits
  let mask : WordUnit := 1#64 <<< offset
  b.setWordUnit (b.getWordUnit wordId &&& ~~~mask) wordId

/-- `POPCNT64` summed over the words in use. -/
def countOnes (b : BitVectorBlock) : Nat :=
  forLoop b.numWordUnits 1 Nat.one_pos
    (fun i _ count => count + (b.getWordUnit i).cpop.toNat) 0 0

/-- The common loop of `And`, `Or` and `Set`: word by word, combine with the
word that the argument has at that moment.  The argument may be the block being
written, which is why it is read through the current state. -/
def combineWords (op : WordUnit → WordUnit → WordUnit)
    (block : BitVectorBlock → Nat → WordUnit) (b : BitVectorBlock) : BitVectorBlock :=
  (forLoop b.numWordUnits 1 Nat.one_pos
    (fun i _ b => b.setWordUnit (op (b.getWordUnit i) (block b i)) i) 0 b).clearTail

def and (b block : BitVectorBlock) : BitVectorBlock :=
  combineWords (· &&& ·) (fun _ i => block.getWordUnit i) b

def or (b block : BitVectorBlock) : BitVectorBlock :=
  combineWords (· ||| ·) (fun _ i => block.getWordUnit i) b

def set (b block : BitVectorBlock) : BitVectorBlock :=
  combineWords (fun _ word => word) (fun _ i => block.getWordUnit i) b

/-- `block->And(block)` -/
def andThis (b : BitVectorBlock) : BitVectorBlock :=
  combineWords (· &&& ·) (fun b i => b.getWordUnit i) b

/-- `block->Or(block)` -/
def orThis (b : BitVectorBlock) : BitVectorBlock :=
  combineWords (· ||| ·) (fun b i => b.getWordUnit i) b

/-! ## Words in use -/

theorem numWordUnits_eq (b : BitVectorBlock) :
    b.numWordUnits = 4 * ((b.num + 255) / 256) := by
  unfold numWordUnits
  rw [ceil_eq_ceilDiv b.num_pos (by decide), Nat.ceilDiv_eq_add_pred_div]
  simp only [kNumAvxBits_eq, kNumWordBits_eq]
  omega

theorem num_le_numWordUnits (b : BitVectorBlock) : b.num ≤ 64 * b.numWordUnits := by
  rw [numWordUnits_eq]
  omega

theorem numWordUnits_le (b : BitVectorBlock) : b.numWordUnits ≤ kNumWordsPerBlock := by
  have hle := b.num_le
  rw [kNumTuplesPerBlock_eq] at hle
  rw [numWordUnits_eq, kNumWordsPerBlock_eq]
  omega

theorem numWordUnits_congr {b b' : BitVectorBlock} (h : b.num = b'.num) :
    b.numWordUnits = b'.numWordUnits := by
  unfold numWordUnits
  rw [h]

/-- A position of a word in use lies inside the storage. -/
theorem word_lt_of_lt {b : BitVectorBlock} {p : Nat} (hp : p < 64 * b.numWordUnits) :
    p / 64 < kNumWordsPerBlock := by
  have := b.numWordUnits_le
  omega

@[simp] theorem num_setWordUnit (b : BitVectorBlock) (word : WordUnit) (pos : Nat) :
    (b.setWordUnit word pos).num = b.num := rfl

/-- The words of a block as an array of cells. -/
def words : Cells BitVectorBlock WordUnit where
  size := kNumWordsPerBlock
  get := getWordUnit
  set b i word := b.setWordUnit word i
  get_set b i word _ hj := load_store b.data i word hj

/-- A block is determined by its size and its words. -/
theorem ext_words {b b' : BitVectorBlock} (hnum : b.num = b'.num)
    (h : ∀ k, k < kNumWordsPerBlock → b.getWordUnit k = b'.getWordUnit k) : b = b' := by
  obtain ⟨num, data, hpos, hle⟩ := b
  obtain ⟨num', data', hpos', hle'⟩ := b'
  obtain rfl : num = num' := hnum
  obtain rfl : data = data' := ext_load h
  rfl

/-- A loop that only writes words keeps the size. -/
theorem num_forLoop_setWordUnit {stop step : Nat} (hstep : 0 < step)
    (word : Nat → BitVectorBlock → WordUnit) (pos : Nat → Nat) (b : BitVectorBlock) :
    (forLoop stop step hstep (fun i _ b => b.setWordUnit (word i b) (pos i)) 0 b).num =
      b.num := by
  obtain ⟨_, _, _, _, _, h⟩ := forLoop_rule hstep
    (fun i (_ : i < stop) (b : BitVectorBlock) => b.setWordUnit (word i b) (pos i))
    (fun _ s => s.num = b.num)
    (fun _ _ _ hs => hs) 0 b rfl
  exact h

/-! ## Bits -/

theorem getBit_eq (b : BitVectorBlock) (p : Nat) : b.getBit p = bitAt b.getWordUnit p := by
  have hlt : p % 64 < 64 := Nat.mod_lt _ (by omega)
  unfold getBit bitAt
  simp only [kNumWordBits_eq]
  rw [show (1#64 <<< (p % 64) : WordUnit) = BitVec.twoPow 64 (p % 64) from
    (BitVec.twoPow_eq 64 (p % 64)).symm, BitVec.and_twoPow]
  cases hbit : (b.getWordUnit (p / 64)).getLsbD (p % 64) with
  | false => simp
  | true =>
      have hne : BitVec.twoPow 64 (p % 64) ≠ 0#64 := by
        intro h
        have hself : (BitVec.twoPow 64 (p % 64)).getLsbD (p % 64) = true := by
          simp [hlt]
        rw [h] at hself
        simp at hself
      simp [hne]

/-- Storing a word replaces its 64 bits. -/
theorem bitAt_store (data : Vector WordUnit kNumWordsPerBlock) (k : Nat) (word : WordUnit)
    {p : Nat} (hp : p / 64 < kNumWordsPerBlock) :
    bitAt (load (store data k word)) p =
      if k = p / 64 then word.getLsbD (p % 64) else bitAt (load data) p := by
  unfold bitAt
  rw [load_store _ _ _ hp]
  split <;> rfl

theorem getBit_setWordUnit (b : BitVectorBlock) (word : WordUnit) (k : Nat) {p : Nat}
    (hp : p / 64 < kNumWordsPerBlock) :
    (b.setWordUnit word k).getBit p =
      if k = p / 64 then word.getLsbD (p % 64) else b.getBit p := by
  rw [getBit_eq, getBit_eq]
  exact bitAt_store b.data k word hp

/-- The mask of `ClearTail` keeps the bits that are not padding. -/
theorem getLsbD_ones_shiftRight (numEmpty j : Nat) :
    ((-1#64 : WordUnit) >>> numEmpty).getLsbD j = decide (numEmpty + j < 64) := by
  rw [BitVec.getLsbD_ushiftRight, show (-1#64 : WordUnit) = BitVec.allOnes 64 by decide,
    BitVec.getLsbD_allOnes]

/-- All bits at positions past `num`, up to the last word in use, are `0`. -/
def TailClear (b : BitVectorBlock) : Prop :=
  ∀ p, b.num ≤ p → p < 64 * b.numWordUnits → b.getBit p = false

/-- The clearing loop, at a word index and a padding that together reach the end
of the words in use: bits from `num` up to that end become `0`, and no other
bit changes.  The relation between index and padding is its invariant. -/
theorem bitAt_clearTailLoop (data : Vector WordUnit kNumWordsPerBlock) (i numEmpty : Nat)
    {num : Nat} (hpos : 0 < num) (hreach : 64 * (i + 1) = num + numEmpty)
    {p : Nat} (hp : p / 64 < kNumWordsPerBlock) :
    bitAt (load (clearTailLoop data i numEmpty)) p =
      if num ≤ p ∧ p < 64 * (i + 1) then false else bitAt (load data) p := by
  induction data, i, numEmpty using clearTailLoop.induct with
  | case1 data i numEmpty hword ih =>
      rw [clearTailLoop, dif_pos hword]
      rw [kNumWordBits_eq] at hword ih ⊢
      -- a whole word of padding is left, so there is a word before this one and `i--` does not wrap
      have hone : 1 ≤ i := by omega
      rw [sizeSub_of_le hone] at ih ⊢
      rw [ih (by omega), bitAt_store _ _ _ hp, BitVec.getLsbD_zero]
      by_cases hin : num ≤ p ∧ p < 64 * (i + 1)
      · rw [if_pos hin]
        by_cases hword' : p < 64 * (i - 1 + 1)
        · rw [if_pos ⟨hin.1, hword'⟩]
        · rw [if_neg (by omega), if_pos (by omega)]
      · rw [if_neg hin, if_neg (by omega), if_neg (by omega)]
  | case2 data i numEmpty hword =>
      rw [clearTailLoop, dif_neg hword, bitAt_store _ _ _ hp]
      rw [kNumWordBits_eq] at hword
      -- the last word touched: the mask keeps its `64 - numEmpty` low bits
      by_cases hip : i = p / 64
      · subst hip
        rw [if_pos rfl, BitVec.getLsbD_and, getLsbD_ones_shiftRight]
        by_cases hin : num ≤ p ∧ p < 64 * (p / 64 + 1)
        · rw [if_pos hin, decide_eq_false (by omega), Bool.and_false]
        · rw [if_neg hin, decide_eq_true (by omega), Bool.and_true]
          rfl
      · rw [if_neg hip, if_neg (by omega)]

/-- `ClearTail` clears exactly the tail. -/
theorem getBit_clearTail (b : BitVectorBlock) {p : Nat} (hp : p / 64 < kNumWordsPerBlock) :
    b.clearTail.getBit p =
      if b.num ≤ p ∧ p < 64 * b.numWordUnits then false else b.getBit p := by
  have hnum := b.num_pos
  have hunits := b.numWordUnits_eq
  have havx := kNumAvxBits_eq
  unfold clearTail
  dsimp only
  -- `num` is a multiple of 256 exactly when the padding computed is a whole unit
  by_cases hfull : kNumAvxBits ≠ kNumAvxBits - b.num % kNumAvxBits
  · rw [if_pos hfull, getBit_eq, getBit_eq]
    rw [havx] at hfull ⊢
    have hloop := bitAt_clearTailLoop b.data (b.numWordUnits - 1) (256 - b.num % 256)
      hnum (by omega) hp
    rw [show b.numWordUnits - 1 + 1 = b.numWordUnits by omega] at hloop
    exact hloop
  · rw [if_neg hfull]
    rw [havx] at hfull
    rw [if_neg (by omega)]

@[simp] theorem num_clearTail (b : BitVectorBlock) : b.clearTail.num = b.num := by
  unfold clearTail
  dsimp only
  split <;> rfl

theorem tailClear_clearTail (b : BitVectorBlock) : b.clearTail.TailClear := by
  intro p hnum hp
  rw [num_clearTail] at hnum
  rw [numWordUnits_congr b.num_clearTail] at hp
  rw [getBit_clearTail b (word_lt_of_lt hp), if_pos ⟨hnum, hp⟩]

theorem getBit_clearTail_of_lt (b : BitVectorBlock) {p : Nat} (hp : p < b.num) :
    b.clearTail.getBit p = b.getBit p := by
  have := b.num_le_numWordUnits
  rw [getBit_clearTail b (word_lt_of_lt (b := b) (by omega)), if_neg (by omega)]

/-! ## Filling and combining -/

@[simp] theorem num_fillWords (word : WordUnit) (b : BitVectorBlock) :
    (fillWords word b).num = b.num :=
  num_forLoop_setWordUnit _ (fun _ _ => word) (fun i => i) b

theorem getWordUnit_fillWords (word : WordUnit) (b : BitVectorBlock) {k : Nat}
    (hk : k < kNumWordsPerBlock) :
    (fillWords word b).getWordUnit k = if k < b.numWordUnits then word else b.getWordUnit k :=
  words.get_forLoop_set_one (fun _ _ => word) b.numWordUnits b hk

@[simp] theorem num_setOnes (b : BitVectorBlock) : b.setOnes.num = b.num := by
  simp [setOnes]

@[simp] theorem num_setZeros (b : BitVectorBlock) : b.setZeros.num = b.num := by
  simp [setZeros]

theorem tailClear_setOnes (b : BitVectorBlock) : b.setOnes.TailClear :=
  tailClear_clearTail _

theorem getBit_setOnes (b : BitVectorBlock) {p : Nat} (hp : p < b.num) :
    b.setOnes.getBit p = true := by
  have hunits := b.num_le_numWordUnits
  have hword : p / 64 < kNumWordsPerBlock := word_lt_of_lt (b := b) (by omega)
  unfold setOnes
  rw [getBit_clearTail_of_lt _ (by simpa using hp), getBit_eq]
  unfold bitAt
  have hones := getLsbD_ones_shiftRight 0 (p % 64)
  rw [BitVec.ushiftRight_zero, Nat.zero_add, decide_eq_true (Nat.mod_lt p (by omega))] at hones
  rw [getWordUnit_fillWords _ _ hword, if_pos (by omega), hones]

theorem getBit_setZeros (b : BitVectorBlock) {p : Nat} (hp : p < 64 * b.numWordUnits) :
    b.setZeros.getBit p = false := by
  unfold setZeros
  rw [getBit_eq]
  unfold bitAt
  rw [getWordUnit_fillWords _ _ (word_lt_of_lt hp), if_pos (by omega), BitVec.getLsbD_zero]

theorem tailClear_setZeros (b : BitVectorBlock) : b.setZeros.TailClear := by
  intro p _ hp
  rw [numWordUnits_congr b.num_setZeros] at hp
  exact b.getBit_setZeros hp

@[simp] theorem num_new (num : Nat) (hpos : 0 < num) (hle : num ≤ kNumTuplesPerBlock) :
    (new num hpos hle).num = num := by
  simp [new]

theorem getBit_new (num : Nat) (hpos : 0 < num) (hle : num ≤ kNumTuplesPerBlock) {p : Nat}
    (hp : p < num) : (new num hpos hle).getBit p = true :=
  getBit_setOnes _ hp

@[simp] theorem num_combineWords (op : WordUnit → WordUnit → WordUnit)
    (block : BitVectorBlock → Nat → WordUnit) (b : BitVectorBlock) :
    (combineWords op block b).num = b.num := by
  unfold combineWords
  rw [num_clearTail]
  exact num_forLoop_setWordUnit _ (fun i b => op (b.getWordUnit i) (block b i)) (fun i => i) b

theorem tailClear_combineWords (op : WordUnit → WordUnit → WordUnit)
    (block : BitVectorBlock → Nat → WordUnit) (b : BitVectorBlock) :
    (combineWords op block b).TailClear :=
  tailClear_clearTail _

/-- Combining with another block acts on the bits below `num` as the Boolean
operation that the word operation computes in each bit. -/
theorem getBit_combineWords {op : WordUnit → WordUnit → WordUnit} {bitOp : Bool → Bool → Bool}
    (hop : ∀ (x y : WordUnit) (j : Nat),
      (op x y).getLsbD j = bitOp (x.getLsbD j) (y.getLsbD j))
    (b block : BitVectorBlock) {p : Nat} (hp : p < b.num) :
    (combineWords op (fun _ i => block.getWordUnit i) b).getBit p =
      bitOp (b.getBit p) (block.getBit p) := by
  have hunits := b.num_le_numWordUnits
  have hword : p / 64 < kNumWordsPerBlock := word_lt_of_lt (b := b) (by omega)
  have hloop := words.get_forLoop_set_one
    (fun i word => op word (block.getWordUnit i)) b.numWordUnits b hword
  rw [if_pos (by omega)] at hloop
  unfold combineWords
  rw [getBit_clearTail_of_lt]
  · rw [getBit_eq, getBit_eq, getBit_eq]
    unfold bitAt
    rw [← hop]
    exact congrArg (fun word : WordUnit => word.getLsbD (p % 64)) hloop
  · rw [num_forLoop_setWordUnit _ (fun i b => op (b.getWordUnit i) (block.getWordUnit i))
      (fun i => i)]
    exact hp

/-- A block combined with itself reads, in each iteration, a word that the loop
has not written yet, so the alias makes no difference. -/
theorem combineWords_this (op : WordUnit → WordUnit → WordUnit) (b : BitVectorBlock) :
    combineWords op (fun b i => b.getWordUnit i) b =
      combineWords op (fun _ i => b.getWordUnit i) b := by
  unfold combineWords
  congr 1
  refine ext_words ?_ fun k hk => ?_
  · rw [num_forLoop_setWordUnit _ (fun i b => op (b.getWordUnit i) (b.getWordUnit i))
        (fun i => i),
      num_forLoop_setWordUnit _ (fun i c => op (c.getWordUnit i) (b.getWordUnit i))
        (fun i => i)]
  · have hthis := words.get_forLoop_set_one (fun _ word => op word word) b.numWordUnits b hk
    have hother := words.get_forLoop_set_one
      (fun i word => op word (b.getWordUnit i)) b.numWordUnits b hk
    exact hthis.trans hother.symm

theorem andThis_eq (b : BitVectorBlock) : b.andThis = b.and b :=
  combineWords_this _ b

theorem orThis_eq (b : BitVectorBlock) : b.orThis = b.or b :=
  combineWords_this _ b

theorem getBit_and (b block : BitVectorBlock) {p : Nat} (hp : p < b.num) :
    (b.and block).getBit p = (b.getBit p && block.getBit p) :=
  getBit_combineWords (fun _ _ _ => BitVec.getLsbD_and) b block hp

theorem getBit_or (b block : BitVectorBlock) {p : Nat} (hp : p < b.num) :
    (b.or block).getBit p = (b.getBit p || block.getBit p) :=
  getBit_combineWords (fun _ _ _ => BitVec.getLsbD_or) b block hp

/-! ## Single bits and counting -/

@[simp] theorem num_setBit (b : BitVectorBlock) (pos : Nat) : (b.setBit pos).num = b.num := rfl

@[simp] theorem num_unsetBit (b : BitVectorBlock) (pos : Nat) : (b.unsetBit pos).num = b.num := rfl

theorem getLsbD_mask (pos j : Nat) :
    (1#64 <<< (pos % 64) : WordUnit).getLsbD j = (decide (pos % 64 = j)) := by
  have hlt : pos % 64 < 64 := Nat.mod_lt _ (by omega)
  rw [← BitVec.twoPow_eq, BitVec.getLsbD_twoPow]
  simp only [hlt, decide_true, Bool.true_and]

/-- Rewriting the word of `pos` bit by bit with a function that only acts under the mask
acts on the bit at `pos`. -/
theorem getBit_writeMasked (bitOp : Bool → Bool → Bool) (hkeep : ∀ bit, bitOp false bit = bit)
    (b : BitVectorBlock) (pos : Nat) {word : WordUnit}
    (hword : ∀ j, j < 64 → word.getLsbD j =
      bitOp (decide (pos % 64 = j)) ((b.getWordUnit (pos / 64)).getLsbD j))
    {p : Nat} (hp : p / 64 < kNumWordsPerBlock) :
    (b.setWordUnit word (pos / 64)).getBit p = bitOp (decide (p = pos)) (b.getBit p) := by
  rw [getBit_setWordUnit _ _ _ hp]
  by_cases hsame : pos / 64 = p / 64
  · have heq : p = pos ↔ pos % 64 = p % 64 := by omega
    rw [if_pos hsame, hword _ (Nat.mod_lt p (by omega)), hsame, getBit_eq]
    simp only [heq]
    rfl
  · have hne : p ≠ pos := fun h => hsame (by rw [h])
    rw [if_neg hsame, decide_eq_false hne, hkeep]

theorem getBit_setBit (b : BitVectorBlock) (pos : Nat) {p : Nat}
    (hp : p / 64 < kNumWordsPerBlock) :
    (b.setBit pos).getBit p = (decide (p = pos) || b.getBit p) := by
  refine getBit_writeMasked (fun mask bit => mask || bit) Bool.false_or b pos (fun j _ => ?_) hp
  rw [kNumWordBits_eq, BitVec.getLsbD_or, getLsbD_mask, Bool.or_comm]

theorem getBit_unsetBit (b : BitVectorBlock) (pos : Nat) {p : Nat}
    (hp : p / 64 < kNumWordsPerBlock) :
    (b.unsetBit pos).getBit p = (!decide (p = pos) && b.getBit p) := by
  refine getBit_writeMasked (fun mask bit => !mask && bit) Bool.true_and b pos
    (fun j hj => ?_) hp
  rw [kNumWordBits_eq, BitVec.getLsbD_and, BitVec.getLsbD_not, getLsbD_mask, decide_eq_true hj,
    Bool.true_and, Bool.and_comm]

theorem tailClear_setBit {b : BitVectorBlock} (h : b.TailClear) {pos : Nat}
    (hpos : pos < b.num) : (b.setBit pos).TailClear := by
  intro p hnum hp
  have hne : p ≠ pos := by
    rw [num_setBit] at hnum
    omega
  rw [getBit_setBit _ _ (word_lt_of_lt (b := b) hp), h p hnum hp]
  simp [hne]

theorem tailClear_unsetBit {b : BitVectorBlock} (h : b.TailClear) (pos : Nat) :
    (b.unsetBit pos).TailClear := by
  intro p hnum hp
  rw [getBit_unsetBit _ _ (word_lt_of_lt (b := b) hp), h p hnum hp, Bool.and_false]

/-- With a clear tail, `CountOnes` counts the set bits below `num`. -/
theorem countOnes_eq {b : BitVectorBlock} (h : b.TailClear) :
    b.countOnes = (positions b.getBit b.num).length := by
  unfold countOnes
  rw [forLoop_eq_foldl Nat.one_pos (fun i count => count + (b.getWordUnit i).cpop.toNat)]
  -- the words past `num` are read too; the clear tail makes them count nothing
  have hones : b.numWordUnits ⌈/⌉ 1 = b.numWordUnits := by
    simp
  simp only [hones, Nat.mul_one]
  rw [foldl_cpop_eq, ← positions_of_clear b.num_le_numWordUnits h]
  rw [positions_congr fun p _ => (b.getBit_eq p).symm]

end BitVectorBlock

end ByteSlice
