import Mathlib
import ByteSlice.BitVectorBlock

/-!
# The run of `ClearTail`

`ClearTail` walks down from the last word in use with an unsigned index, for as long
as a whole word of padding is left, and then masks one word more.  The definitions
below are that run with every subtraction as the machine does it, together with a
record of the words that it accesses and of the amounts by which its mask is shifted.

The record is exact: the words accessed are those from the last one in use down to
the word of the last tuple, and the mask is shifted by what the whole words leave of
the padding.
-/

namespace ByteSlice

open Foundation

/-- What a run of `ClearTail` leaves behind: the storage, the indices of the words
accessed in order, and the amounts of the shifts. -/
structure TailRun where
  data : Vector WordUnit kNumWordsPerBlock
  words : List Nat
  shifts : List Nat

namespace BitVectorBlock

/-- The loop of `ClearTail` and the mask behind it. -/
def tailRunLoop (data : Vector WordUnit kNumWordsPerBlock) (i numEmpty : Nat) : TailRun :=
  if _h : kNumWordBits ≤ numEmpty then
    let rest := tailRunLoop (store data i 0#64) (sizeSub i 1) (sizeSub numEmpty kNumWordBits)
    { rest with words := i :: rest.words }
  else
    { data := store data i (load data i &&& (-1#64) >>> numEmpty)
      words := [i]
      shifts := [numEmpty] }
termination_by numEmpty
decreasing_by
  -- the guard is what keeps `num_empty -= kNumWordBits` from wrapping
  have := kNumWordBits_pos
  rw [sizeSub_of_le _h]
  omega

def tailRun (b : BitVectorBlock) : TailRun :=
  let numEmpty := sizeSub kNumAvxBits (b.num % kNumAvxBits)
  if kNumAvxBits ≠ numEmpty then
    tailRunLoop b.data (sizeSub b.numWordUnits 1) numEmpty
  else
    { data := b.data, words := [], shifts := [] }

/-! ## The loop -/

theorem tailRunLoop_of_le {numEmpty : Nat} (hword : kNumWordBits ≤ numEmpty)
    (data : Vector WordUnit kNumWordsPerBlock) (i : Nat) :
    tailRunLoop data i numEmpty =
      { tailRunLoop (store data i 0#64) (sizeSub i 1) (numEmpty - kNumWordBits) with
        words := i ::
          (tailRunLoop (store data i 0#64) (sizeSub i 1) (numEmpty - kNumWordBits)).words } := by
  rw [tailRunLoop, dif_pos hword, sizeSub_of_le hword]

theorem tailRunLoop_of_lt {numEmpty : Nat} (hword : ¬ kNumWordBits ≤ numEmpty)
    (data : Vector WordUnit kNumWordsPerBlock) (i : Nat) :
    tailRunLoop data i numEmpty =
      { data := store data i (load data i &&& (-1#64) >>> numEmpty)
        words := [i]
        shifts := [numEmpty] } := by
  rw [tailRunLoop, dif_neg hword]

theorem data_tailRunLoop (data : Vector WordUnit kNumWordsPerBlock) (i numEmpty : Nat) :
    (tailRunLoop data i numEmpty).data = clearTailLoop data i numEmpty := by
  induction data, i, numEmpty using clearTailLoop.induct with
  | case1 data i numEmpty hword ih =>
      rw [tailRunLoop_of_le hword, clearTailLoop, dif_pos hword]
      exact ih
  | case2 data i numEmpty hword =>
      rw [tailRunLoop_of_lt hword, clearTailLoop, dif_neg hword]

/-- One round for each whole word of padding, and the mask. -/
theorem length_words_tailRunLoop (data : Vector WordUnit kNumWordsPerBlock) (i numEmpty : Nat) :
    (tailRunLoop data i numEmpty).words.length = numEmpty / kNumWordBits + 1 := by
  induction data, i, numEmpty using clearTailLoop.induct with
  | case1 data i numEmpty hword ih =>
      rw [tailRunLoop_of_le hword, List.length_cons, ih,
        Nat.div_eq_sub_div kNumWordBits_pos hword]
  | case2 data i numEmpty hword =>
      rw [tailRunLoop_of_lt hword, Nat.div_eq_of_lt (Nat.not_le.mp hword)]
      rfl

theorem shifts_tailRunLoop (data : Vector WordUnit kNumWordsPerBlock) (i numEmpty : Nat) :
    (tailRunLoop data i numEmpty).shifts = [numEmpty % kNumWordBits] := by
  induction data, i, numEmpty using clearTailLoop.induct with
  | case1 data i numEmpty hword ih =>
      rw [tailRunLoop_of_le hword, Nat.mod_eq_sub_mod hword]
      exact ih
  | case2 data i numEmpty hword =>
      rw [tailRunLoop_of_lt hword, Nat.mod_eq_of_lt (Nat.not_le.mp hword)]

/-- Which words are accessed does not depend on what they hold. -/
theorem words_tailRunLoop_congr (data data' : Vector WordUnit kNumWordsPerBlock)
    (i numEmpty : Nat) :
    (tailRunLoop data i numEmpty).words = (tailRunLoop data' i numEmpty).words := by
  induction data, i, numEmpty using clearTailLoop.induct generalizing data' with
  | case1 data i numEmpty hword ih =>
      rw [tailRunLoop_of_le hword, tailRunLoop_of_le hword, ih]
  | case2 data i numEmpty hword =>
      rw [tailRunLoop_of_lt hword, tailRunLoop_of_lt hword]

/-- Index and padding reach the end of the words in use together, so that the index
is at the word of the last tuple when less than a word of padding is left. -/
theorem mem_words_tailRunLoop (data : Vector WordUnit kNumWordsPerBlock) (i numEmpty : Nat)
    {num : Nat} (hpos : 0 < num) (hreach : 64 * (i + 1) = num + numEmpty) (pos : Nat) :
    pos ∈ (tailRunLoop data i numEmpty).words ↔ (num - 1) / 64 ≤ pos ∧ pos ≤ i := by
  induction data, i, numEmpty using clearTailLoop.induct with
  | case1 data i numEmpty hword ih =>
      rw [tailRunLoop_of_le hword, List.mem_cons]
      rw [kNumWordBits_eq] at hword ih ⊢
      have hone : 1 ≤ i := by omega
      rw [sizeSub_of_le hone] at ih ⊢
      rw [ih (by omega)]
      omega
  | case2 data i numEmpty hword =>
      rw [tailRunLoop_of_lt hword, List.mem_singleton]
      rw [kNumWordBits_eq] at hword
      omega

/-! ## The whole run -/

/-- `num_empty` is computed without a wrap, and is a whole unit exactly when there is
no padding. -/
theorem kNumAvxBits_eq_numEmpty_iff (b : BitVectorBlock) :
    kNumAvxBits = kNumAvxBits - b.num % kNumAvxBits ↔ b.num % 256 = 0 := by
  rw [kNumAvxBits_eq]
  omega

theorem sizeSub_numEmpty (b : BitVectorBlock) :
    sizeSub kNumAvxBits (b.num % kNumAvxBits) = kNumAvxBits - b.num % kNumAvxBits := by
  refine sizeSub_of_le ?_
  rw [kNumAvxBits_eq]
  omega

/-- There is a word in use, so the index of the last one does not wrap either. -/
theorem sizeSub_numWordUnits (b : BitVectorBlock) :
    sizeSub b.numWordUnits 1 = b.numWordUnits - 1 := by
  have hunits := b.numWordUnits_eq
  have hnum := b.num_pos
  exact sizeSub_of_le (by omega)

theorem tailRun_of_eq {b : BitVectorBlock} (hrest : b.num % 256 = 0) :
    b.tailRun = { data := b.data, words := [], shifts := [] } := by
  unfold tailRun
  dsimp only
  rw [sizeSub_numEmpty, if_neg (not_not.mpr (b.kNumAvxBits_eq_numEmpty_iff.mpr hrest))]

theorem tailRun_of_ne {b : BitVectorBlock} (hrest : b.num % 256 ≠ 0) :
    b.tailRun = tailRunLoop b.data (b.numWordUnits - 1) (256 - b.num % 256) := by
  unfold tailRun
  dsimp only
  rw [sizeSub_numEmpty, sizeSub_numWordUnits, if_pos (mt b.kNumAvxBits_eq_numEmpty_iff.mp hrest),
    kNumAvxBits_eq]

/-- The run computes what `clearTail` does. -/
theorem data_tailRun (b : BitVectorBlock) : b.tailRun.data = b.clearTail.data := by
  unfold tailRun clearTail
  dsimp only
  rw [sizeSub_numEmpty, sizeSub_numWordUnits]
  split
  · exact data_tailRunLoop _ _ _
  · rfl

theorem withData_tailRun (b : BitVectorBlock) :
    { b with data := b.tailRun.data } = b.clearTail := by
  rw [data_tailRun]
  unfold clearTail
  dsimp only
  split <;> rfl

theorem words_tailRun_congr {b b' : BitVectorBlock} (hnum : b.num = b'.num) :
    b.tailRun.words = b'.tailRun.words := by
  unfold tailRun
  rw [numWordUnits_congr hnum, hnum]
  dsimp only
  split
  · exact words_tailRunLoop_congr _ _ _ _
  · rfl

/-- The words accessed, exactly. -/
theorem mem_words_tailRun (b : BitVectorBlock) (pos : Nat) :
    pos ∈ b.tailRun.words ↔
      b.num % 256 ≠ 0 ∧ (b.num - 1) / 64 ≤ pos ∧ pos < b.numWordUnits := by
  have hunits := b.numWordUnits_eq
  have hnum := b.num_pos
  by_cases hrest : b.num % 256 = 0
  · rw [tailRun_of_eq hrest]
    simp [hrest]
  · rw [tailRun_of_ne hrest, mem_words_tailRunLoop _ _ _ hnum (by omega)]
    omega

theorem length_words_tailRun (b : BitVectorBlock) : b.tailRun.words.length ≤ 4 := by
  by_cases hrest : b.num % 256 = 0
  · rw [tailRun_of_eq hrest]
    exact Nat.zero_le 4
  · rw [tailRun_of_ne hrest, length_words_tailRunLoop, kNumWordBits_eq]
    omega

theorem shift_lt_of_mem {b : BitVectorBlock} {amount : Nat} (hmem : amount ∈ b.tailRun.shifts) :
    amount < kNumWordBits := by
  by_cases hrest : b.num % 256 = 0
  · rw [tailRun_of_eq hrest] at hmem
    exact absurd hmem List.not_mem_nil
  · rw [tailRun_of_ne hrest, shifts_tailRunLoop, List.mem_singleton] at hmem
    rw [hmem]
    exact Nat.mod_lt _ kNumWordBits_pos

end BitVectorBlock

/-- **`ClearTail` clears exactly the tail.**  On every block, whatever its words hold:
the run ends after at most four words; without a rest it accesses none, else those in use
from the word of the last tuple on; and no shift is as wide as a word.  The bits in use from
`num` on are `0` then, and those below `num` are what they were. -/
theorem clearTail_clears_tail (b : BitVectorBlock) :
    b.tailRun.data = b.clearTail.data ∧
      b.tailRun.words.length ≤ 4 ∧
      (∀ pos, pos ∈ b.tailRun.words ↔
        b.num % 256 ≠ 0 ∧ (b.num - 1) / 64 ≤ pos ∧ pos < b.numWordUnits) ∧
      (∀ amount ∈ b.tailRun.shifts, amount < kNumWordBits) ∧
      (∀ p, b.num ≤ p → p < kNumWordBits * b.numWordUnits → b.clearTail.getBit p = false) ∧
      ∀ p, p < b.num → b.clearTail.getBit p = b.getBit p := by
  refine ⟨b.data_tailRun, b.length_words_tailRun, b.mem_words_tailRun,
    fun amount hamount => BitVectorBlock.shift_lt_of_mem hamount, fun p hnum hp => ?_,
    fun p hp => b.getBit_clearTail_of_lt hp⟩
  have hword := BitVectorBlock.word_lt_of_lt hp
  rw [b.getBit_clearTail hword, if_pos ⟨hnum, hp⟩]

end ByteSlice
