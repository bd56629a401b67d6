import Mathlib
import ByteSlice.ByteSliceScan

/-!
# Left padding

The second template argument says on which side a code is padded to whole bytes.  With
padding on the left nothing is shifted: the bytes of the written value are stored, those of
the masked literal are compared.  That is what a block padded on the right does whose
codes fill their bytes, so `asFull` carries everything over and no scan is proved twice.

The difference is in what a write keeps.  On the right a code is reduced to its width, on the
left to its bytes only.
-/

namespace ByteSlice

open Foundation

/-- The width of the bytes that codes of the width take. -/
def BitWidth.full (w : BitWidth) : BitWidth where
  bits := 8 * ByteSliceColumnBlock.kNumBytesPerCode w
  pos := Nat.mul_pos (by decide) (ByteSliceColumnBlock.kNumBytesPerCode_pos w)
  le := Nat.mul_le_mul_left 8 (ByteSliceColumnBlock.kNumBytesPerCode_le w)

namespace ByteSliceColumnBlock

variable {w : BitWidth}

theorem kNumBytesPerCode_full (w : BitWidth) : kNumBytesPerCode w.full = kNumBytesPerCode w := by
  rw [kNumBytesPerCode_eq]
  show (8 * kNumBytesPerCode w + 7) / 8 = kNumBytesPerCode w
  omega

theorem kNumPaddingBits_full (w : BitWidth) : kNumPaddingBits w.full = 0 := by
  have hsum := bits_add_kNumPaddingBits w.full
  rw [kNumBytesPerCode_full] at hsum
  have hbits : w.full.bits = 8 * kNumBytesPerCode w := rfl
  omega

theorem bits_le_full (w : BitWidth) : w.bits ≤ w.full.bits := by
  have hsum := bits_add_kNumPaddingBits w
  have hbits : w.full.bits = 8 * kNumBytesPerCode w := rfl
  omega

/-- The same bytes as codes that fill them. -/
def asFull (b : ByteSliceColumnBlock w .kLeft) : ByteSliceColumnBlock w.full .kRight where
  numTuples := b.numTuples
  data := b.data

theorem getTuple_asFull (b : ByteSliceColumnBlock w .kLeft) (pos : Nat) :
    b.asFull.getTuple pos = b.getTuple pos := by
  unfold getTuple
  rw [kNumBytesPerCode_full, kNumPaddingBits_full]
  exact BitVec.ushiftRight_zero _

theorem asFull_setTuple (b : ByteSliceColumnBlock w .kLeft) (pos : Nat) (value : WordUnit) :
    (b.setTuple pos value).asFull = b.asFull.setTuple pos value := by
  unfold setTuple
  rw [kNumBytesPerCode_full, kNumPaddingBits_full, BitVec.shiftLeft_zero]
  rcases kNumBytesPerCode_cases w with h | h | h | h <;> rw [h] <;> rfl

theorem paddingClean_asFull (b : ByteSliceColumnBlock w .kLeft) : b.asFull.PaddingClean := by
  intro p _
  rw [kNumPaddingBits_full]
  exact one_dvd _

theorem scanSlices_full (cmp : Comparator) (opt : Bitwise) (mask : BitVec 32)
    (slice1 slice2 : Nat → AvxUnit) :
    scanSlices w.full cmp opt mask slice1 slice2 = scanSlices w cmp opt mask slice1 slice2 := by
  unfold scanSlices scanKernel2
  rw [kNumBytesPerCode_full]

theorem scanHelper2_asFull (cmp : Comparator) (opt : Bitwise) (b : ByteSliceColumnBlock w .kLeft)
    (operand : Nat → Nat → AvxUnit) (bvblock : BitVectorBlock) :
    scanHelper2 cmp opt b.asFull operand bvblock = scanHelper2 cmp opt b operand bvblock := by
  unfold scanHelper2 scanWord bitvectorWord
  simp only [scanSlices_full]
  rfl

/-- The literal is masked to the width of the codes all the same. -/
theorem maskLiteral_full (w : BitWidth) (literal : WordUnit) (byteId : Nat) :
    maskLiteral w.full .kRight (literal &&& kCodeMask w) byteId =
      maskLiteral w .kLeft literal byteId := by
  have hmask : literal &&& kCodeMask w &&& kCodeMask w.full = literal &&& kCodeMask w := by
    apply BitVec.eq_of_toNat_eq
    rw [toNat_and_kCodeMask, toNat_and_kCodeMask]
    exact Nat.mod_mod_of_dvd' (Nat.pow_dvd_pow 2 (bits_le_full w))
  unfold maskLiteral
  dsimp only
  rw [hmask, kNumBytesPerCode_full, kNumPaddingBits_full, BitVec.shiftLeft_zero]

theorem scan_asFull (b : ByteSliceColumnBlock w .kLeft) (cmp : Comparator) (literal : WordUnit)
    (bvblock : BitVectorBlock) (opt : Bitwise) :
    b.asFull.scan cmp (literal &&& kCodeMask w) bvblock opt = b.scan cmp literal bvblock opt := by
  unfold scan
  rw [scanHelper2_asFull]
  simp only [maskLiteral_full]

theorem scanBlock_asFull (b otherBlock : ByteSliceColumnBlock w .kLeft) (cmp : Comparator)
    (bvblock : BitVectorBlock) (opt : Bitwise) :
    b.asFull.scanBlock cmp otherBlock.asFull bvblock opt = b.scanBlock cmp otherBlock bvblock opt :=
  scanHelper2_asFull cmp opt b _ bvblock

theorem toNat_getTuple_setTuple_left (b : ByteSliceColumnBlock w .kLeft) (q : Nat)
    (value : WordUnit) {p : Nat} (hp : p < kNumTuplesPerBlock) :
    ((b.setTuple q value).getTuple p).toNat =
      if q = p then value.toNat % 2 ^ w.full.bits else (b.getTuple p).toNat := by
  rw [← getTuple_asFull, asFull_setTuple, ← getTuple_asFull]
  exact b.asFull.toNat_getTuple_setTuple q value hp

theorem getBit_scan_left (b : ByteSliceColumnBlock w .kLeft) (cmp : Comparator)
    (literal : WordUnit) (opt : Bitwise) {bvblock : BitVectorBlock}
    (hnum : bvblock.num = b.numTuples) {p : Nat} (hp : p < b.numTuples) :
    (b.scan cmp literal bvblock opt).getBit p = opt.apply (bvblock.getBit p)
      (cmp.holds (b.getTuple p).toNat (literal.toNat % 2 ^ w.bits)) := by
  rw [← scan_asFull, getBit_scan cmp _ opt b.paddingClean_asFull hnum hp, getTuple_asFull,
    toNat_and_kCodeMask, Nat.mod_mod_of_dvd' (Nat.pow_dvd_pow 2 (bits_le_full w))]

/-! ## Runs of writes -/

/-- What a sequence of writes has left at each position. -/
def lastWritten (writes : List (Nat × WordUnit)) : Nat → Option WordUnit :=
  writes.foldl (fun last write => Function.update last write.1 (some write.2)) fun _ => none

/-- `SetTuple`, one after the other. -/
def setTuples {dir : Direction} (b : ByteSliceColumnBlock w dir)
    (writes : List (Nat × WordUnit)) : ByteSliceColumnBlock w dir :=
  writes.foldl (fun b write => b.setTuple write.1 write.2) b

variable {dir : Direction}

theorem setTuples_append_singleton (b : ByteSliceColumnBlock w dir)
    (writes : List (Nat × WordUnit)) (q : Nat) (value : WordUnit) :
    b.setTuples (writes ++ [(q, value)]) = (b.setTuples writes).setTuple q value :=
  List.foldl_concat ..

theorem numTuples_setTuples (b : ByteSliceColumnBlock w dir) (writes : List (Nat × WordUnit)) :
    (b.setTuples writes).numTuples = b.numTuples := by
  induction writes using List.reverseRecOn with
  | nil => rfl
  | append_singleton writes write ih => rw [setTuples_append_singleton, numTuples_setTuple, ih]

theorem paddingClean_setTuples {b : ByteSliceColumnBlock w .kRight} (h : b.PaddingClean)
    (writes : List (Nat × WordUnit)) : (b.setTuples writes).PaddingClean := by
  induction writes using List.reverseRecOn with
  | nil => exact h
  | append_singleton writes write ih =>
      rw [setTuples_append_singleton]
      exact ih.setTuple write.1 write.2

/-- The last write to a position decides, in either direction. -/
theorem toNat_getTuple_setTuples {bits : Nat}
    (hset : ∀ (b : ByteSliceColumnBlock w dir) (q : Nat) (value : WordUnit) (p : Nat),
      p < kNumTuplesPerBlock → ((b.setTuple q value).getTuple p).toNat =
        if q = p then value.toNat % 2 ^ bits else (b.getTuple p).toNat)
    (b : ByteSliceColumnBlock w dir) {writes : List (Nat × WordUnit)} {p : Nat}
    (hp : p < kNumTuplesPerBlock) {value : WordUnit}
    (hvalue : lastWritten writes p = some value) :
    ((b.setTuples writes).getTuple p).toNat = value.toNat % 2 ^ bits := by
  induction writes using List.reverseRecOn with
  | nil => cases hvalue
  | append_singleton writes write ih =>
      have hlast : lastWritten (writes ++ [write]) =
          Function.update (lastWritten writes) write.1 (some write.2) := List.foldl_concat ..
      rw [setTuples_append_singleton, hset _ _ _ p hp]
      rw [hlast] at hvalue
      by_cases hq : write.1 = p
      · subst hq
        rw [Function.update_self] at hvalue
        rw [if_pos rfl, Option.some.inj hvalue]
      · rw [Function.update_of_ne (Ne.symm hq)] at hvalue
        rw [if_neg hq, ih hvalue]

end ByteSliceColumnBlock

/-- **Scans of left-padded blocks.**  Whatever bytes a left-padded block holds, a scan of either
kind is the comparison of what `GetTuple` returns, and the tail is clear: there is no
padding that could be wrong. -/
theorem padLeft_scan (w : BitWidth) (b : ByteSliceColumnBlock w .kLeft) (cmp : Comparator)
    (opt : Bitwise) (bvBlock : BitVectorBlock) (hnum : bvBlock.num = b.numTuples) :
    (∀ literal, (b.scan cmp literal bvBlock opt).TailClear ∧
      ∀ p, p < b.numTuples → (b.scan cmp literal bvBlock opt).getBit p =
        opt.apply (bvBlock.getBit p)
          (cmp.holds (b.getTuple p).toNat (literal.toNat % 2 ^ w.bits))) ∧
    ∀ other : ByteSliceColumnBlock w .kLeft, (b.scanBlock cmp other bvBlock opt).TailClear ∧
      ∀ p, p < b.numTuples → (b.scanBlock cmp other bvBlock opt).getBit p =
        opt.apply (bvBlock.getBit p) (cmp.holds (b.getTuple p).toNat (other.getTuple p).toNat) := by
  refine ⟨fun literal => ⟨ByteSliceColumnBlock.tailClear_scanHelper2 _ _ _ _ _, fun p hp =>
    b.getBit_scan_left cmp literal opt hnum hp⟩, fun other =>
    ⟨ByteSliceColumnBlock.tailClear_scanHelper2 _ _ _ _ _, fun p hp => ?_⟩⟩
  rw [← ByteSliceColumnBlock.scanBlock_asFull, ByteSliceColumnBlock.getBit_scanBlock cmp opt
    b.paddingClean_asFull other.paddingClean_asFull hnum hp, b.getTuple_asFull,
    other.getTuple_asFull]

/-- A new block of three codes of eleven bits: the literal is masked, the tuples are not. -/
theorem padLeft_scan_three :
    let w : BitWidth := ⟨11, by decide, by decide⟩
    let b : ByteSliceColumnBlock w .kLeft := ByteSliceColumnBlock.new 3
    let bvBlock := BitVectorBlock.new 3 (by decide) (by decide)
    (b.scan .kLess 32896#64 bvBlock .kOr).getBit 0 = Bitwise.kOr.apply (bvBlock.getBit 0)
      (Comparator.kLess.holds (b.getTuple 0).toNat ((32896#64).toNat % 2 ^ w.bits)) := by
  intro w b bvBlock
  exact ((padLeft_scan w b .kLess .kOr bvBlock (BitVectorBlock.num_new _ _ _)).1 32896#64).2 0
    (by decide)

/-- **When the direction of the padding shows.**  A left-padded and a right-padded block of the
same width and size get the same writes.  At a position that was written they agree, in
`GetTuple` as in all scans against literals, if and only if the value last written there
has no bit between the width of the codes and the width of their bytes. -/
theorem pad_directions_agree_iff (w : BitWidth) (num : Nat) (writes : List (Nat × WordUnit))
    (bvBlock : BitVectorBlock) (hnum : bvBlock.num = num) (p : Nat) (hp : p < num)
    (value : WordUnit) (hvalue : ByteSliceColumnBlock.lastWritten writes p = some value) :
    let left := (ByteSliceColumnBlock.new num : ByteSliceColumnBlock w .kLeft).setTuples writes
    let right := (ByteSliceColumnBlock.new num : ByteSliceColumnBlock w .kRight).setTuples writes
    (left.getTuple p = right.getTuple p ↔ value.toNat % 2 ^ w.full.bits < 2 ^ w.bits) ∧
    ((∀ cmp literal opt, (left.scan cmp literal bvBlock opt).getBit p =
        (right.scan cmp literal bvBlock opt).getBit p) ↔
      value.toNat % 2 ^ w.full.bits < 2 ^ w.bits) := by
  intro left right
  have hle : p < kNumTuplesPerBlock := by
    have := bvBlock.num_le
    omega
  have hleft : (left.getTuple p).toNat = value.toNat % 2 ^ w.full.bits :=
    ByteSliceColumnBlock.toNat_getTuple_setTuples
      (fun b q v _ hp => b.toNat_getTuple_setTuple_left q v hp) _ hle hvalue
  have hright : (right.getTuple p).toNat = value.toNat % 2 ^ w.bits :=
    ByteSliceColumnBlock.toNat_getTuple_setTuples
      (fun b q v _ hp => b.toNat_getTuple_setTuple q v hp) _ hle hvalue
  have hreduce : value.toNat % 2 ^ w.full.bits % 2 ^ w.bits = value.toNat % 2 ^ w.bits :=
    Nat.mod_mod_of_dvd _ (Nat.pow_dvd_pow 2 (ByteSliceColumnBlock.bits_le_full w))
  have htuple : left.getTuple p = right.getTuple p ↔
      value.toNat % 2 ^ w.full.bits < 2 ^ w.bits := by
    rw [BitVec.toNat_inj.symm, hleft, hright]
    constructor
    · intro hsame
      rw [hsame]
      exact Nat.mod_lt _ (Nat.two_pow_pos _)
    · intro hlt
      rw [← hreduce, Nat.mod_eq_of_lt hlt]
  have hnumLeft : left.numTuples = num := ByteSliceColumnBlock.numTuples_setTuples _ writes
  have hnumRight : right.numTuples = num := ByteSliceColumnBlock.numTuples_setTuples _ writes
  have hclean : right.PaddingClean := ByteSliceColumnBlock.paddingClean_setTuples
    (ByteSliceColumnBlock.paddingClean_new w num) writes
  have hscanLeft : ∀ cmp literal opt, (left.scan cmp literal bvBlock opt).getBit p =
      opt.apply (bvBlock.getBit p)
        (cmp.holds (left.getTuple p).toNat (literal.toNat % 2 ^ w.bits)) :=
    fun cmp literal opt => left.getBit_scan_left cmp literal opt (hnum.trans hnumLeft.symm)
      (hnumLeft ▸ hp)
  have hscanRight : ∀ cmp literal opt, (right.scan cmp literal bvBlock opt).getBit p =
      opt.apply (bvBlock.getBit p)
        (cmp.holds (right.getTuple p).toNat (literal.toNat % 2 ^ w.bits)) :=
    fun cmp literal opt => ByteSliceColumnBlock.getBit_scan cmp literal opt hclean
      (hnum.trans hnumRight.symm) (hnumRight ▸ hp)
  refine ⟨htuple, ?_⟩
  constructor
  · -- the scan for the code that the right-padded block returns
    intro hsame
    have hequal := hsame .kEqual value .kSet
    rw [hscanLeft, hscanRight, hleft, hright] at hequal
    have hboth : value.toNat % 2 ^ w.full.bits = value.toNat % 2 ^ w.bits := by
      simpa [Bitwise.apply, Comparator.holds] using hequal
    rw [hboth]
    exact Nat.mod_lt _ (Nat.two_pow_pos _)
  · intro hlt cmp literal opt
    rw [hscanLeft, hscanRight, htuple.mpr hlt]

/-- Twelve bits written to codes of eleven. -/
theorem pad_directions_agree_iff_twelve :
    let w : BitWidth := ⟨11, by decide, by decide⟩
    (ByteSliceColumnBlock.setTuples (ByteSliceColumnBlock.new 3 : ByteSliceColumnBlock w .kLeft)
        [(1, 2048#64)]).getTuple 1 ≠
      (ByteSliceColumnBlock.setTuples (ByteSliceColumnBlock.new 3 : ByteSliceColumnBlock w .kRight)
        [(1, 2048#64)]).getTuple 1 := by
  intro w hsame
  have hlast : ByteSliceColumnBlock.lastWritten [(1, 2048#64)] 1 = some 2048#64 := rfl
  have hlt := (pad_directions_agree_iff w 3 [(1, 2048#64)]
    (BitVectorBlock.new 3 (by decide) (by decide)) (BitVectorBlock.num_new _ _ _) 1 (by decide)
    2048#64 hlast).1.mp hsame
  have hbits : w.full.bits = 16 := by
    show (BitWidth.full ⟨11, by decide, by decide⟩).bits = 16
    decide
  rw [hbits] at hlt
  have hlt' : 2048 % 2 ^ 16 < 2 ^ 11 := hlt
  omega

end ByteSlice
