import Mathlib
import ByteSlice.ByteSliceScan

/-!
# Scans without early stop

The build with `NEARLYSTOP` reads every slice of every tuple, and `ScanKernel` is the
kernel that `ScanKernel2` optimises.  The definitions below are the scan with both
shortcuts taken out.  They leave the same words in the bit vector on any bytes and
any earlier bits: in the lanes where a mask differs, the old bit alone decides the
combination.
-/

namespace ByteSlice

open Foundation

namespace ByteSliceColumnBlock

variable {w : BitWidth} {dir : Direction}

/-- The nest around the four kernels with every test on the masks left out. -/
def scanSlicesNoEarlyStop (w : BitWidth) (cmp : Comparator) (slice1 slice2 : Nat → AvxUnit) :
    ScanMasks :=
  let m1 := scanKernel cmp (slice1 0) (slice2 0) ScanMasks.init
  if kNumBytesPerCode w > 1 then
    let m2 := scanKernel cmp (slice1 1) (slice2 1) m1
    if kNumBytesPerCode w > 2 then
      let m3 := scanKernel cmp (slice1 2) (slice2 2) m2
      if kNumBytesPerCode w > 3 then
        scanKernel cmp (slice1 3) (slice2 3) m3
      else m3
    else m2
  else m1

def bitvectorWordNoEarlyStop (cmp : Comparator) (b : ByteSliceColumnBlock w dir)
    (operand : Nat → Nat → AvxUnit) (offset : Nat) : WordUnit :=
  forLoop kNumWordBits (kNumAvxBits / 8) kNumAvxBits_div_pos
    (fun i _ word =>
      let m := scanSlicesNoEarlyStop w cmp
        (fun j => mm256LddquSi256 (load b.data j) (offset + i))
        (fun j => operand j (offset + i))
      let mmask := mm256MovemaskEpi8 (result cmp m)
      word ||| mmask.setWidth 64 <<< i)
    0 0#64

def scanWordNoEarlyStop (cmp : Comparator) (opt : Bitwise) (b : ByteSliceColumnBlock w dir)
    (operand : Nat → Nat → AvxUnit) (offset : Nat) (old : WordUnit) : WordUnit :=
  let x := bitvectorWordNoEarlyStop cmp b operand offset
  match opt with
  | .kSet => x
  | .kAnd => x &&& old
  | .kOr => x ||| old

def scanHelper2NoEarlyStop (cmp : Comparator) (opt : Bitwise) (b : ByteSliceColumnBlock w dir)
    (operand : Nat → Nat → AvxUnit) (bvblock : BitVectorBlock) : BitVectorBlock :=
  (forLoop b.numTuples kNumWordBits kNumWordBits_pos
    (fun offset _ (s : Nat × BitVectorBlock) =>
      let (bvWordId, bvblock) := s
      (bvWordId + 1, bvblock.setWordUnit
        (scanWordNoEarlyStop cmp opt b operand offset (bvblock.getWordUnit bvWordId)) bvWordId))
    0 (0, bvblock)).2.clearTail

/-- `Scan` against a literal, without early stop. -/
def scanNoEarlyStop (b : ByteSliceColumnBlock w dir) (cmp : Comparator) (literal : WordUnit)
    (bvblock : BitVectorBlock) (opt : Bitwise) : BitVectorBlock :=
  scanHelper2NoEarlyStop cmp opt b (fun byteId _ => maskLiteral w dir literal byteId) bvblock

/-- `Scan` against another block, without early stop. -/
def scanBlockNoEarlyStop (b : ByteSliceColumnBlock w dir) (cmp : Comparator)
    (otherBlock : ByteSliceColumnBlock w dir) (bvblock : BitVectorBlock) (opt : Bitwise) :
    BitVectorBlock :=
  scanHelper2NoEarlyStop cmp opt b
    (fun byteId addr => mm256LddquSi256 (load otherBlock.data byteId) addr) bvblock

/-! ## One lane -/

section Lane

variable {cmp : Comparator} {slice1 slice2 : Nat → AvxUnit} {x y : Nat → Nat} {l : Nat}
  (hl : l < 32)

include hl

/-- Reading every slice, a lane ends with the comparison of all of them. -/
theorem decided_scanSlicesNoEarlyStop (hx : ∀ j, (flip (slice1 j)[l]).toNat = x j)
    (hy : ∀ j, (flip (slice2 j)[l]).toNat = y j) :
    Decided cmp x y (kNumBytesPerCode w) (scanSlicesNoEarlyStop w cmp slice1 slice2) l hl := by
  have h0 : Decided cmp x y 0 ScanMasks.init l hl := decided_init hl
  have h1 := h0.scanKernel hl hx hy
  have h2 := h1.scanKernel hl hx hy
  have h3 := h2.scanKernel hl hx hy
  have h4 := h3.scanKernel hl hx hy
  unfold scanSlicesNoEarlyStop
  rcases kNumBytesPerCode_cases w with h | h | h | h
  · simpa [h] using h1
  · simpa [h] using h2
  · simpa [h] using h3
  · simpa [h] using h4

/-- Combined with the old bit, stopping early makes no difference. -/
theorem apply_movemask_noEarlyStop (opt : Bitwise) (old : WordUnit) (i : Nat) :
    opt.apply (old.getLsbD (i + l))
        ((mm256MovemaskEpi8 (result cmp
          (scanSlices w cmp opt (inputMask opt old i) slice1 slice2))).getLsbD l) =
      opt.apply (old.getLsbD (i + l))
        ((mm256MovemaskEpi8 (result cmp
          (scanSlicesNoEarlyStop w cmp slice1 slice2))).getLsbD l) := by
  have hlane : (result cmp (scanSlicesNoEarlyStop w cmp slice1 slice2))[l] =
      laneMask (cmp.holds
        (prefixValue 256 (fun j => (flip (slice1 j)[l]).toNat) (kNumBytesPerCode w))
        (prefixValue 256 (fun j => (flip (slice2 j)[l]).toNat) (kNumBytesPerCode w))) :=
    (decided_scanSlicesNoEarlyStop hl (fun _ => rfl) (fun _ => rfl)).result
  rw [apply_movemask_scanSlices hl (fun _ => rfl) (fun _ => rfl) old i,
    getLsbD_mm256MovemaskEpi8 _ hl, hlane, msb_laneMask]

end Lane

/-! ## Words and blocks -/

theorem scanWord_eq_noEarlyStop (cmp : Comparator) (opt : Bitwise)
    (b : ByteSliceColumnBlock w dir) (operand : Nat → Nat → AvxUnit) (offset : Nat)
    (old : WordUnit) :
    scanWord cmp opt b operand offset old = scanWordNoEarlyStop cmp opt b operand offset old := by
  let full : Nat → BitVec 32 := fun i =>
    mm256MovemaskEpi8 (result cmp (scanSlicesNoEarlyStop w cmp
      (fun j => mm256LddquSi256 (load b.data j) (offset + i))
      (fun j => operand j (offset + i))))
  apply BitVec.eq_of_getLsbD_eq
  intro p hp
  have hearly : (scanWord cmp opt b operand offset old).getLsbD p =
      opt.apply (old.getLsbD p) ((full (p / 32 * 32)).getLsbD (p % 32)) :=
    getLsbD_rounds opt _ old
      (fun i _ hl => apply_movemask_noEarlyStop hl opt old i) hp
  have hfull : (scanWordNoEarlyStop cmp opt b operand offset old).getLsbD p =
      opt.apply (old.getLsbD p) ((full (p / 32 * 32)).getLsbD (p % 32)) :=
    getLsbD_rounds opt full old (fun _ _ _ => rfl) hp
  rw [hearly, hfull]

theorem scanHelper2_eq_noEarlyStop (cmp : Comparator) (opt : Bitwise)
    (b : ByteSliceColumnBlock w dir) (operand : Nat → Nat → AvxUnit)
    (bvblock : BitVectorBlock) :
    scanHelper2 cmp opt b operand bvblock =
      scanHelper2NoEarlyStop cmp opt b operand bvblock := by
  unfold scanHelper2 scanHelper2NoEarlyStop
  simp only [scanWord_eq_noEarlyStop]

end ByteSliceColumnBlock

/-- **Stopping early never changes a scan.**  For any bytes in the slices, both scans
leave in the bit vector block, word for word, what they leave when every slice is
read and every kernel computes the equality. -/
theorem scan_eq_noEarlyStop (w : BitWidth) (dir : Direction) (b : ByteSliceColumnBlock w dir)
    (cmp : Comparator) (opt : Bitwise) (bvblock : BitVectorBlock) :
    (∀ literal, b.scan cmp literal bvblock opt = b.scanNoEarlyStop cmp literal bvblock opt) ∧
    ∀ otherBlock, b.scanBlock cmp otherBlock bvblock opt =
      b.scanBlockNoEarlyStop cmp otherBlock bvblock opt :=
  ⟨fun _ => ByteSliceColumnBlock.scanHelper2_eq_noEarlyStop cmp opt b _ bvblock,
    fun _ => ByteSliceColumnBlock.scanHelper2_eq_noEarlyStop cmp opt b _ bvblock⟩

end ByteSlice
