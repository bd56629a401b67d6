import Mathlib
import ByteSlice.BitVectorBlock
import ByteSlice.ByteSliceColumnBlock

/-!
# `ByteSliceColumnBlock`: scans

A scan compares 32 tuples at a time, slice by slice from the most significant
byte, and stops early when no lane that matters is still equal.  Which lanes
matter depends on the bits that are already in the bit vector: a lane whose bit
is `0` under `kAnd`, or `1` under `kOr`, is a don't-care.

The scan against a literal and the scan against another block are the same loop
with a different second operand; `scanHelper2` is that loop, and the two members
of the source are its applications.  Everything here is stated for arbitrary
bytes in the slices.  `Decided` is the invariant of a lane after `k` slices, and
`lane_scanSlices` is the don't-care argument: whatever slice the nest of tests
stopped at, a lane that matters holds the outcome of the full comparison.
-/

namespace ByteSlice

open Foundation

namespace ByteSliceColumnBlock

variable {w : BitWidth} {dir : Direction}

/-- `m_less`, `m_greater` and `m_equal`. -/
structure ScanMasks where
  less : AvxUnit
  greater : AvxUnit
  equal : AvxUnit

def ScanMasks.init : ScanMasks where
  less := avxZero
  greater := avxZero
  equal := avxOnes

def scanKernel (cmp : Comparator) (byteslice1 byteslice2 : AvxUnit) (m : ScanMasks) :
    ScanMasks :=
  match cmp with
  | .kEqual | .kInequal =>
      { m with equal := avxAnd m.equal (avxCmpeq byteslice1 byteslice2) }
  | .kLess | .kLessEqual =>
      { m with
        less := avxOr m.less (avxAnd m.equal (avxCmplt byteslice1 byteslice2))
        equal := avxAnd m.equal (avxCmpeq byteslice1 byteslice2) }
  | .kGreater | .kGreaterEqual =>
      { m with
        greater := avxOr m.greater (avxAnd m.equal (avxCmpgt byteslice1 byteslice2))
        equal := avxAnd m.equal (avxCmpeq byteslice1 byteslice2) }

/-- `ScanKernel2`, optimised on `ScanKernel`: on the last slice the equality is
not needed for some comparisons. -/
def scanKernel2 (w : BitWidth) (cmp : Comparator) (byteId : Nat)
    (byteslice1 byteslice2 : AvxUnit) (m : ScanMasks) : ScanMasks :=
  if byteId < kNumBytesPerCode w - 1 then
    scanKernel cmp byteslice1 byteslice2 m
  else if byteId = kNumBytesPerCode w - 1 then
    match cmp with
    | .kEqual | .kInequal =>
        { m with equal := avxAnd m.equal (avxCmpeq byteslice1 byteslice2) }
    | .kLessEqual =>
        { m with
          less := avxOr m.less (avxAnd m.equal (avxCmplt byteslice1 byteslice2))
          equal := avxAnd m.equal (avxCmpeq byteslice1 byteslice2) }
    | .kLess =>
        { m with less := avxOr m.less (avxAnd m.equal (avxCmplt byteslice1 byteslice2)) }
    | .kGreaterEqual =>
        { m with
          greater := avxOr m.greater (avxAnd m.equal (avxCmpgt byteslice1 byteslice2))
          equal := avxAnd m.equal (avxCmpeq byteslice1 byteslice2) }
    | .kGreater =>
        { m with greater := avxOr m.greater (avxAnd m.equal (avxCmpgt byteslice1 byteslice2)) }
  else
    m

/-- The lanes that are not don't-cares.  Under `kSet` the value is never read. -/
def inputMask (opt : Bitwise) (word : WordUnit) (i : Nat) : BitVec 32 :=
  match opt with
  | .kSet => -1#32
  | .kAnd => (word >>> i).setWidth 32
  | .kOr => ~~~((word >>> i).setWidth 32)

/-- The test between two slices: some lane that matters is still equal. -/
def stillEqual (opt : Bitwise) (inputMask : BitVec 32) (m : ScanMasks) : Bool :=
  (opt == .kSet && !avxIszero m.equal) ||
    (opt != .kSet && 0#32 != (inputMask &&& mm256MovemaskEpi8 m.equal))

/-- The nest of early-stop tests around the four kernels. -/
def scanSlices (w : BitWidth) (cmp : Comparator) (opt : Bitwise) (inputMask : BitVec 32)
    (slice1 slice2 : Nat → AvxUnit) : ScanMasks :=
  let m0 := ScanMasks.init
  if opt = .kSet ∨ 0#32 ≠ inputMask then
    let m1 := scanKernel2 w cmp 0 (slice1 0) (slice2 0) m0
    if kNumBytesPerCode w > 1 ∧ stillEqual opt inputMask m1 then
      let m2 := scanKernel2 w cmp 1 (slice1 1) (slice2 1) m1
      if kNumBytesPerCode w > 2 ∧ stillEqual opt inputMask m2 then
        let m3 := scanKernel2 w cmp 2 (slice1 2) (slice2 2) m2
        if kNumBytesPerCode w > 3 ∧ stillEqual opt inputMask m3 then
          scanKernel2 w cmp 3 (slice1 3) (slice2 3) m3
        else m3
      else m2
    else m1
  else m0

/-- `m_result` -/
def result (cmp : Comparator) (m : ScanMasks) : AvxUnit :=
  match cmp with
  | .kLessEqual => avxOr m.less m.equal
  | .kLess => m.less
  | .kGreaterEqual => avxOr m.greater m.equal
  | .kGreater => m.greater
  | .kEqual => m.equal
  | .kInequal => avxNot m.equal

/-- `bitvector_word`: two rounds of 32 lanes.  The second operand is a function
of the slice and the address. -/
def bitvectorWord (cmp : Comparator) (opt : Bitwise) (b : ByteSliceColumnBlock w dir)
    (operand : Nat → Nat → AvxUnit) (offset : Nat) (old : WordUnit) : WordUnit :=
  forLoop kNumWordBits (kNumAvxBits / 8) kNumAvxBits_div_pos
    (fun i _ word =>
      let m := scanSlices w cmp opt (inputMask opt old i)
        (fun j => mm256LddquSi256 (load b.data j) (offset + i))
        (fun j => operand j (offset + i))
      let mmask := mm256MovemaskEpi8 (result cmp m)
      word ||| mmask.setWidth 64 <<< i)
    0 0#64

/-- One iteration of the outer loop: the word that is put into the bit vector at
tuples `offset, ..., offset + 63`, from the word that was there. -/
def scanWord (cmp : Comparator) (opt : Bitwise) (b : ByteSliceColumnBlock w dir)
    (operand : Nat → Nat → AvxUnit) (offset : Nat) (old : WordUnit) : WordUnit :=
  let x := bitvectorWord cmp opt b operand offset old
  match opt with
  | .kSet => x
  | .kAnd => x &&& old
  | .kOr => x ||| old

/-- `ScanHelper2` over either kind of second operand. -/
def scanHelper2 (cmp : Comparator) (opt : Bitwise) (b : ByteSliceColumnBlock w dir)
    (operand : Nat → Nat → AvxUnit) (bvblock : BitVectorBlock) : BitVectorBlock :=
  (forLoop b.numTuples kNumWordBits kNumWordBits_pos
    (fun offset _ (s : Nat × BitVectorBlock) =>
      let (bvWordId, bvblock) := s
      (bvWordId + 1, bvblock.setWordUnit
        (scanWord cmp opt b operand offset (bvblock.getWordUnit bvWordId)) bvWordId))
    0 (0, bvblock)).2.clearTail

/-- `mask_literal[byte_id]`: a byte of the masked and padded literal, in every
lane. -/
def maskLiteral (w : BitWidth) (dir : Direction) (literal : WordUnit) (byteId : Nat) : AvxUnit :=
  let literal : WordUnit := literal &&& kCodeMask w
  let literal : WordUnit :=
    match dir with
    | .kRight => literal <<< kNumPaddingBits w
    | .kLeft => literal
  avxSet1 (flip ((literal >>> (8 * (kNumBytesPerCode w - 1 - byteId))).setWidth 8))

/-- `Scan` against a literal, which dispatches on the two enumerations. -/
def scan (b : ByteSliceColumnBlock w dir) (cmp : Comparator) (literal : WordUnit)
    (bvblock : BitVectorBlock) (opt : Bitwise) : BitVectorBlock :=
  scanHelper2 cmp opt b (fun byteId _ => maskLiteral w dir literal byteId) bvblock

/-- `Scan` against another block of the same template instance. -/
def scanBlock (b : ByteSliceColumnBlock w dir) (cmp : Comparator)
    (otherBlock : ByteSliceColumnBlock w dir) (bvblock : BitVectorBlock) (opt : Bitwise) :
    BitVectorBlock :=
  scanHelper2 cmp opt b
    (fun byteId addr => mm256LddquSi256 (load otherBlock.data byteId) addr) bvblock

/-! ## Kernels -/

theorem scanKernel2_of_lt (cmp : Comparator) {byteId : Nat}
    (hlt : byteId + 1 < kNumBytesPerCode w) (byteslice1 byteslice2 : AvxUnit) (m : ScanMasks) :
    scanKernel2 w cmp byteId byteslice1 byteslice2 m = scanKernel cmp byteslice1 byteslice2 m := by
  unfold scanKernel2
  rw [if_pos (by omega)]

/-- The equality that the last slice omits is not part of the result. -/
theorem result_scanKernel2 (cmp : Comparator) {byteId : Nat}
    (hlt : byteId < kNumBytesPerCode w) (byteslice1 byteslice2 : AvxUnit) (m : ScanMasks) :
    result cmp (scanKernel2 w cmp byteId byteslice1 byteslice2 m) =
      result cmp (scanKernel cmp byteslice1 byteslice2 m) := by
  unfold scanKernel2
  by_cases hinner : byteId < kNumBytesPerCode w - 1
  · rw [if_pos hinner]
  · rw [if_neg hinner, if_pos (by omega)]
    cases cmp <;> rfl

/-! ## One lane -/

section Lane

variable {cmp : Comparator} {opt : Bitwise} {mask : BitVec 32} {slice1 slice2 : Nat → AvxUnit}
  {x y : Nat → Nat} {l : Nat} (hl : l < 32)
  (hx : ∀ j, (flip (slice1 j)[l]).toNat = x j) (hy : ∀ j, (flip (slice2 j)[l]).toNat = y j)

/-- The invariant of lane `l` after the first `k` slices.  The strict masks are
kept for the comparisons that use them only. -/
structure Decided (cmp : Comparator) (x y : Nat → Nat) (k : Nat) (m : ScanMasks) (l : Nat)
    (hl : l < 32) : Prop where
  equal : m.equal[l] = laneMask (decide (prefixValue 256 x k = prefixValue 256 y k))
  less : cmp = .kLess ∨ cmp = .kLessEqual →
    m.less[l] = laneMask (decide (prefixValue 256 x k < prefixValue 256 y k))
  greater : cmp = .kGreater ∨ cmp = .kGreaterEqual →
    m.greater[l] = laneMask (decide (prefixValue 256 y k < prefixValue 256 x k))

theorem decided_init : Decided cmp x y 0 ScanMasks.init l hl := by
  refine ⟨?_, fun _ => ?_, fun _ => ?_⟩
  · simp [ScanMasks.init, prefixValue]
  · simp [ScanMasks.init, prefixValue]
  · simp [ScanMasks.init, prefixValue]

/-- The result at a lane is the comparison of the prefixes read so far. -/
theorem Decided.result {k : Nat} {m : ScanMasks} (h : Decided cmp x y k m l hl) :
    (ByteSliceColumnBlock.result cmp m)[l] =
      laneMask (cmp.holds (prefixValue 256 x k) (prefixValue 256 y k)) := by
  cases cmp with
  | kEqual => exact h.equal
  | kInequal =>
      show (avxNot m.equal)[l] = _
      rw [getElem_avxNot, h.equal, laneMask_xor_ones]
      simp [Comparator.holds]
  | kLess => exact h.less (Or.inl rfl)
  | kGreater => exact h.greater (Or.inl rfl)
  | kLessEqual =>
      show (avxOr m.less m.equal)[l] = _
      rw [getElem_avxOr, h.equal, h.less (Or.inr rfl), laneMask_or, ← Bool.decide_or]
      simp only [Comparator.holds, Nat.le_iff_lt_or_eq]
  | kGreaterEqual =>
      show (avxOr m.greater m.equal)[l] = _
      rw [getElem_avxOr, h.equal, h.greater (Or.inr rfl), laneMask_or, ← Bool.decide_or]
      simp only [Comparator.holds, ge_iff_le, Nat.le_iff_lt_or_eq, eq_comm]

include hx hy

/-- The step lemma of the kernel. -/
theorem Decided.scanKernel {k : Nat} {m : ScanMasks} (h : Decided cmp x y k m l hl) :
    Decided cmp x y (k + 1)
      (ByteSliceColumnBlock.scanKernel cmp (slice1 k) (slice2 k) m) l hl := by
  have hxlt : ∀ j, x j < 256 := fun j => by
    rw [← hx j]
    exact (flip (slice1 j)[l]).isLt
  have hylt : ∀ j, y j < 256 := fun j => by
    rw [← hy j]
    exact (flip (slice2 j)[l]).isLt
  have hequal : (avxAnd m.equal (avxCmpeq (slice1 k) (slice2 k)))[l] =
      laneMask (decide (prefixValue 256 x (k + 1) = prefixValue 256 y (k + 1))) := by
    rw [getElem_avxAnd, h.equal, getElem_avxCmpeq, laneMask_and, hx, hy, ← Bool.decide_and]
    simp only [prefixValue_eq_succ_iff hxlt hylt]
  have hless : cmp = .kLess ∨ cmp = .kLessEqual →
      (avxOr m.less (avxAnd m.equal (avxCmplt (slice1 k) (slice2 k))))[l] =
        laneMask (decide (prefixValue 256 x (k + 1) < prefixValue 256 y (k + 1))) := by
    intro hcmp
    rw [getElem_avxOr, getElem_avxAnd, h.equal, h.less hcmp, getElem_avxCmplt, laneMask_and,
      laneMask_or, hx, hy, ← Bool.decide_and, ← Bool.decide_or]
    simp only [prefixValue_lt_succ_iff hxlt hylt]
  have hgreater : cmp = .kGreater ∨ cmp = .kGreaterEqual →
      (avxOr m.greater (avxAnd m.equal (avxCmpgt (slice1 k) (slice2 k))))[l] =
        laneMask (decide (prefixValue 256 y (k + 1) < prefixValue 256 x (k + 1))) := by
    intro hcmp
    rw [getElem_avxOr, getElem_avxAnd, h.equal, h.greater hcmp, getElem_avxCmpgt, laneMask_and,
      laneMask_or, hx, hy, ← Bool.decide_and, ← Bool.decide_or]
    simp only [prefixValue_lt_succ_iff hylt hxlt, eq_comm]
  cases cmp with
  | kEqual => exact ⟨hequal, by simp, by simp⟩
  | kInequal => exact ⟨hequal, by simp, by simp⟩
  | kLess => exact ⟨hequal, hless, by simp⟩
  | kLessEqual => exact ⟨hequal, hless, by simp⟩
  | kGreater => exact ⟨hequal, by simp, hgreater⟩
  | kGreaterEqual => exact ⟨hequal, by simp, hgreater⟩

/-- The last kernel completes the comparison although it may leave a stale
equality behind. -/
theorem Decided.result_last {k : Nat} {m : ScanMasks} (h : Decided cmp x y k m l hl)
    (hlast : k + 1 = kNumBytesPerCode w) :
    (ByteSliceColumnBlock.result cmp (scanKernel2 w cmp k (slice1 k) (slice2 k) m))[l] =
      laneMask (cmp.holds (prefixValue 256 x (kNumBytesPerCode w))
        (prefixValue 256 y (kNumBytesPerCode w))) := by
  have hlt : k < kNumBytesPerCode w := by omega
  have hres := result_scanKernel2 cmp hlt (slice1 k) (slice2 k) m
  rw [← hlast]
  rw [← (h.scanKernel hl hx hy).result, hres]

/-- A prefix that decides the comparison gives its outcome. -/
theorem holds_prefixValue_of_ne {k n : Nat} (hkn : k ≤ n)
    (hne : prefixValue 256 x k ≠ prefixValue 256 y k) :
    cmp.holds (prefixValue 256 x k) (prefixValue 256 y k) =
      cmp.holds (prefixValue 256 x n) (prefixValue 256 y n) := by
  have hxlt : ∀ j, x j < 256 := fun j => by
    rw [← hx j]
    exact (flip (slice1 j)[l]).isLt
  have hylt : ∀ j, y j < 256 := fun j => by
    rw [← hy j]
    exact (flip (slice2 j)[l]).isLt
  -- a strict order of two prefixes is that of all their extensions
  rcases Nat.lt_or_gt_of_ne hne with hlt | hgt
  · have hlt' := prefixValue_lt_of_lt hxlt hylt hkn hlt
    cases cmp <;> simp [Comparator.holds] <;> omega
  · have hgt' := prefixValue_lt_of_lt hylt hxlt hkn hgt
    cases cmp <;> simp [Comparator.holds] <;> omega

/-- When the test between two slices fails, a lane that matters is no longer
equal, so the comparison is decided there. -/
theorem Decided.result_stop {k : Nat} {m : ScanMasks} (h : Decided cmp x y k m l hl)
    (hk : k ≤ kNumBytesPerCode w) (hlive : opt = .kSet ∨ mask.getLsbD l = true)
    (hstop : stillEqual opt mask m = false) :
    (ByteSliceColumnBlock.result cmp m)[l] =
      laneMask (cmp.holds (prefixValue 256 x (kNumBytesPerCode w))
        (prefixValue 256 y (kNumBytesPerCode w))) := by
  -- the failed test says that the equality mask is clear at every lane that matters
  have hzero : m.equal[l] = 0#8 := by
    rcases Bool.or_eq_false_iff.mp hstop with ⟨hset, hmask⟩
    by_cases hopt : opt = .kSet
    · have hiszero : avxIszero m.equal = true := by
        simpa [hopt] using hset
      exact (avxIszero_iff m.equal).mp hiszero l hl
    · have hlane : mask.getLsbD l = true := hlive.resolve_left hopt
      have hand : 0#32 = mask &&& mm256MovemaskEpi8 m.equal := by
        simpa [hopt] using hmask
      have hbit := congrArg (fun v : BitVec 32 => v.getLsbD l) hand
      simp only [BitVec.getLsbD_zero, BitVec.getLsbD_and, hlane, Bool.true_and,
        getLsbD_mm256MovemaskEpi8 m.equal hl] at hbit
      rw [h.equal, msb_laneMask] at hbit
      rw [h.equal, ← hbit]
      rfl
  have hne : prefixValue 256 x k ≠ prefixValue 256 y k := by
    rw [h.equal, laneMask_eq_zero] at hzero
    exact of_decide_eq_false hzero
  rw [h.result, holds_prefixValue_of_ne hl hx hy hk hne]

/-- One level of the nest: whether the test lets the next slice be read or not,
the result at a lane that matters is the full comparison, provided the deeper
levels deliver it. -/
theorem Decided.result_nest {k : Nat} {m : ScanMasks} (h : Decided cmp x y k m l hl)
    (hk : k < kNumBytesPerCode w) (hlive : opt = .kSet ∨ mask.getLsbD l = true)
    {rest : ScanMasks}
    (hrest : k + 1 < kNumBytesPerCode w →
      Decided cmp x y (k + 1) (scanKernel2 w cmp k (slice1 k) (slice2 k) m) l hl →
      (ByteSliceColumnBlock.result cmp rest)[l] =
        laneMask (cmp.holds (prefixValue 256 x (kNumBytesPerCode w))
          (prefixValue 256 y (kNumBytesPerCode w)))) :
    (ByteSliceColumnBlock.result cmp
      (if kNumBytesPerCode w > k + 1 ∧
          stillEqual opt mask (scanKernel2 w cmp k (slice1 k) (slice2 k) m) then rest
        else scanKernel2 w cmp k (slice1 k) (slice2 k) m))[l] =
      laneMask (cmp.holds (prefixValue 256 x (kNumBytesPerCode w))
        (prefixValue 256 y (kNumBytesPerCode w))) := by
  -- either there is a next slice, and the test decides about it, or this was the last
  by_cases hmore : k + 1 < kNumBytesPerCode w
  · have hnext : Decided cmp x y (k + 1) (scanKernel2 w cmp k (slice1 k) (slice2 k) m) l hl := by
      rw [scanKernel2_of_lt cmp hmore]
      exact h.scanKernel hl hx hy
    by_cases hgo : stillEqual opt mask (scanKernel2 w cmp k (slice1 k) (slice2 k) m) = true
    · simpa only [if_pos (And.intro hmore hgo)] using hrest hmore hnext
    · have hstop := Bool.eq_false_iff.mpr hgo
      simpa only [if_neg (fun hand : _ ∧ _ => hgo hand.2)] using
        hnext.result_stop hl hx hy (by omega) hlive hstop
  · simpa only [if_neg (fun hand : _ ∧ _ => hmore hand.1)] using
      h.result_last hl hx hy (by omega)

/-- The don't-care argument: whatever the tests skipped, a lane that matters ends
with the outcome of the comparison of all slices. -/
theorem lane_scanSlices (hlive : opt = .kSet ∨ mask.getLsbD l = true) :
    (ByteSliceColumnBlock.result cmp (scanSlices w cmp opt mask slice1 slice2))[l] =
      laneMask (cmp.holds (prefixValue 256 x (kNumBytesPerCode w))
        (prefixValue 256 y (kNumBytesPerCode w))) := by
  have hpos := kNumBytesPerCode_pos w
  have hle := kNumBytesPerCode_le w
  -- a lane that matters keeps the outermost test from skipping everything
  have henter : opt = .kSet ∨ 0#32 ≠ mask := by
    refine hlive.imp_right fun hlane hzero => ?_
    rw [← hzero, BitVec.getLsbD_zero] at hlane
    exact absurd hlane (by decide)
  unfold scanSlices
  dsimp only
  rw [if_pos henter]
  refine (decided_init hl).result_nest hl hx hy (by omega) hlive fun h1 hd1 => ?_
  refine hd1.result_nest hl hx hy h1 hlive fun h2 hd2 => ?_
  refine hd2.result_nest hl hx hy h2 hlive fun h3 hd3 => ?_
  exact hd3.result_last hl hx hy (by omega)

/-- Combined with the old bit, the lane's outcome is that of the comparison also
where the lane is a don't-care: there the combination absorbs it. -/
theorem apply_movemask_scanSlices (old : WordUnit) (i : Nat) :
    opt.apply (old.getLsbD (i + l))
        ((mm256MovemaskEpi8 (ByteSliceColumnBlock.result cmp
          (scanSlices w cmp opt (inputMask opt old i) slice1 slice2))).getLsbD l) =
      opt.apply (old.getLsbD (i + l))
        (cmp.holds (prefixValue 256 x (kNumBytesPerCode w))
          (prefixValue 256 y (kNumBytesPerCode w))) := by
  rw [getLsbD_mm256MovemaskEpi8 _ hl]
  by_cases hlive : opt = .kSet ∨ (inputMask opt old i).getLsbD l = true
  · rw [lane_scanSlices hl hx hy hlive, msb_laneMask]
  -- a don't-care: the old bit alone decides the combination
  · cases opt with
    | kSet => exact absurd (Or.inl rfl) hlive
    | kAnd =>
        have hold : old.getLsbD (i + l) = false := by
          simpa [inputMask, hl] using hlive
        rw [hold]
        rfl
    | kOr =>
        have hold : old.getLsbD (i + l) = true := by
          simpa [inputMask, hl] using hlive
        rw [hold]
        rfl

end Lane

/-! ## One word -/

theorem flip_lane_lddqu (b : ByteSliceColumnBlock w dir) (byteId addr : Nat) {l : Nat}
    (hl : l < 32) :
    (flip (mm256LddquSi256 (load b.data byteId) addr)[l]).toNat = b.digit (addr + l) byteId := by
  rw [getElem_mm256LddquSi256]
  rfl

/-- What the second operand encodes at each position. -/
def OperandDigits (operand : Nat → Nat → AvxUnit) (y : Nat → Nat → Nat) : Prop :=
  ∀ (byteId addr l : Nat) (hl : l < 32), (flip (operand byteId addr)[l]).toNat = y (addr + l) byteId

/-- Two halves of 32 bits make a word. -/
theorem getLsbD_halves (lo hi : BitVec 32) {p : Nat} (hp : p < 64) :
    (0#64 ||| lo.setWidth 64 <<< 0 ||| hi.setWidth 64 <<< 32).getLsbD p =
      if p < 32 then lo.getLsbD p else hi.getLsbD (p - 32) := by
  by_cases hlow : p < 32
  · simp [hp, hlow]
  · have hout : lo.getLsbD p = false := BitVec.getLsbD_of_ge lo p (by omega)
    simp [hp, hlow, hout]

/-- The last switch of the outer loop, bit by bit, on a word made of two halves. -/
theorem getLsbD_combine (opt : Bitwise) (lo hi : BitVec 32) (old : WordUnit) {p : Nat}
    (hp : p < 64) :
    (match opt with
    | .kSet => 0#64 ||| lo.setWidth 64 <<< 0 ||| hi.setWidth 64 <<< 32
    | .kAnd => (0#64 ||| lo.setWidth 64 <<< 0 ||| hi.setWidth 64 <<< 32) &&& old
    | .kOr => (0#64 ||| lo.setWidth 64 <<< 0 ||| hi.setWidth 64 <<< 32) ||| old).getLsbD p =
      opt.apply (old.getLsbD p) (if p < 32 then lo.getLsbD p else hi.getLsbD (p - 32)) := by
  rw [← getLsbD_halves _ _ hp]
  cases opt with
  | kSet => rfl
  | kAnd => exact BitVec.getLsbD_and.trans (Bool.and_comm _ _)
  | kOr => exact BitVec.getLsbD_or.trans (Bool.or_comm _ _)

/-- The inner loop runs twice, for `i = 0` and `i = 32`. -/
theorem forLoop_halves (half : Nat → BitVec 32) :
    forLoop kNumWordBits (kNumAvxBits / 8) kNumAvxBits_div_pos
      (fun i _ word => word ||| (half i).setWidth 64 <<< i) 0 0#64 =
      0#64 ||| (half 0).setWidth 64 <<< 0 ||| (half 32).setWidth 64 <<< 32 := by
  rw [forLoop_of_lt _ _ (by decide), forLoop_of_lt _ _ (by decide),
    forLoop_of_le _ _ (by decide)]
  rfl

/-- The word of an outer iteration, bit by bit.  Its two rounds have to agree with `outcome`
only where the old bit does not decide alone. -/
theorem getLsbD_rounds (opt : Bitwise) (half : Nat → BitVec 32) (old : WordUnit)
    {outcome : Nat → Nat → Bool}
    (hhalf : ∀ i l, l < 32 → opt.apply (old.getLsbD (i + l)) ((half i).getLsbD l) =
      opt.apply (old.getLsbD (i + l)) (outcome i l)) {p : Nat} (hp : p < 64) :
    (match opt with
    | .kSet => forLoop kNumWordBits (kNumAvxBits / 8) kNumAvxBits_div_pos
        (fun i _ word => word ||| (half i).setWidth 64 <<< i) 0 0#64
    | .kAnd => forLoop kNumWordBits (kNumAvxBits / 8) kNumAvxBits_div_pos
        (fun i _ word => word ||| (half i).setWidth 64 <<< i) 0 0#64 &&& old
    | .kOr => forLoop kNumWordBits (kNumAvxBits / 8) kNumAvxBits_div_pos
        (fun i _ word => word ||| (half i).setWidth 64 <<< i) 0 0#64 ||| old).getLsbD p =
      opt.apply (old.getLsbD p) (outcome (p / 32 * 32) (p % 32)) := by
  rw [forLoop_halves, getLsbD_combine opt (half 0) (half 32) old hp]
  by_cases hlow : p < 32
  · have h := hhalf 0 p hlow
    rw [Nat.zero_add] at h
    rw [if_pos hlow, h, Nat.div_eq_of_lt hlow, Nat.mod_eq_of_lt hlow, Nat.zero_mul]
  · have h := hhalf 32 (p - 32) (by omega)
    rw [show 32 + (p - 32) = p by omega] at h
    rw [if_neg hlow, h, show p / 32 * 32 = 32 by omega, show p % 32 = p - 32 by omega]

/-- Each bit of the word is the old bit combined with the comparison of the
numbers that the slices and the second operand hold. -/
theorem getLsbD_scanWord (cmp : Comparator) (opt : Bitwise) (b : ByteSliceColumnBlock w dir)
    {operand : Nat → Nat → AvxUnit} {y : Nat → Nat → Nat} (hoperand : OperandDigits operand y)
    (offset : Nat) (old : WordUnit) {p : Nat} (hp : p < 64) :
    (scanWord cmp opt b operand offset old).getLsbD p =
      opt.apply (old.getLsbD p) (cmp.holds (b.stored (offset + p))
        (prefixValue 256 (y (offset + p)) (kNumBytesPerCode w))) := by
  have hbit : (scanWord cmp opt b operand offset old).getLsbD p =
      opt.apply (old.getLsbD p) (cmp.holds (b.stored (offset + p / 32 * 32 + p % 32))
        (prefixValue 256 (y (offset + p / 32 * 32 + p % 32)) (kNumBytesPerCode w))) :=
    getLsbD_rounds opt _ old
      (fun i l hl => apply_movemask_scanSlices hl (fun j => flip_lane_lddqu b j (offset + i) hl)
        (fun j => hoperand j (offset + i) l hl) old i) hp
  rw [show offset + p / 32 * 32 + p % 32 = offset + p by omega] at hbit
  exact hbit

/-! ## The whole scan -/

/-- The outer loop writes, word by word, what `scanWord` computes from the old
word; its second counter is the word index. -/
theorem scanHelper2_eq (cmp : Comparator) (opt : Bitwise) (b : ByteSliceColumnBlock w dir)
    (operand : Nat → Nat → AvxUnit) (bvblock : BitVectorBlock) :
    scanHelper2 cmp opt b operand bvblock =
      (forLoop b.numTuples kNumWordBits kNumWordBits_pos
        (fun offset _ (bvblock : BitVectorBlock) => bvblock.setWordUnit
          (scanWord cmp opt b operand offset (bvblock.getWordUnit (offset / kNumWordBits)))
          (offset / kNumWordBits)) 0 bvblock).clearTail :=
  congrArg BitVectorBlock.clearTail (forLoop_counted kNumWordBits_pos
    (fun offset _ bvWordId (bvblock : BitVectorBlock) => bvblock.setWordUnit
      (scanWord cmp opt b operand offset (bvblock.getWordUnit bvWordId)) bvWordId) bvblock)

@[simp] theorem num_scanHelper2 (cmp : Comparator) (opt : Bitwise)
    (b : ByteSliceColumnBlock w dir) (operand : Nat → Nat → AvxUnit) (bvblock : BitVectorBlock) :
    (scanHelper2 cmp opt b operand bvblock).num = bvblock.num := by
  rw [scanHelper2_eq, BitVectorBlock.num_clearTail]
  exact BitVectorBlock.num_forLoop_setWordUnit _ _ _ bvblock

theorem tailClear_scanHelper2 (cmp : Comparator) (opt : Bitwise)
    (b : ByteSliceColumnBlock w dir) (operand : Nat → Nat → AvxUnit) (bvblock : BitVectorBlock) :
    (scanHelper2 cmp opt b operand bvblock).TailClear :=
  BitVectorBlock.tailClear_clearTail _

theorem getBit_scanHelper2 (cmp : Comparator) (opt : Bitwise) (b : ByteSliceColumnBlock w dir)
    {operand : Nat → Nat → AvxUnit} {y : Nat → Nat → Nat} (hoperand : OperandDigits operand y)
    {bvblock : BitVectorBlock} (hnum : bvblock.num = b.numTuples) {p : Nat}
    (hp : p < b.numTuples) :
    (scanHelper2 cmp opt b operand bvblock).getBit p =
      opt.apply (bvblock.getBit p) (cmp.holds (b.stored p)
        (prefixValue 256 (y p) (kNumBytesPerCode w))) := by
  -- the iteration that owns the word of `p` is the only one that writes it
  have hunits := bvblock.num_le_numWordUnits
  have hword : p / 64 < kNumWordsPerBlock :=
    BitVectorBlock.word_lt_of_lt (b := bvblock) (by omega)
  have hmod : p % 64 < 64 := Nat.mod_lt _ (by omega)
  have hloop := BitVectorBlock.words.get_forLoop_set
    (fun offset old => scanWord cmp opt b operand offset old) b.numTuples kNumWordBits
    kNumWordBits_pos bvblock hword
  rw [if_pos (by rw [kNumWordBits_eq]; omega)] at hloop
  rw [scanHelper2_eq, BitVectorBlock.getBit_clearTail_of_lt]
  · rw [BitVectorBlock.getBit_eq, BitVectorBlock.getBit_eq]
    have hbit := getLsbD_scanWord cmp opt b hoperand (p / 64 * 64)
      (bvblock.getWordUnit (p / 64)) hmod
    rw [show p / 64 * 64 + p % 64 = p by omega] at hbit
    exact (congrArg (fun word : WordUnit => word.getLsbD (p % 64)) hloop).trans hbit
  · rw [BitVectorBlock.num_forLoop_setWordUnit, hnum]
    exact hp

/-- The effect of the whole loop on a bit of a block of any size: the words that hold
tuples are combined, with what is stored past the last tuple too, and the others are
left alone. -/
theorem getBit_scanHelper2_of_lt (cmp : Comparator) (opt : Bitwise)
    (b : ByteSliceColumnBlock w dir) {operand : Nat → Nat → AvxUnit} {y : Nat → Nat → Nat}
    (hoperand : OperandDigits operand y) {bvblock : BitVectorBlock} {p : Nat}
    (hp : p < bvblock.num) :
    (scanHelper2 cmp opt b operand bvblock).getBit p =
      if p / 64 * 64 < b.numTuples then
        opt.apply (bvblock.getBit p) (cmp.holds (b.stored p)
          (prefixValue 256 (y p) (kNumBytesPerCode w)))
      else bvblock.getBit p := by
  have hunits := bvblock.num_le_numWordUnits
  have hword : p / 64 < kNumWordsPerBlock :=
    BitVectorBlock.word_lt_of_lt (b := bvblock) (by omega)
  have hloop := BitVectorBlock.words.get_forLoop_set
    (fun offset old => scanWord cmp opt b operand offset old) b.numTuples kNumWordBits
    kNumWordBits_pos bvblock hword
  rw [scanHelper2_eq, BitVectorBlock.getBit_clearTail_of_lt]
  · rw [BitVectorBlock.getBit_eq, BitVectorBlock.getBit_eq]
    refine (congrArg (fun word : WordUnit => word.getLsbD (p % 64)) hloop).trans ?_
    rw [kNumWordBits_eq]
    split
    · have hbit := getLsbD_scanWord cmp opt b hoperand (p / 64 * 64)
        (bvblock.getWordUnit (p / 64)) (Nat.mod_lt p (show 0 < 64 by omega))
      rw [show p / 64 * 64 + p % 64 = p by omega] at hbit
      exact hbit
    · rfl
  · rw [BitVectorBlock.num_forLoop_setWordUnit]
    exact hp

/-! ## From stored numbers to tuples -/

theorem Comparator.holds_mul_right (cmp : Comparator) {c : Nat} (hc : 0 < c) (a b : Nat) :
    cmp.holds (a * c) (b * c) = cmp.holds a b := by
  cases cmp <;>
    simp [Comparator.holds, Nat.mul_lt_mul_right hc, Nat.mul_le_mul_right_iff hc,
      Nat.mul_left_inj hc.ne']

/-- The digits of the literal's lanes write the masked literal, padded. -/
theorem operandDigits_maskLiteral (w : BitWidth) (literal : WordUnit) :
    OperandDigits (fun byteId _ => maskLiteral w .kRight literal byteId) (fun _ byteId =>
      ((literal &&& kCodeMask w) <<< kNumPaddingBits w).toNat /
        256 ^ (kNumBytesPerCode w - 1 - byteId) % 256) := by
  intro byteId addr l hl
  unfold maskLiteral
  dsimp only
  rw [getElem_avxSet1 hl, flip_flip, BitVec.toNat_setWidth, BitVec.toNat_ushiftRight,
    Nat.shiftRight_eq_div_pow, pow_mul]
  rfl

/-- In number the masked literal is cut to the width and padded. -/
theorem prefixValue_maskLiteral (w : BitWidth) (literal : WordUnit) :
    prefixValue 256 (fun byteId =>
      ((literal &&& kCodeMask w) <<< kNumPaddingBits w).toNat /
        256 ^ (kNumBytesPerCode w - 1 - byteId) % 256) (kNumBytesPerCode w) =
      literal.toNat % 2 ^ w.bits * 2 ^ kNumPaddingBits w := by
  rw [prefixValue_digits 256 _ _ _ (Nat.le_refl _), Nat.sub_self, pow_zero, Nat.div_one,
    toNat_padded, toNat_and_kCodeMask, Nat.mod_mod]

theorem getBit_scan (cmp : Comparator) (literal : WordUnit) (opt : Bitwise)
    {b : ByteSliceColumnBlock w .kRight} (hclean : b.PaddingClean) {bvblock : BitVectorBlock}
    (hnum : bvblock.num = b.numTuples) {p : Nat} (hp : p < b.numTuples) :
    (b.scan cmp literal bvblock opt).getBit p =
      opt.apply (bvblock.getBit p)
        (cmp.holds (b.getTuple p).toNat (literal.toNat % 2 ^ w.bits)) := by
  have hle : p < kNumTuplesPerBlock := by
    have := bvblock.num_le
    omega
  unfold scan
  rw [getBit_scanHelper2 cmp opt b (operandDigits_maskLiteral w literal) hnum hp,
    hclean.stored_eq hle, prefixValue_maskLiteral,
    Comparator.holds_mul_right cmp (Nat.two_pow_pos _)]

theorem getBit_scanBlock (cmp : Comparator) (opt : Bitwise)
    {b otherBlock : ByteSliceColumnBlock w .kRight} (hclean : b.PaddingClean)
    (hother : otherBlock.PaddingClean) {bvblock : BitVectorBlock}
    (hnum : bvblock.num = b.numTuples) {p : Nat} (hp : p < b.numTuples) :
    (b.scanBlock cmp otherBlock bvblock opt).getBit p =
      opt.apply (bvblock.getBit p)
        (cmp.holds (b.getTuple p).toNat (otherBlock.getTuple p).toNat) := by
  have hle : p < kNumTuplesPerBlock := by
    have := bvblock.num_le
    omega
  have hdigits : OperandDigits
      (fun byteId addr => mm256LddquSi256 (load otherBlock.data byteId) addr)
      otherBlock.digit := fun byteId addr _ hl => flip_lane_lddqu otherBlock byteId addr hl
  unfold scanBlock
  rw [getBit_scanHelper2 cmp opt b hdigits hnum hp, hclean.stored_eq hle]
  rw [show prefixValue 256 (otherBlock.digit p) (kNumBytesPerCode w) = otherBlock.stored p
    from rfl, hother.stored_eq hle, Comparator.holds_mul_right cmp (Nat.two_pow_pos _)]

end ByteSliceColumnBlock

/-- **The scan against a literal is the integer comparison.**  On every reachable
block, every bit of the result below `num` is the old bit combined with the
unsigned comparison of the tuple with the literal, and every bit past `num` is
`0`. -/
theorem byteSlice_scan_literal (w : BitWidth) (b : ByteSliceColumnBlock w .kRight)
    (hreach : b.Reachable) (cmp : Comparator) (literal : WordUnit)
    (hliteral : literal.toNat < 2 ^ w.bits) (opt : Bitwise) (bvblock : BitVectorBlock)
    (hnum : bvblock.num = b.numTuples) :
    (∀ i, i < b.numTuples → (b.scan cmp literal bvblock opt).getBit i =
      opt.apply (bvblock.getBit i) (cmp.holds (b.getTuple i).toNat literal.toNat)) ∧
    ∀ p, b.numTuples ≤ p → p < 64 * (b.scan cmp literal bvblock opt).numWordUnits →
      (b.scan cmp literal bvblock opt).getBit p = false := by
  refine ⟨fun i hi => ?_, fun p hle hp => ?_⟩
  · rw [ByteSliceColumnBlock.getBit_scan cmp literal opt hreach.paddingClean hnum hi,
      Nat.mod_eq_of_lt hliteral]
  · refine ByteSliceColumnBlock.tailClear_scanHelper2 cmp opt b _ bvblock p ?_ hp
    rw [ByteSliceColumnBlock.num_scanHelper2, hnum]
    exact hle

/-- Three tuples of eleven bits, the first set to `5`, scanned for `< 7` into a
fresh bit vector block. -/
theorem byteSlice_scan_literal_three :
    ((((ByteSliceColumnBlock.new 3 : ByteSliceColumnBlock ⟨11, by decide, by decide⟩ .kRight).setTuple
      0 5#64).scan .kLess 7#64 (BitVectorBlock.new 3 (by decide) (by decide)) .kAnd).getBit 0) =
      true := by
  have hscan := (byteSlice_scan_literal ⟨11, by decide, by decide⟩
    ((ByteSliceColumnBlock.new 3).setTuple 0 5#64)
    (.setTuple _ 0 5#64 (by decide) (.new 3 (by decide))) .kLess 7#64 (by decide) .kAnd
    (BitVectorBlock.new 3 (by decide) (by decide))
    (by rw [BitVectorBlock.num_new, ByteSliceColumnBlock.numTuples_setTuple]; rfl)).1 0
    (by rw [ByteSliceColumnBlock.numTuples_setTuple]; decide)
  rw [hscan, BitVectorBlock.getBit_new _ _ _ (by decide),
    ByteSliceColumnBlock.toNat_getTuple_setTuple _ _ _ (by decide)]
  rfl

/-- **The scan against another block is the integer comparison.**  Both blocks
are reachable; they may be the same block. -/
theorem byteSlice_scan_block (w : BitWidth) (b otherBlock : ByteSliceColumnBlock w .kRight)
    (hreach : b.Reachable) (hother : otherBlock.Reachable) (cmp : Comparator) (opt : Bitwise)
    (bvblock : BitVectorBlock) (hnum : bvblock.num = b.numTuples) :
    (∀ i, i < b.numTuples → (b.scanBlock cmp otherBlock bvblock opt).getBit i =
      opt.apply (bvblock.getBit i)
        (cmp.holds (b.getTuple i).toNat (otherBlock.getTuple i).toNat)) ∧
    ∀ p, b.numTuples ≤ p → p < 64 * (b.scanBlock cmp otherBlock bvblock opt).numWordUnits →
      (b.scanBlock cmp otherBlock bvblock opt).getBit p = false := by
  refine ⟨fun i hi => ?_, fun p hle hp => ?_⟩
  · exact ByteSliceColumnBlock.getBit_scanBlock cmp opt hreach.paddingClean hother.paddingClean
      hnum hi
  · refine ByteSliceColumnBlock.tailClear_scanHelper2 cmp opt b _ bvblock p ?_ hp
    rw [ByteSliceColumnBlock.num_scanHelper2, hnum]
    exact hle

/-- A block of three tuples against itself: no tuple is less than itself. -/
theorem byteSlice_scan_block_three :
    ((((ByteSliceColumnBlock.new 3 : ByteSliceColumnBlock ⟨11, by decide, by decide⟩ .kRight).setTuple
      0 5#64).scanBlock .kLess ((ByteSliceColumnBlock.new 3).setTuple 0 5#64)
      (BitVectorBlock.new 3 (by decide) (by decide)) .kSet).getBit 0) = false := by
  have hreach : ByteSliceColumnBlock.Reachable (w := ⟨11, by decide, by decide⟩)
      ((ByteSliceColumnBlock.new 3).setTuple 0 5#64) :=
    .setTuple _ 0 5#64 (by decide) (.new 3 (by decide))
  have hscan := (byteSlice_scan_block ⟨11, by decide, by decide⟩
    ((ByteSliceColumnBlock.new 3).setTuple 0 5#64) ((ByteSliceColumnBlock.new 3).setTuple 0 5#64)
    hreach hreach .kLess .kSet (BitVectorBlock.new 3 (by decide) (by decide))
    (by rw [BitVectorBlock.num_new, ByteSliceColumnBlock.numTuples_setTuple]; rfl)).1 0
    (by rw [ByteSliceColumnBlock.numTuples_setTuple]; decide)
  rw [hscan, ByteSliceColumnBlock.toNat_getTuple_setTuple _ _ _ (by decide)]
  rfl

end ByteSlice
