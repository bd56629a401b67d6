import Mathlib
import ByteSlice.ByteSliceScan
import ByteSlice.ClearTail
import ByteSlice.BlockInvariants

/-!
# What a scan accesses

The runs below return what the scans return, together with a record of every access to
the slices or the array of a block and to the words of the bit vector block, in the order
in which the source makes them.  What they return is what the scans return
(`fst_scanSlicesRun`, `fst_scanWordRun`, `scanRun_eq`).

For byte slices the record is known exactly.  A slice is loaded at an address when one
of the 32 tuples there still matters, that is, the bit that it has can still be changed,
and the slices before do not tell it from the second operand.  So a tuple whose bit is
settled costs nothing unless a neighbour needs the load.

No scan checks an index.  That it stays inside its storage is a matter of the recorded
number of tuples alone, and every column that construction, writes and resizes can make
records no more tuples than a block has room for.
-/

namespace ByteSlice

open Foundation

/-- An access: 32 bytes of a slice from `addr` on (of both blocks, in a scan against
another block), an element of a plain array, or a word of the bit vector block. -/
inductive ScanAccess
  | slice (byteId addr : Nat)
  | element (pos : Nat)
  | loadWord (pos : Nat)
  | storeWord (pos : Nat)
  deriving DecidableEq

/-- Whether the old bit leaves room for the outcome of the comparison. -/
def Bitwise.Matters (opt : Bitwise) (old : Bool) : Prop :=
  opt.apply old true ≠ opt.apply old false

/-- The slice and the address, if the access is a slice load. -/
def ScanAccess.toSlice : ScanAccess → Option (Nat × Nat)
  | .slice byteId addr => some (byteId, addr)
  | _ => none

/-- An access inside the storage of a block of the class and of a bit vector block.  The
slices of a code are allocated in full, and so are the array and the words. -/
def ScanAccess.InRange (kind : BlockKind) : ScanAccess → Prop
  | .slice byteId addr =>
      match kind with
      | .naive _ => False
      | .byteSlice w => byteId < ByteSliceColumnBlock.kNumBytesPerCode w ∧
          addr + kNumAvxBits / 8 ≤ kMemSizePerByteSlice
  | .element pos =>
      match kind with
      | .naive _ => pos < kNumTuplesPerBlock
      | .byteSlice _ => False
  | .loadWord pos => pos < kNumWordsPerBlock
  | .storeWord pos => pos < kNumWordsPerBlock

/-- The word of the bit vector block, which `kSet` does not look at. -/
def loadAccess (opt : Bitwise) (pos : Nat) : List ScanAccess :=
  if opt = .kSet then [] else [.loadWord pos]

theorem mem_loadAccess {opt : Bitwise} {access : ScanAccess} {pos : Nat} :
    access ∈ loadAccess opt pos ↔ opt ≠ .kSet ∧ access = .loadWord pos := by
  unfold loadAccess
  split <;> simp [*]

/-- The accesses of a run of `ClearTail`: it stores to each of its words, and `&=` loads the
last one before. -/
def tailAccesses : List Nat → List ScanAccess
  | [] => []
  | [pos] => [.loadWord pos, .storeWord pos]
  | pos :: rest => .storeWord pos :: tailAccesses rest

theorem exists_of_mem_tailAccesses {access : ScanAccess} {words : List Nat}
    (hmem : access ∈ tailAccesses words) :
    ∃ pos ∈ words, access = .loadWord pos ∨ access = .storeWord pos := by
  induction words using tailAccesses.induct with
  | case1 => exact absurd hmem List.not_mem_nil
  | case2 pos =>
      refine ⟨pos, List.mem_singleton_self pos, ?_⟩
      simpa only [tailAccesses, List.mem_cons, List.not_mem_nil, or_false] using hmem
  | case3 pos rest hne ih =>
      rw [tailAccesses.eq_3 pos rest hne, List.mem_cons] at hmem
      rcases hmem with rfl | hrest
      · exact ⟨pos, List.mem_cons_self, Or.inr rfl⟩
      · obtain ⟨pos', hpos', haccess⟩ := ih hrest
        exact ⟨pos', List.mem_cons_of_mem pos hpos', haccess⟩

/-- `ClearTail` behind a loop. -/
def clearTailRun (s : BitVectorBlock × List ScanAccess) : BitVectorBlock × List ScanAccess :=
  ({ s.1 with data := s.1.tailRun.data }, s.2 ++ tailAccesses s.1.tailRun.words)

namespace ByteSliceColumnBlock

variable {w : BitWidth} {dir : Direction}

/-- One kernel, which loads its slice. -/
def kernelRun (w : BitWidth) (cmp : Comparator) (slice1 slice2 : Nat → AvxUnit) (byteId : Nat)
    (s : ScanMasks × List Nat) : ScanMasks × List Nat :=
  (scanKernel2 w cmp byteId (slice1 byteId) (slice2 byteId) s.1, s.2 ++ [byteId])

/-- The nest of early-stop tests, with the slices that it loads. -/
def scanSlicesRun (w : BitWidth) (cmp : Comparator) (opt : Bitwise) (inputMask : BitVec 32)
    (slice1 slice2 : Nat → AvxUnit) : ScanMasks × List Nat :=
  let m0 := (ScanMasks.init, [])
  if opt = .kSet ∨ 0#32 ≠ inputMask then
    let m1 := kernelRun w cmp slice1 slice2 0 m0
    if kNumBytesPerCode w > 1 ∧ stillEqual opt inputMask m1.1 then
      let m2 := kernelRun w cmp slice1 slice2 1 m1
      if kNumBytesPerCode w > 2 ∧ stillEqual opt inputMask m2.1 then
        let m3 := kernelRun w cmp slice1 slice2 2 m2
        if kNumBytesPerCode w > 3 ∧ stillEqual opt inputMask m3.1 then
          kernelRun w cmp slice1 slice2 3 m3
        else m3
      else m2
    else m1
  else m0

/-- The round at `i` of the tuples from `offset` on. -/
def roundRun (cmp : Comparator) (opt : Bitwise) (b : ByteSliceColumnBlock w dir)
    (operand : Nat → Nat → AvxUnit) (offset : Nat) (old : WordUnit) (i : Nat) :
    ScanMasks × List Nat :=
  scanSlicesRun w cmp opt (inputMask opt old i)
    (fun j => mm256LddquSi256 (load b.data j) (offset + i))
    (fun j => operand j (offset + i))

/-- One iteration of the outer loop: the two rounds, the final switch and the store. -/
def scanWordRun (cmp : Comparator) (opt : Bitwise) (b : ByteSliceColumnBlock w dir)
    (operand : Nat → Nat → AvxUnit) (offset bvWordId : Nat) (old : WordUnit) :
    WordUnit × List ScanAccess :=
  let s := forLoop kNumWordBits (kNumAvxBits / 8) kNumAvxBits_div_pos
    (fun i _ (s : WordUnit × List ScanAccess) =>
      let m := roundRun cmp opt b operand offset old i
      let mmask := mm256MovemaskEpi8 (result cmp m.1)
      (s.1 ||| mmask.setWidth 64 <<< i,
        s.2 ++ (loadAccess opt bvWordId ++ m.2.map fun j => .slice j (offset + i))))
    0 (0#64, [])
  let x :=
    match opt with
    | .kSet => s.1
    | .kAnd => s.1 &&& old
    | .kOr => s.1 ||| old
  (x, s.2 ++ (loadAccess opt bvWordId ++ [.storeWord bvWordId]))

/-- `ScanHelper2`, the run of `ClearTail` at the end included. -/
def scanRun (cmp : Comparator) (opt : Bitwise) (b : ByteSliceColumnBlock w dir)
    (operand : Nat → Nat → AvxUnit) (bvblock : BitVectorBlock) :
    BitVectorBlock × List ScanAccess :=
  clearTailRun (forLoop b.numTuples kNumWordBits kNumWordBits_pos
    (fun offset _ (s : Nat × BitVectorBlock × List ScanAccess) =>
      let (bvWordId, bvblock, accesses) := s
      let word := scanWordRun cmp opt b operand offset bvWordId (bvblock.getWordUnit bvWordId)
      (bvWordId + 1, bvblock.setWordUnit word.1 bvWordId, accesses ++ word.2))
    0 (0, bvblock, [])).2

/-- The accesses of `ScanHelper2`. -/
def scanAccesses (cmp : Comparator) (opt : Bitwise) (b : ByteSliceColumnBlock w dir)
    (operand : Nat → Nat → AvxUnit) (bvblock : BitVectorBlock) : List ScanAccess :=
  (scanRun cmp opt b operand bvblock).2

/-! ## The nest -/

section Nest

variable (w) (cmp : Comparator) (opt : Bitwise) (mask : BitVec 32)
  (slice1 slice2 : Nat → AvxUnit)

/-- The masks after the first `k` kernels. -/
def masksAfter : Nat → ScanMasks
  | 0 => ScanMasks.init
  | k + 1 => scanKernel2 w cmp k (slice1 k) (slice2 k) (masksAfter k)

/-- Some lane that matters is not told apart by the first `k` slices. -/
def Undecided (opt : Bitwise) (mask : BitVec 32) (slice1 slice2 : Nat → AvxUnit) (k : Nat) :
    Prop :=
  ∃ (l : Nat) (hl : l < 32), (opt = .kSet ∨ mask.getLsbD l = true) ∧
    ∀ j, j < k → (slice1 j)[l] = (slice2 j)[l]

variable {w cmp opt mask slice1 slice2}

theorem Undecided.mono {j k : Nat} (hjk : j ≤ k) (h : Undecided opt mask slice1 slice2 k) :
    Undecided opt mask slice1 slice2 j := by
  obtain ⟨l, hl, hlive, heq⟩ := h
  exact ⟨l, hl, hlive, fun i hi => heq i (by omega)⟩

theorem undecided_zero_iff :
    Undecided opt mask slice1 slice2 0 ↔ opt = .kSet ∨ 0#32 ≠ mask := by
  constructor
  · rintro ⟨l, _, hlive, _⟩
    refine hlive.imp_right fun hlane hzero => ?_
    rw [← hzero, BitVec.getLsbD_zero] at hlane
    exact absurd hlane (by decide)
  · rintro (hset | hmask)
    · exact ⟨0, by decide, Or.inl hset, fun j hj => absurd hj (Nat.not_lt_zero j)⟩
    · obtain ⟨l, hl⟩ : ∃ l, mask.getLsbD l = true := by
        by_contra hnone
        refine hmask (BitVec.eq_of_getLsbD_eq fun l _ => ?_)
        rw [BitVec.getLsbD_zero]
        exact (Bool.eq_false_iff.mpr fun hl => hnone ⟨l, hl⟩).symm
      exact ⟨l, BitVec.lt_of_getLsbD hl, Or.inr hl, fun j hj => absurd hj (Nat.not_lt_zero j)⟩

/-- Before the last kernel the masks are known in every lane. -/
theorem decided_masksAfter {k : Nat} (hk : k < kNumBytesPerCode w) {l : Nat} (hl : l < 32) :
    Decided cmp (fun j => (flip (slice1 j)[l]).toNat) (fun j => (flip (slice2 j)[l]).toNat) k
      (masksAfter w cmp slice1 slice2 k) l hl := by
  induction k with
  | zero => exact decided_init hl
  | succ k ih =>
      rw [masksAfter, scanKernel2_of_lt cmp hk]
      exact (ih (by omega)).scanKernel hl (fun _ => rfl) (fun _ => rfl)

/-- The test between two slices is what its comment says. -/
theorem stillEqual_iff {k : Nat} (hk : k < kNumBytesPerCode w) :
    stillEqual opt mask (masksAfter w cmp slice1 slice2 k) = true ↔
      Undecided opt mask slice1 slice2 k := by
  have hlane : ∀ (l : Nat) (hl : l < 32),
      ((masksAfter w cmp slice1 slice2 k).equal[l]).msb = true ↔
        ∀ j, j < k → (slice1 j)[l] = (slice2 j)[l] := by
    intro l hl
    rw [(decided_masksAfter hk hl).equal, msb_laneMask, decide_eq_true_iff,
      prefixValue_eq_iff (fun j => (flip (slice1 j)[l]).isLt) fun j => (flip (slice2 j)[l]).isLt]
    exact forall₂_congr fun j _ => (eq_iff_flip_toNat_eq _ _).symm
  have hzero : avxIszero (masksAfter w cmp slice1 slice2 k).equal = true ↔
      ∀ (l : Nat) (hl : l < 32), ¬ ((masksAfter w cmp slice1 slice2 k).equal[l]).msb = true := by
    rw [avxIszero_iff]
    refine forall₂_congr fun l hl => ?_
    rw [(decided_masksAfter hk hl).equal, laneMask_eq_zero, msb_laneMask, Bool.not_eq_true]
  unfold stillEqual Undecided
  by_cases hset : opt = .kSet
  · subst hset
    simp only [beq_self_eq_true, Bool.true_and, bne_self_eq_false, Bool.false_and, Bool.or_false,
      Bool.not_eq_true', true_or, true_and]
    rw [← Bool.not_eq_true, hzero]
    simp only [not_forall, not_not]
    exact exists₂_congr hlane
  · have hand : (0#32 != (mask &&& mm256MovemaskEpi8 (masksAfter w cmp slice1 slice2 k).equal)) =
        true ↔ ∃ (l : Nat) (_ : l < 32), mask.getLsbD l = true ∧
          (mm256MovemaskEpi8 (masksAfter w cmp slice1 slice2 k).equal).getLsbD l = true := by
      rw [bne_iff_ne]
      constructor
      · intro hne
        by_contra hnone
        refine hne (BitVec.eq_of_getLsbD_eq fun l hl => ?_)
        rw [BitVec.getLsbD_zero, BitVec.getLsbD_and]
        exact (Bool.and_eq_false_imp.mpr fun hm =>
          Bool.eq_false_iff.mpr fun he => hnone ⟨l, hl, hm, he⟩).symm
      · rintro ⟨l, _, hm, he⟩ hzero
        have hbit := congrArg (fun v : BitVec 32 => v.getLsbD l) hzero
        simp only [BitVec.getLsbD_zero, BitVec.getLsbD_and, hm, he, Bool.and_self] at hbit
        exact absurd hbit (by decide)
    have hbeq : (opt == Bitwise.kSet) = false := beq_eq_false_iff_ne.mpr hset
    have hbne : (opt != Bitwise.kSet) = true := bne_iff_ne.mpr hset
    rw [hbeq, hbne, Bool.false_and, Bool.false_or, Bool.true_and, hand]
    refine exists₂_congr fun l hl => ?_
    rw [getLsbD_mm256MovemaskEpi8 _ hl, hlane l hl]
    simp only [hset, false_or]

/-- One level of the nest. -/
theorem mem_cons_level {j k : Nat} (hk : k < kNumBytesPerCode w)
    (hundecided : Undecided opt mask slice1 slice2 k) {rest : List Nat}
    (hrest : k + 1 < kNumBytesPerCode w → Undecided opt mask slice1 slice2 (k + 1) →
      (j ∈ rest ↔ k + 1 ≤ j ∧ j < kNumBytesPerCode w ∧ Undecided opt mask slice1 slice2 j)) :
    (j ∈ k :: if kNumBytesPerCode w > k + 1 ∧
        stillEqual opt mask (masksAfter w cmp slice1 slice2 (k + 1)) then rest else []) ↔
      k ≤ j ∧ j < kNumBytesPerCode w ∧ Undecided opt mask slice1 slice2 j := by
  rw [List.mem_cons]
  by_cases hgo : kNumBytesPerCode w > k + 1 ∧
      stillEqual opt mask (masksAfter w cmp slice1 slice2 (k + 1)) = true
  · rw [if_pos hgo, hrest hgo.1 ((stillEqual_iff hgo.1).mp hgo.2)]
    constructor
    · rintro (rfl | ⟨hkj, hj⟩)
      · exact ⟨Nat.le_refl _, hk, hundecided⟩
      · exact ⟨by omega, hj⟩
    · rintro ⟨hkj, hj⟩
      rcases Nat.eq_or_lt_of_le hkj with rfl | hlt
      · exact Or.inl rfl
      · exact Or.inr ⟨hlt, hj⟩
  · rw [if_neg hgo]
    constructor
    · rintro (rfl | hnil)
      · exact ⟨Nat.le_refl _, hk, hundecided⟩
      · exact absurd hnil List.not_mem_nil
    -- a later slice would need the next one, whose test failed
    · rintro ⟨hkj, hj, hlater⟩
      rcases Nat.eq_or_lt_of_le hkj with rfl | hlt
      · exact Or.inl rfl
      · have hmore : k + 1 < kNumBytesPerCode w := by omega
        exact absurd ⟨hmore, (stillEqual_iff hmore).mpr (hlater.mono hlt)⟩ hgo

/-- The run returns what the nest does. -/
theorem fst_scanSlicesRun :
    (scanSlicesRun w cmp opt mask slice1 slice2).1 = scanSlices w cmp opt mask slice1 slice2 := by
  unfold scanSlicesRun scanSlices kernelRun
  dsimp only
  split_ifs <;> rfl

theorem snd_scanSlicesRun :
    (scanSlicesRun w cmp opt mask slice1 slice2).2 =
      if opt = .kSet ∨ 0#32 ≠ mask then
        0 :: if kNumBytesPerCode w > 1 ∧
            stillEqual opt mask (masksAfter w cmp slice1 slice2 1) then
          1 :: if kNumBytesPerCode w > 2 ∧
              stillEqual opt mask (masksAfter w cmp slice1 slice2 2) then
            2 :: if kNumBytesPerCode w > 3 ∧
                stillEqual opt mask (masksAfter w cmp slice1 slice2 3) then [3] else []
          else []
        else []
      else [] := by
  unfold scanSlicesRun kernelRun
  simp only [masksAfter]
  split_ifs <;> simp [*]

/-- The slices that the nest loads: those before which some lane is undecided. -/
theorem mem_scanSlicesRun {j : Nat} :
    j ∈ (scanSlicesRun w cmp opt mask slice1 slice2).2 ↔
      j < kNumBytesPerCode w ∧ Undecided opt mask slice1 slice2 j := by
  have hle := kNumBytesPerCode_le w
  have hzero : (j < kNumBytesPerCode w ∧ Undecided opt mask slice1 slice2 j) ↔
      0 ≤ j ∧ j < kNumBytesPerCode w ∧ Undecided opt mask slice1 slice2 j :=
    (and_iff_right (Nat.zero_le j)).symm
  rw [snd_scanSlicesRun]
  by_cases henter : opt = .kSet ∨ 0#32 ≠ mask
  · rw [if_pos henter, hzero]
    refine mem_cons_level (kNumBytesPerCode_pos w) (undecided_zero_iff.mpr henter)
      fun h1 hu1 => ?_
    refine mem_cons_level h1 hu1 fun h2 hu2 => ?_
    refine mem_cons_level h2 hu2 fun h3 hu3 => ?_
    rw [List.mem_singleton]
    constructor
    · rintro rfl
      exact ⟨Nat.le_refl _, h3, hu3⟩
    · rintro ⟨hj, hlt, _⟩
      omega
  · rw [if_neg henter]
    refine iff_of_false List.not_mem_nil fun hj => henter ?_
    exact undecided_zero_iff.mp (hj.2.mono (Nat.zero_le j))

end Nest

/-! ## The record of a scan -/

variable (cmp : Comparator) (opt : Bitwise) (b : ByteSliceColumnBlock w dir)
  (operand : Nat → Nat → AvxUnit) (bvblock : BitVectorBlock)

/-- The run returns the word that the scan writes. -/
theorem fst_scanWordRun (offset bvWordId : Nat) (old : WordUnit) :
    (scanWordRun cmp opt b operand offset bvWordId old).1 =
      scanWord cmp opt b operand offset old := by
  unfold scanWordRun scanWord bitvectorWord
  rw [forLoop_of_lt _ _ (by decide), forLoop_of_lt _ _ (by decide),
    forLoop_of_le _ _ (by decide), forLoop_of_lt _ _ (by decide), forLoop_of_lt _ _ (by decide),
    forLoop_of_le _ _ (by decide)]
  cases opt <;> simp only [roundRun, fst_scanSlicesRun]

/-- The accesses of one iteration: those of the rounds at `0` and `32`, and the last ones. -/
theorem snd_scanWordRun (offset bvWordId : Nat) (old : WordUnit) :
    (scanWordRun cmp opt b operand offset bvWordId old).2 =
      loadAccess opt bvWordId ++
        (roundRun cmp opt b operand offset old 0).2.map (.slice · (offset + 0)) ++
      (loadAccess opt bvWordId ++
        (roundRun cmp opt b operand offset old 32).2.map (.slice · (offset + 32))) ++
      (loadAccess opt bvWordId ++ [.storeWord bvWordId]) := by
  unfold scanWordRun
  rw [forLoop_of_lt _ _ (by decide), forLoop_of_lt _ _ (by decide),
    forLoop_of_le _ _ (by decide)]
  rfl

/-- The run returns what the scan returns.  The outer loop reads each word before it writes
it, so its record is that of the words with which the scan began. -/
theorem scanRun_eq :
    scanRun cmp opt b operand bvblock =
      (scanHelper2 cmp opt b operand bvblock,
        ((List.range (b.numTuples ⌈/⌉ kNumWordBits)).flatMap fun k =>
          (scanWordRun cmp opt b operand (k * kNumWordBits) k (bvblock.getWordUnit k)).2) ++
          tailAccesses bvblock.tailRun.words) := by
  have hcounted := forLoop_counted kNumWordBits_pos
    (fun offset (_ : offset < b.numTuples) bvWordId (s : BitVectorBlock × List ScanAccess) =>
      let word := scanWordRun cmp opt b operand offset bvWordId (s.1.getWordUnit bvWordId)
      (s.1.setWordUnit word.1 bvWordId, s.2 ++ word.2)) (bvblock, [])
  have hframe : ∀ (b : BitVectorBlock) (i : Nat) (word : WordUnit) (j : Nat), i ≠ j →
      (b.setWordUnit word i).getWordUnit j = b.getWordUnit j :=
    fun b _ word _ hij => load_store_of_ne b.data word hij
  have hrecord := forLoop_record_cells hframe
    (fun offset old => (scanWordRun cmp opt b operand offset (offset / kNumWordBits) old).1)
    (fun offset old => (scanWordRun cmp opt b operand offset (offset / kNumWordBits) old).2)
    b.numTuples kNumWordBits kNumWordBits_pos bvblock
  refine (congrArg clearTailRun (hcounted.trans hrecord)).trans ?_
  simp only [clearTailRun, fst_scanWordRun, Nat.mul_div_cancel _ kNumWordBits_pos]
  rw [BitVectorBlock.withData_tailRun, ← scanHelper2_eq]
  refine congrArg _ (congrArg _ (congrArg tailAccesses (BitVectorBlock.words_tailRun_congr ?_)))
  exact BitVectorBlock.num_forLoop_setWordUnit _ _ _ bvblock

/-- The lanes that a round's mask leaves are those whose bit still matters. -/
theorem live_iff_matters (old : WordUnit) (i : Nat) {l : Nat} (hl : l < 32) :
    opt = .kSet ∨ (inputMask opt old i).getLsbD l = true ↔
      opt.Matters (old.getLsbD (i + l)) := by
  unfold Bitwise.Matters
  cases opt with
  | kSet => simp [Bitwise.apply]
  | kAnd => simp [Bitwise.apply, inputMask, hl]
  | kOr => cases hold : old.getLsbD (i + l) <;> simp [Bitwise.apply, inputMask, hl, hold]

variable {operand} in
/-- What a round loads, in terms of bytes and bits. -/
theorem mem_roundRun {y : Nat → Nat → Nat} (hoperand : OperandDigits operand y) (offset : Nat)
    (old : WordUnit) (i j : Nat) :
    j ∈ (roundRun cmp opt b operand offset old i).2 ↔ j < kNumBytesPerCode w ∧
      ∃ l, l < 32 ∧ opt.Matters (old.getLsbD (i + l)) ∧
        ∀ k, k < j → b.digit (offset + i + l) k = y (offset + i + l) k := by
  refine mem_scanSlicesRun.trans (and_congr_right fun _ => ?_)
  unfold Undecided
  constructor
  · rintro ⟨l, hl, hlive, heq⟩
    refine ⟨l, hl, (live_iff_matters opt old i hl).mp hlive, fun k hk => ?_⟩
    rw [← flip_lane_lddqu b k (offset + i) hl, heq k hk]
    exact hoperand k (offset + i) l hl
  · rintro ⟨l, hl, hlive, heq⟩
    refine ⟨l, hl, (live_iff_matters opt old i hl).mpr hlive, fun k hk => ?_⟩
    rw [eq_iff_flip_toNat_eq, flip_lane_lddqu b k (offset + i) hl, heq k hk]
    exact (hoperand k (offset + i) l hl).symm

/-- The slice loads of one iteration. -/
theorem slice_mem_scanWordRun {offset bvWordId : Nat} {old : WordUnit} {j a : Nat} :
    .slice j a ∈ (scanWordRun cmp opt b operand offset bvWordId old).2 ↔
      ∃ i, (i = 0 ∨ i = 32) ∧ a = offset + i ∧
        j ∈ (roundRun cmp opt b operand offset old i).2 := by
  rw [snd_scanWordRun]
  simp only [List.mem_append, mem_loadAccess, List.mem_map, List.mem_singleton]
  constructor
  · rintro (((⟨_, h⟩ | ⟨j', hj', h⟩) | (⟨_, h⟩ | ⟨j', hj', h⟩)) | (⟨_, h⟩ | h))
    · cases h
    · cases h
      exact ⟨0, Or.inl rfl, rfl, hj'⟩
    · cases h
    · cases h
      exact ⟨32, Or.inr rfl, rfl, hj'⟩
    · cases h
    · cases h
  · rintro ⟨i, rfl | rfl, rfl, hj⟩
    · exact Or.inl (Or.inl (Or.inr ⟨j, hj, rfl⟩))
    · exact Or.inl (Or.inr (Or.inr ⟨j, hj, rfl⟩))

/-- The whole record: the loop's, word by word, and that of `ClearTail`. -/
theorem mem_scanAccesses {access : ScanAccess} :
    access ∈ scanAccesses cmp opt b operand bvblock ↔
      (∃ k, k * kNumWordBits < b.numTuples ∧ access ∈
        (scanWordRun cmp opt b operand (k * kNumWordBits) k (bvblock.getWordUnit k)).2) ∨
      access ∈ tailAccesses bvblock.tailRun.words := by
  have hcount : ∀ k, k ∈ List.range (b.numTuples ⌈/⌉ kNumWordBits) ↔
      k * kNumWordBits < b.numTuples := by
    intro k
    rw [List.mem_range, ← not_le, ceilDiv_le_iff_le_mul kNumWordBits_pos, not_le, Nat.mul_comm]
  unfold scanAccesses
  rw [scanRun_eq, List.mem_append, List.mem_flatMap]
  exact or_congr_left (exists_congr fun k => and_congr_left' (hcount k))

variable {operand} in
/-- The slice loads of a scan. -/
theorem slice_mem_scanAccesses {y : Nat → Nat → Nat} (hoperand : OperandDigits operand y)
    {j a : Nat} :
    .slice j a ∈ scanAccesses cmp opt b operand bvblock ↔
      32 ∣ a ∧ a / 64 * 64 < b.numTuples ∧ j < kNumBytesPerCode w ∧
        ∃ l, l < 32 ∧ opt.Matters (bvblock.getBit (a + l)) ∧
          ∀ k, k < j → b.digit (a + l) k = y (a + l) k := by
  have hround : ∀ k i, i = 0 ∨ i = 32 →
      (j ∈ (roundRun cmp opt b operand (k * kNumWordBits) (bvblock.getWordUnit k) i).2 ↔
        j < kNumBytesPerCode w ∧ ∃ l, l < 32 ∧
          opt.Matters (bvblock.getBit (k * kNumWordBits + i + l)) ∧
            ∀ k', k' < j → b.digit (k * kNumWordBits + i + l) k' =
              y (k * kNumWordBits + i + l) k') := by
    intro k i hi
    refine (mem_roundRun cmp opt b hoperand _ _ i j).trans (and_congr_right fun _ => ?_)
    refine exists_congr fun l => and_congr_right fun hl => and_congr_left' ?_
    have hbit := bitAt_mul_add bvblock.getWordUnit k (j := i + l) (by omega)
    rw [← BitVectorBlock.getBit_eq] at hbit
    rw [kNumWordBits_eq, Nat.mul_comm k, Nat.add_assoc, hbit]
  rw [mem_scanAccesses]
  constructor
  · rintro (⟨k, hk, hmem⟩ | htail)
    · obtain ⟨i, hi, rfl, hj⟩ := (slice_mem_scanWordRun cmp opt b operand).mp hmem
      obtain ⟨hlt, hlane⟩ := (hround k i hi).mp hj
      rw [kNumWordBits_eq] at hk hlane ⊢
      exact ⟨by omega, by omega, hlt, hlane⟩
    · obtain ⟨_, _, hload | hstore⟩ := exists_of_mem_tailAccesses htail
      · cases hload
      · cases hstore
  · rintro ⟨hdvd, hlt, hj, hlane⟩
    have hi : a % 64 = 0 ∨ a % 64 = 32 := by omega
    have ha : a / 64 * kNumWordBits + a % 64 = a := by
      rw [kNumWordBits_eq]
      omega
    refine Or.inl ⟨a / 64, hlt, (slice_mem_scanWordRun cmp opt b operand).mpr
      ⟨a % 64, hi, ha.symm, (hround _ _ hi).mpr ⟨hj, ?_⟩⟩⟩
    rw [ha]
    exact hlane

/-! ## No load is repeated -/

theorem nodup_roundRun (offset : Nat) (old : WordUnit) (i : Nat) :
    (roundRun cmp opt b operand offset old i).2.Nodup := by
  unfold roundRun
  rw [snd_scanSlicesRun]
  split_ifs <;> decide

theorem filterMap_toSlice_scanWordRun (offset bvWordId : Nat) (old : WordUnit) :
    (scanWordRun cmp opt b operand offset bvWordId old).2.filterMap ScanAccess.toSlice =
      (roundRun cmp opt b operand offset old 0).2.map (·, offset) ++
        (roundRun cmp opt b operand offset old 32).2.map (·, offset + 32) := by
  have hload : ∀ pos, (loadAccess opt pos).filterMap ScanAccess.toSlice = [] := by
    intro pos
    unfold loadAccess
    split <;> rfl
  have hslices : ∀ (slices : List Nat) (a : Nat),
      (slices.map (ScanAccess.slice · a)).filterMap ScanAccess.toSlice = slices.map (·, a) := by
    intro slices a
    rw [List.filterMap_map, ← List.filterMap_eq_map]
    rfl
  have hstore : ∀ pos, [ScanAccess.storeWord pos].filterMap ScanAccess.toSlice = [] :=
    fun _ => rfl
  rw [snd_scanWordRun]
  simp only [List.filterMap_append, hload, hslices, hstore, List.nil_append, List.append_nil,
    Nat.add_zero]

/-- Every slice is loaded at most once at an address. -/
theorem nodup_slices_scanAccesses :
    ((scanAccesses cmp opt b operand bvblock).filterMap ScanAccess.toSlice).Nodup := by
  have htail : (tailAccesses bvblock.tailRun.words).filterMap ScanAccess.toSlice = [] := by
    rw [List.filterMap_eq_nil_iff]
    intro access hmem
    obtain ⟨_, _, rfl | rfl⟩ := exists_of_mem_tailAccesses hmem <;> rfl
  -- the rounds of one word load at two addresses, those of other words at others
  have hword : ∀ k, ∀ load ∈ (scanWordRun cmp opt b operand (k * kNumWordBits) k
      (bvblock.getWordUnit k)).2.filterMap ScanAccess.toSlice, load.2 / 64 = k := by
    intro k load hload
    rw [filterMap_toSlice_scanWordRun, List.mem_append, List.mem_map, List.mem_map,
      kNumWordBits_eq] at hload
    rcases hload with ⟨j, _, rfl⟩ | ⟨j, _, rfl⟩
    · exact Nat.mul_div_cancel k (by decide)
    · show (k * 64 + 32) / 64 = k
      omega
  unfold scanAccesses
  rw [scanRun_eq, List.filterMap_append, htail, List.append_nil, List.filterMap_flatMap,
    List.nodup_flatMap]
  refine ⟨fun k _ => ?_, List.nodup_range.pairwise_of_forall_ne fun k _ k' _ hne => ?_⟩
  · rw [filterMap_toSlice_scanWordRun]
    refine List.Nodup.append ?_ ?_ ?_
    · exact (nodup_roundRun cmp opt b operand _ _ 0).map fun _ _ h => (Prod.mk.inj h).1
    · exact (nodup_roundRun cmp opt b operand _ _ 32).map fun _ _ h => (Prod.mk.inj h).1
    · intro load hlow hhigh
      obtain ⟨_, _, rfl⟩ := List.mem_map.mp hlow
      obtain ⟨_, _, h⟩ := List.mem_map.mp hhigh
      have := (Prod.mk.inj h).2
      omega
  · intro load hk hk'
    exact hne ((hword k load hk).symm.trans (hword k' load hk'))

/-! ## The storage -/

/-- A word index of an iteration and a word of the storage. -/
theorem lt_kNumWordsPerBlock_of_mul_lt {k num : Nat} (hk : k * kNumWordBits < num)
    (hnum : num ≤ kNumTuplesPerBlock) : k < kNumWordsPerBlock := by
  rw [kNumWordBits_eq] at hk
  rw [kNumTuplesPerBlock_eq] at hnum
  rw [kNumWordsPerBlock_eq]
  omega

/-- The scan stays inside the storage exactly when the block records no more tuples than
it has room for.  The bit vector block's own size does not matter. -/
theorem scanAccesses_inRange_iff :
    (∀ access ∈ scanAccesses cmp opt b operand bvblock, access.InRange (.byteSlice w)) ↔
      b.numTuples ≤ kNumTuplesPerBlock := by
  constructor
  · intro hall
    by_contra hgt
    -- the iteration behind the last word of the storage stores there
    have hstore : ScanAccess.storeWord kNumWordsPerBlock ∈
        scanAccesses cmp opt b operand bvblock := by
      refine (mem_scanAccesses cmp opt b operand bvblock).mpr
        (Or.inl ⟨kNumWordsPerBlock, ?_, ?_⟩)
      · rw [kNumTuplesPerBlock_eq] at hgt
        rw [kNumWordsPerBlock_eq, kNumWordBits_eq]
        omega
      · rw [snd_scanWordRun]
        simp
    exact Nat.lt_irrefl _ (hall _ hstore)
  · intro hnum access hmem
    rcases (mem_scanAccesses cmp opt b operand bvblock).mp hmem with ⟨k, hk, hword⟩ | htail
    · have hlt := lt_kNumWordsPerBlock_of_mul_lt hk hnum
      cases access with
      | slice j a =>
          obtain ⟨i, hi, rfl, hj⟩ := (slice_mem_scanWordRun cmp opt b operand).mp hword
          refine ⟨(mem_scanSlicesRun.mp hj).1, ?_⟩
          rw [kNumWordBits_eq] at hk ⊢
          rw [kNumTuplesPerBlock_eq] at hnum
          rw [kMemSizePerByteSlice_eq, kNumTuplesPerBlock_eq, kNumAvxBits_eq]
          omega
      | element pos =>
          rw [snd_scanWordRun] at hword
          simp [mem_loadAccess] at hword
      | loadWord pos =>
          rw [snd_scanWordRun] at hword
          simp only [List.mem_append, mem_loadAccess, List.mem_map, List.mem_singleton,
            ScanAccess.loadWord.injEq, reduceCtorEq, and_false, exists_false, or_false,
            or_self] at hword
          exact hword.2 ▸ hlt
      | storeWord pos =>
          rw [snd_scanWordRun] at hword
          simp only [List.mem_append, mem_loadAccess, List.mem_map, List.mem_singleton,
            ScanAccess.storeWord.injEq, reduceCtorEq, and_false, exists_false, false_or] at hword
          exact hword ▸ hlt
    · obtain ⟨pos, hpos, haccess⟩ := exists_of_mem_tailAccesses htail
      have hwords := bvblock.numWordUnits_le
      have hlast := ((bvblock.mem_words_tailRun pos).mp hpos).2.2
      rcases haccess with rfl | rfl
      · show pos < kNumWordsPerBlock
        omega
      · show pos < kNumWordsPerBlock
        omega

end ByteSliceColumnBlock

namespace NaiveColumnBlock

variable {dt : DType} (cmp : Comparator) (opt : Bitwise) (b : NaiveColumnBlock dt)
  (lit : Nat → BitVec dt.bits) (bvBlock : BitVectorBlock)

/-- The inner loop, with the elements that it reads up to the last one. -/
def scanBitsRun (offset : Nat) : WordUnit × List ScanAccess :=
  forLoop (min kNumWordBits (b.numTuples - offset)) 1 Nat.one_pos
    (fun i _ (s : WordUnit × List ScanAccess) =>
      (s.1 |||
        (if compare cmp (load b.data (offset + i)) (lit (offset + i)) then 1#64 else 0#64) <<< i,
        s.2 ++ [.element (offset + i)]))
    0 (0#64, [])

/-- `ScanHelper2`. -/
def scanRun : BitVectorBlock × List ScanAccess :=
  forLoop b.numTuples kNumWordBits kNumWordBits_pos
    (fun offset _ (s : BitVectorBlock × List ScanAccess) =>
      let word := scanBitsRun cmp b lit offset
      let bvWordId := offset / kNumWordBits
      let x :=
        match opt with
        | .kSet => word.1
        | .kAnd => s.1.getWordUnit bvWordId &&& word.1
        | .kOr => s.1.getWordUnit bvWordId ||| word.1
      (s.1.setWordUnit x bvWordId,
        s.2 ++ (word.2 ++ (loadAccess opt bvWordId ++ [.storeWord bvWordId]))))
    0 (bvBlock, [])

/-- The accesses of `ScanHelper2`. -/
def scanAccesses : List ScanAccess := (scanRun cmp opt b lit bvBlock).2

theorem scanBitsRun_eq (offset : Nat) :
    scanBitsRun cmp b lit offset = (scanBits cmp b lit offset,
      (List.range (min kNumWordBits (b.numTuples - offset))).map fun i =>
        .element (offset + i)) := by
  have hrecord := @forLoop_record _ (min kNumWordBits (b.numTuples - offset)) _ Nat.one_pos _
    (fun i (word : WordUnit) => word |||
      (if compare cmp (load b.data (offset + i)) (lit (offset + i)) then 1#64 else 0#64) <<< i)
    (fun i => [ScanAccess.element (offset + i)]) 0#64
  refine hrecord.trans ?_
  simp only [Nat.mul_one, ← List.map_eq_flatMap]
  rw [show ∀ n, n ⌈/⌉ 1 = n by simp]
  rfl

/-- The run returns what the scan returns, and its record depends on neither operand. -/
theorem scanRun_eq :
    scanRun cmp opt b lit bvBlock = (scanHelper2 cmp opt b lit bvBlock,
      (List.range (b.numTuples ⌈/⌉ kNumWordBits)).flatMap fun k =>
        (List.range (min kNumWordBits (b.numTuples - k * kNumWordBits))).map
            (fun i => .element (k * kNumWordBits + i)) ++
          (loadAccess opt k ++ [.storeWord k])) := by
  have hrecord := @forLoop_record _ b.numTuples _ kNumWordBits_pos _
    (fun offset (bvBlock : BitVectorBlock) =>
      let word := scanBits cmp b lit offset
      let bvWordId := offset / kNumWordBits
      let x :=
        match opt with
        | .kSet => word
        | .kAnd => bvBlock.getWordUnit bvWordId &&& word
        | .kOr => bvBlock.getWordUnit bvWordId ||| word
      bvBlock.setWordUnit x bvWordId)
    (fun offset =>
      (List.range (min kNumWordBits (b.numTuples - offset))).map (.element <| offset + ·) ++
        (loadAccess opt (offset / kNumWordBits) ++ [.storeWord (offset / kNumWordBits)])) bvBlock
  simp only [Nat.mul_div_cancel _ kNumWordBits_pos] at hrecord
  unfold scanRun
  simp only [scanBitsRun_eq]
  exact hrecord

theorem mem_scanAccesses {access : ScanAccess} :
    access ∈ scanAccesses cmp opt b lit bvBlock ↔ ∃ k, k * kNumWordBits < b.numTuples ∧
      access ∈ (List.range (min kNumWordBits (b.numTuples - k * kNumWordBits))).map
          (fun i => .element (k * kNumWordBits + i)) ++
        (loadAccess opt k ++ [.storeWord k]) := by
  unfold scanAccesses
  rw [scanRun_eq, List.mem_flatMap]
  refine exists_congr fun k => and_congr_left' ?_
  rw [List.mem_range, ← not_le, ceilDiv_le_iff_le_mul kNumWordBits_pos, not_le, Nat.mul_comm]

/-- The array is read exactly at its elements. -/
theorem element_mem_scanAccesses {pos : Nat} :
    .element pos ∈ scanAccesses cmp opt b lit bvBlock ↔ pos < b.numTuples := by
  rw [mem_scanAccesses]
  simp only [List.mem_append, mem_loadAccess, List.mem_map, List.mem_range, List.mem_singleton,
    ScanAccess.element.injEq, reduceCtorEq, and_false, or_false]
  constructor
  · rintro ⟨k, _, i, hi, rfl⟩
    omega
  · intro hpos
    have hmod := Nat.mod_lt pos kNumWordBits_pos
    have hsplit := Nat.div_add_mod' pos kNumWordBits
    exact ⟨pos / kNumWordBits, by omega, pos % kNumWordBits, by omega, hsplit⟩

theorem scanAccesses_inRange_iff :
    (∀ access ∈ scanAccesses cmp opt b lit bvBlock, access.InRange (.naive dt)) ↔
      b.numTuples ≤ kNumTuplesPerBlock := by
  constructor
  · intro hall
    by_contra hgt
    have hlast := (element_mem_scanAccesses cmp opt b lit bvBlock).mpr (Nat.not_le.mp hgt)
    exact Nat.lt_irrefl _ (hall _ hlast)
  · intro hnum access hmem
    cases access with
    | slice j a =>
        obtain ⟨k, _, hword⟩ := (mem_scanAccesses cmp opt b lit bvBlock).mp hmem
        simp [mem_loadAccess] at hword
    | element pos =>
        exact ((element_mem_scanAccesses cmp opt b lit bvBlock).mp hmem).trans_le hnum
    | loadWord pos =>
        obtain ⟨k, hk, hword⟩ := (mem_scanAccesses cmp opt b lit bvBlock).mp hmem
        have hlt := ByteSliceColumnBlock.lt_kNumWordsPerBlock_of_mul_lt hk hnum
        simp only [List.mem_append, mem_loadAccess, List.mem_map, List.mem_singleton,
          ScanAccess.loadWord.injEq, reduceCtorEq, and_false, exists_false, or_false,
          false_or] at hword
        exact hword.2 ▸ hlt
    | storeWord pos =>
        obtain ⟨k, hk, hword⟩ := (mem_scanAccesses cmp opt b lit bvBlock).mp hmem
        have hlt := ByteSliceColumnBlock.lt_kNumWordsPerBlock_of_mul_lt hk hnum
        simp only [List.mem_append, mem_loadAccess, List.mem_map, List.mem_singleton,
          ScanAccess.storeWord.injEq, reduceCtorEq, and_false, exists_false, false_or] at hword
        exact hword ▸ hlt

end NaiveColumnBlock

namespace ColumnBlock

/-- The accesses of a scan against a literal. -/
def scanAccesses (block : ColumnBlock) (cmp : Comparator) (literal : WordUnit)
    (bvBlock : BitVectorBlock) (opt : Bitwise) : List ScanAccess :=
  match block with
  | .naive dt b => b.scanAccesses cmp opt (fun _ => literal.setWidth dt.bits) bvBlock
  | .byteSlice w b =>
      b.scanAccesses cmp opt
        (fun byteId _ => ByteSliceColumnBlock.maskLiteral w .kRight literal byteId) bvBlock

/-- The accesses of a scan against another block, to the storage of both. -/
def scanBlockAccesses (block : ColumnBlock) (cmp : Comparator) (columnBlock : ColumnBlock)
    (bvBlock : BitVectorBlock) (opt : Bitwise) : Option (List ScanAccess) :=
  match block with
  | .naive dt b =>
      some (b.scanAccesses cmp opt (fun pos => (columnBlock.getTuple pos).setWidth dt.bits) bvBlock)
  | .byteSlice w b =>
      match columnBlock with
      | .naive _ _ => none
      | .byteSlice w' b' =>
          if h : w' = w then
            some (b.scanAccesses cmp opt
              (fun byteId addr => mm256LddquSi256 (load (h ▸ b').data byteId) addr) bvBlock)
          else none

theorem scanAccesses_inRange_iff (block : ColumnBlock) (cmp : Comparator) (literal : WordUnit)
    (bvBlock : BitVectorBlock) (opt : Bitwise) :
    (∀ access ∈ block.scanAccesses cmp literal bvBlock opt, access.InRange block.kind) ↔
      block.numTuples ≤ kNumTuplesPerBlock := by
  cases block with
  | naive dt b => exact NaiveColumnBlock.scanAccesses_inRange_iff cmp opt b _ bvBlock
  | byteSlice w b => exact ByteSliceColumnBlock.scanAccesses_inRange_iff cmp opt b _ bvBlock

theorem scanBlockAccesses_inRange_iff (block : ColumnBlock) (cmp : Comparator)
    (columnBlock : ColumnBlock) (bvBlock : BitVectorBlock) (opt : Bitwise)
    {accesses : List ScanAccess}
    (haccesses : block.scanBlockAccesses cmp columnBlock bvBlock opt = some accesses) :
    (∀ access ∈ accesses, access.InRange block.kind) ↔ block.numTuples ≤ kNumTuplesPerBlock := by
  cases block with
  | naive dt b =>
      obtain rfl := Option.some.inj haccesses
      exact NaiveColumnBlock.scanAccesses_inRange_iff cmp opt b _ bvBlock
  | byteSlice w b =>
      cases columnBlock with
      | naive dt b' => cases haccesses
      | byteSlice w' b' =>
          unfold scanBlockAccesses at haccesses
          dsimp only at haccesses
          split at haccesses
          · obtain rfl := Option.some.inj haccesses
            exact ByteSliceColumnBlock.scanAccesses_inRange_iff cmp opt b _ bvBlock
          · cases haccesses

/-- A block can be compared with itself. -/
theorem exists_scanBlockAccesses_self (block : ColumnBlock) (cmp : Comparator)
    (bvBlock : BitVectorBlock) (opt : Bitwise) :
    ∃ accesses, block.scanBlockAccesses cmp block bvBlock opt = some accesses := by
  cases block with
  | naive dt b => exact ⟨_, rfl⟩
  | byteSlice w b => exact ⟨_, dif_pos rfl⟩

end ColumnBlock

/-- No block ever records more tuples than it has room for. -/
theorem ColumnBlock.invariant_numTuples (type : ColumnType) (bitWidth : Nat) :
    ColumnBlock.Invariant type bitWidth fun block => block.numTuples ≤ kNumTuplesPerBlock where
  setTuple block pos value hle := by
    rw [block.numTuples_setTuple]
    exact hle
  resize block size hsize _ := by
    rw [block.numTuples_resize]
    exact hsize
  new block hnew := by
    obtain ⟨kind, _, rfl⟩ := Option.map_eq_some_iff.mp hnew
    cases kind <;> exact Nat.le_refl _

/-- A byte of the masked and padded literal. -/
def ByteSliceColumnBlock.literalDigit (w : BitWidth) (literal : WordUnit) (byteId : Nat) : Nat :=
  ((literal &&& kCodeMask w) <<< kNumPaddingBits w).toNat /
    256 ^ (kNumBytesPerCode w - 1 - byteId) % 256

/-- Slice `j` is loaded at address `a` exactly when `a` is the start of 32 lanes of a word
that holds tuples and one of these lanes has a bit that still matters and agrees with the
second operand in the `j` bytes before; and it is loaded once only. -/
def ByteSliceColumnBlock.LoadsOnDemand {w : BitWidth} {dir : Direction} (cmp : Comparator)
    (opt : Bitwise) (b : ByteSliceColumnBlock w dir) (operand : Nat → Nat → AvxUnit)
    (digit : Nat → Nat → Nat) (bvblock : BitVectorBlock) : Prop :=
  (∀ j a, .slice j a ∈ scanAccesses cmp opt b operand bvblock ↔
    32 ∣ a ∧ a / 64 * 64 < b.numTuples ∧ j < kNumBytesPerCode w ∧
      ∃ l, l < 32 ∧ opt.Matters (bvblock.getBit (a + l)) ∧
        ∀ k, k < j → b.digit (a + l) k = digit (a + l) k) ∧
  ((scanAccesses cmp opt b operand bvblock).filterMap ScanAccess.toSlice).Nodup

/-- **Early stop, exactly.**  The recorded run of either scan leaves the bit vector block that
the scan leaves, and it loads a slice of 32 tuples if and only if one of them needs it:
its bit can still change and the slices before do not decide the comparison. -/
theorem scan_footprint (w : BitWidth) (b : ByteSliceColumnBlock w .kRight) (cmp : Comparator)
    (opt : Bitwise) (bvblock : BitVectorBlock) :
    (∀ literal : WordUnit,
      let operand := fun byteId (_ : Nat) =>
        ByteSliceColumnBlock.maskLiteral w .kRight literal byteId
      (ByteSliceColumnBlock.scanRun cmp opt b operand bvblock).1 =
        b.scan cmp literal bvblock opt ∧
      ByteSliceColumnBlock.LoadsOnDemand cmp opt b operand
        (fun _ byteId => ByteSliceColumnBlock.literalDigit w literal byteId) bvblock) ∧
    ∀ otherBlock : ByteSliceColumnBlock w .kRight,
      let operand := fun byteId addr => mm256LddquSi256 (load otherBlock.data byteId) addr
      (ByteSliceColumnBlock.scanRun cmp opt b operand bvblock).1 =
        b.scanBlock cmp otherBlock bvblock opt ∧
      ByteSliceColumnBlock.LoadsOnDemand cmp opt b operand otherBlock.digit bvblock := by
  have hrun : ∀ operand, (ByteSliceColumnBlock.scanRun cmp opt b operand bvblock).1 =
      ByteSliceColumnBlock.scanHelper2 cmp opt b operand bvblock := by
    intro operand
    rw [ByteSliceColumnBlock.scanRun_eq]
  have hloads : ∀ operand digit, ByteSliceColumnBlock.OperandDigits operand digit →
      ByteSliceColumnBlock.LoadsOnDemand cmp opt b operand digit bvblock :=
    fun operand digit hdigits =>
      ⟨fun j a => ByteSliceColumnBlock.slice_mem_scanAccesses cmp opt b bvblock hdigits,
        ByteSliceColumnBlock.nodup_slices_scanAccesses cmp opt b operand bvblock⟩
  exact ⟨fun literal => ⟨hrun _, hloads _ _
      (ByteSliceColumnBlock.operandDigits_maskLiteral w literal)⟩,
    fun otherBlock => ⟨hrun _, hloads _ _ fun byteId addr _ hl =>
      ByteSliceColumnBlock.flip_lane_lddqu otherBlock byteId addr hl⟩⟩

/-- **Scans stay inside their storage.**  Of every block of either class, whatever its bytes,
the comparator, the second operand and the bit vector block, also one of another size: all
accesses of a scan are inside the storage if and only if the block records at most
`kNumTuplesPerBlock` tuples. -/
theorem scan_inRange_iff (block : ColumnBlock) (cmp : Comparator) (bvBlock : BitVectorBlock)
    (opt : Bitwise) :
    (∀ literal, (∀ access ∈ block.scanAccesses cmp literal bvBlock opt,
      access.InRange block.kind) ↔ block.numTuples ≤ kNumTuplesPerBlock) ∧
    ∀ columnBlock accesses, block.scanBlockAccesses cmp columnBlock bvBlock opt = some accesses →
      ((∀ access ∈ accesses, access.InRange block.kind) ↔
        block.numTuples ≤ kNumTuplesPerBlock) :=
  ⟨fun literal => block.scanAccesses_inRange_iff cmp literal bvBlock opt,
    fun columnBlock _ haccesses =>
      block.scanBlockAccesses_inRange_iff cmp columnBlock bvBlock opt haccesses⟩

/-- A plain array of three elements against another one. -/
theorem scan_inRange_iff_three :
    ∃ accesses, (ColumnBlock.naive .uint8 (NaiveColumnBlock.new 3)).scanBlockAccesses .kLess
        (.naive .uint8 (NaiveColumnBlock.new 3)) (BitVectorBlock.new 3 (by decide) (by decide))
        .kSet = some accesses ∧
      ∀ access ∈ accesses, access.InRange (.naive .uint8) :=
  ⟨_, rfl, ((scan_inRange_iff (.naive .uint8 (NaiveColumnBlock.new 3)) .kLess
    (BitVectorBlock.new 3 (by decide) (by decide)) .kSet).2
      (.naive .uint8 (NaiveColumnBlock.new 3)) _ rfl).mpr (by decide)⟩

/-- **No reachable column scans outside its storage.**  In every state that construction and
any writes, bulk loads and resizes reach, to whatever sizes and whether or not the layout
is still right, every iteration of either scan stays inside the storage.  The runs of the
code are those in which no bulk load writes outside the array of a block. -/
theorem column_scan_inRange (type : ColumnType) (bitWidth n : Nat) (start c : Column)
    (hnew : Column.new type bitWidth n = some start) (ops : List ColumnOp)
    (hrun : runOps ColumnOp.exec start ops = some c) (i : Nat) (block : ColumnBlock)
    (hblock : c.blocks[i]? = some block) (cmp : Comparator) (bvBlock : BitVectorBlock)
    (opt : Bitwise) :
    (∀ literal, ∀ access ∈ block.scanAccesses cmp literal bvBlock opt,
      access.InRange block.kind) ∧
    ∀ columnBlock accesses, block.scanBlockAccesses cmp columnBlock bvBlock opt = some accesses →
      ∀ access ∈ accesses, access.InRange block.kind := by
  have hinv := ColumnBlock.invariant_numTuples type bitWidth
  have hsize : block.numTuples ≤ kNumTuplesPerBlock :=
    ((Column.AllBlocks.new hinv hnew).runOps hinv hrun).all block (List.mem_of_getElem? hblock)
  exact ⟨fun literal => (block.scanAccesses_inRange_iff cmp literal bvBlock opt).mpr hsize,
    fun columnBlock _ haccesses =>
      (block.scanBlockAccesses_inRange_iff cmp columnBlock bvBlock opt haccesses).mpr hsize⟩

/-- A column of five tuples, grown to three blocks and shrunk again, which leaves a block too
many. -/
theorem column_scan_inRange_five :
    ∃ start c block, Column.new .kByteSlicePadRight 11 5 = some start ∧
      runOps ColumnOp.exec start [.resize 3000000, .resize 4] = some c ∧
      c.blocks[0]? = some block ∧
      ∀ access ∈ block.scanAccesses .kLess 5#64 (BitVectorBlock.new 4 (by decide) (by decide))
        .kSet, access.InRange block.kind := by
  have hkind : Column.blockKind .kByteSlicePadRight 11 =
      some (.byteSlice ⟨11, by decide, by decide⟩) := rfl
  obtain ⟨start, hnew, _⟩ := Column.exists_new hkind 5
  have hops : AdmissibleRun KeptValues.Admits KeptValues.next (KeptValues.start 5)
      [.resize 3000000, .resize 4] :=
    ⟨show 1 ≤ 3000000 by decide, show 1 ≤ 4 by decide, trivial⟩
  obtain ⟨c, hrun, hkeeps⟩ := (Column.keeps_new hkind hnew (by decide)).exists_runOps hops
  have hpos : 0 < c.blocks.length :=
    (chunkCount_pos kNumTuplesPerBlock_pos (show 0 < 4 by decide)).trans_le hkeeps.enough
  have hblock := List.getElem?_eq_getElem hpos
  exact ⟨start, c, _, hnew, hrun, hblock, (column_scan_inRange .kByteSlicePadRight 11 5 start c
    hnew _ hrun 0 _ hblock .kLess (BitVectorBlock.new 4 (by decide) (by decide)) .kSet).1 5#64⟩

end ByteSlice
