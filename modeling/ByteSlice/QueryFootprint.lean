import Mathlib
import ByteSlice.ScanFootprint

/-!
# Queries of several scans

A query with several predicates scans one block after another into the same bit vector
block.  This is where the mask of the old bits and the early stop work together: what one
scan leaves decides which bytes the next one loads.

The results are about whole queries.  In a conjunction a scan loads a byte only for tuples
that all predicates before it have accepted.  In a disjunction it loads a byte only for
tuples that none of them has accepted, and there the lanes behind the last tuple, whose bits
are always clear, count as such tuples.
-/

namespace ByteSlice

open Foundation

/-- In the words that hold tuples, a bit that is set is that of a tuple. -/
theorem BitVectorBlock.TailClear.getBit_of_word {b : BitVectorBlock} (h : b.TailClear) {p : Nat}
    (hword : p / 64 * 64 < b.num) : b.getBit p = (decide (p < b.num) && b.getBit p) := by
  by_cases hp : p < b.num
  · rw [decide_eq_true hp, Bool.true_and]
  · have hlast : p < 64 * b.numWordUnits := by
      rw [numWordUnits_eq]
      omega
    rw [h p (Nat.not_lt.mp hp) hlast, Bool.and_false]

/-- What a scan compares the tuples of a block with. -/
inductive SecondOperand (w : BitWidth)
  | literal (value : WordUnit)
  | block (otherBlock : ByteSliceColumnBlock w .kRight)

/-- One call of `Scan` on a block. -/
structure BlockScan where
  w : BitWidth
  block : ByteSliceColumnBlock w .kRight
  cmp : Comparator
  operand : SecondOperand w
  opt : Bitwise

namespace SecondOperand

variable {w : BitWidth}

/-- The 32 lanes that the kernel of a byte is given. -/
def unit : SecondOperand w → Nat → Nat → AvxUnit
  | .literal value => fun byteId _ => ByteSliceColumnBlock.maskLiteral w .kRight value byteId
  | .block otherBlock => fun byteId addr => mm256LddquSi256 (load otherBlock.data byteId) addr

/-- The byte that a tuple's byte is compared with. -/
def digit : SecondOperand w → Nat → Nat → Nat
  | .literal value => fun _ byteId => ByteSliceColumnBlock.literalDigit w value byteId
  | .block otherBlock => otherBlock.digit

/-- The number that a tuple is compared with. -/
def value : SecondOperand w → Nat → Nat
  | .literal value => fun _ => value.toNat % 2 ^ w.bits
  | .block otherBlock => fun p => (otherBlock.getTuple p).toNat

/-- A block as operand is one that writes and resizes within its memory have made. -/
def Reachable : SecondOperand w → Prop
  | .literal _ => True
  | .block otherBlock => otherBlock.Reachable

theorem operandDigits (operand : SecondOperand w) :
    ByteSliceColumnBlock.OperandDigits operand.unit operand.digit := by
  cases operand with
  | literal value => exact ByteSliceColumnBlock.operandDigits_maskLiteral w value
  | block otherBlock =>
      intro byteId addr _ hl
      exact ByteSliceColumnBlock.flip_lane_lddqu otherBlock byteId addr hl

end SecondOperand

namespace BlockScan

def exec (bvblock : BitVectorBlock) (s : BlockScan) : BitVectorBlock :=
  match s.operand with
  | .literal value => s.block.scan s.cmp value bvblock s.opt
  | .block otherBlock => s.block.scanBlock s.cmp otherBlock bvblock s.opt

def accesses (bvblock : BitVectorBlock) (s : BlockScan) : List ScanAccess :=
  s.block.scanAccesses s.cmp s.opt s.operand.unit bvblock

/-- Whether a tuple satisfies the predicate. -/
def outcome (s : BlockScan) (p : Nat) : Bool :=
  s.cmp.holds (s.block.getTuple p).toNat (s.operand.value p)

/-- The first `j` bytes of a tuple do not tell it from the operand. -/
def Ties (s : BlockScan) (p j : Nat) : Prop :=
  ∀ k, k < j → s.block.digit p k = s.operand.digit p k

/-- A scan of a block of `n` tuples that construction, writes and resizes have made. -/
structure WellFormed (n : Nat) (s : BlockScan) : Prop where
  block : s.block.Reachable
  operand : s.operand.Reachable
  numTuples : s.block.numTuples = n

/-- The query: all scans, in their order. -/
def execAll (bvblock : BitVectorBlock) (scans : List BlockScan) : BitVectorBlock :=
  scans.foldl exec bvblock

/-- The accesses of each scan of a query. -/
def accessesAll : BitVectorBlock → List BlockScan → List (List ScanAccess)
  | _, [] => []
  | bvblock, s :: scans => s.accesses bvblock :: accessesAll (s.exec bvblock) scans

/-- The meaning of a query on a tuple whose bit is `old`. -/
def selected (scans : List BlockScan) (p : Nat) (old : Bool) : Bool :=
  scans.foldl (fun old s => s.opt.apply old (s.outcome p)) old

/-! ## One scan -/

theorem exec_eq (bvblock : BitVectorBlock) (s : BlockScan) :
    s.exec bvblock =
      ByteSliceColumnBlock.scanHelper2 s.cmp s.opt s.block s.operand.unit bvblock := by
  unfold exec
  split <;> rename_i h <;> rw [h] <;> rfl

@[simp] theorem num_exec (bvblock : BitVectorBlock) (s : BlockScan) :
    (s.exec bvblock).num = bvblock.num := by
  rw [exec_eq, ByteSliceColumnBlock.num_scanHelper2]

theorem tailClear_exec (bvblock : BitVectorBlock) (s : BlockScan) :
    (s.exec bvblock).TailClear := by
  rw [exec_eq]
  exact ByteSliceColumnBlock.tailClear_scanHelper2 _ _ _ _ _

theorem getBit_exec {n : Nat} {s : BlockScan} (hs : s.WellFormed n) {bvblock : BitVectorBlock}
    (hnum : bvblock.num = n) {p : Nat} (hp : p < n) :
    (s.exec bvblock).getBit p = s.opt.apply (bvblock.getBit p) (s.outcome p) := by
  obtain ⟨w, block, cmp, operand, opt⟩ := s
  obtain ⟨hblock, hoperand, rfl⟩ := hs
  cases operand with
  | literal value =>
      exact ByteSliceColumnBlock.getBit_scan cmp value opt hblock.paddingClean hnum hp
  | block otherBlock =>
      exact ByteSliceColumnBlock.getBit_scanBlock cmp opt hblock.paddingClean
        hoperand.paddingClean hnum hp

/-! ## A query -/

variable {n : Nat} {start : BitVectorBlock} {scans : List BlockScan}

theorem num_execAll (bvblock : BitVectorBlock) (scans : List BlockScan) :
    (execAll bvblock scans).num = bvblock.num := by
  induction scans generalizing bvblock with
  | nil => rfl
  | cons s scans ih => exact (ih (s.exec bvblock)).trans (s.num_exec bvblock)

theorem tailClear_execAll (htail : start.TailClear) (scans : List BlockScan) :
    (execAll start scans).TailClear := by
  induction scans generalizing start with
  | nil => exact htail
  | cons s scans ih => exact ih (tailClear_exec start s)

theorem getBit_execAll (hnum : start.num = n) (hscans : ∀ s ∈ scans, s.WellFormed n) {p : Nat}
    (hp : p < n) : (execAll start scans).getBit p = selected scans p (start.getBit p) := by
  induction scans generalizing start with
  | nil => rfl
  | cons s scans ih =>
      have hrest := ih ((s.num_exec start).trans hnum) fun s' hs' =>
        hscans s' (List.mem_cons_of_mem _ hs')
      refine hrest.trans ?_
      rw [getBit_exec (hscans s List.mem_cons_self) hnum hp]
      rfl

/-- What a scan accesses is decided by what the scans before it leave. -/
theorem getElem?_accessesAll (bvblock : BitVectorBlock) (scans : List BlockScan) (i : Nat) :
    (accessesAll bvblock scans)[i]? =
      (scans[i]?).map fun s => s.accesses (execAll bvblock (scans.take i)) := by
  induction scans generalizing bvblock i with
  | nil => rfl
  | cons s scans ih =>
      cases i with
      | zero => rfl
      | succ i => exact ih (s.exec bvblock) i

/-- The bits in reach of a scan: those of tuples carry the meaning of the scans before, those
behind the last tuple are clear. -/
theorem getBit_execAll_of_word (hnum : start.num = n) (htail : start.TailClear)
    (hscans : ∀ s ∈ scans, s.WellFormed n) {p : Nat} (hword : p / 64 * 64 < n) :
    (execAll start scans).getBit p =
      (decide (p < n) && selected scans p (start.getBit p)) := by
  have hlen : (execAll start scans).num = n := (num_execAll start scans).trans hnum
  rw [(tailClear_execAll htail scans).getBit_of_word (hword.trans_eq hlen.symm), hlen]
  by_cases hp : p < n
  · rw [getBit_execAll hnum hscans hp]
  · rw [decide_eq_false hp, Bool.false_and, Bool.false_and]

/-- The slices that the scan at place `i` loads, in any query. -/
theorem slice_mem_accessesAll (hnum : start.num = n) (htail : start.TailClear)
    (hscans : ∀ s ∈ scans, s.WellFormed n) {i : Nat} {s : BlockScan} (hs : scans[i]? = some s)
    {accesses : List ScanAccess} (haccesses : (accessesAll start scans)[i]? = some accesses)
    (j a : Nat) :
    .slice j a ∈ accesses ↔
      32 ∣ a ∧ a / 64 * 64 < n ∧ j < ByteSliceColumnBlock.kNumBytesPerCode s.w ∧
        ∃ l, l < 32 ∧ s.opt.Matters (decide (a + l < n) &&
          selected (scans.take i) (a + l) (start.getBit (a + l))) ∧ s.Ties (a + l) j := by
  rw [getElem?_accessesAll, hs, Option.map_some, Option.some.injEq] at haccesses
  subst haccesses
  have hwf := hscans s (List.mem_of_getElem? hs)
  have hbefore : ∀ s' ∈ scans.take i, s'.WellFormed n := fun s' hs' =>
    hscans s' (List.mem_of_mem_take hs')
  refine (ByteSliceColumnBlock.slice_mem_scanAccesses s.cmp s.opt s.block _
    s.operand.operandDigits).trans ?_
  rw [hwf.numTuples]
  refine and_congr_right fun hdvd => and_congr_right fun hword => and_congr_right fun _ =>
    exists_congr fun l => and_congr_right fun hl => ?_
  rw [getBit_execAll_of_word hnum htail hbefore (p := a + l) (by omega)]
  rfl

/-! ## Conjunctions and disjunctions -/

theorem selected_cons (s : BlockScan) (scans : List BlockScan) (p : Nat) (old : Bool) :
    selected (s :: scans) p old = selected scans p (s.opt.apply old (s.outcome p)) := rfl

theorem selected_kAnd (hand : ∀ s ∈ scans, s.opt = .kAnd) (p : Nat) (old : Bool) :
    selected scans p old = true ↔ old = true ∧ ∀ s ∈ scans, s.outcome p = true := by
  induction scans generalizing old with
  | nil => simp [selected]
  | cons s scans ih =>
      rw [selected_cons, ih (fun s' hs' => hand s' (List.mem_cons_of_mem _ hs')),
        hand s List.mem_cons_self, List.forall_mem_cons, ← and_assoc]
      exact and_congr_left' (Bool.and_eq_true _ _).to_iff

theorem selected_kOr (hor : ∀ s ∈ scans, s.opt = .kOr) (p : Nat) (old : Bool) :
    selected scans p old = true ↔ old = true ∨ ∃ s ∈ scans, s.outcome p = true := by
  induction scans generalizing old with
  | nil => simp [selected]
  | cons s scans ih =>
      rw [selected_cons, ih (fun s' hs' => hor s' (List.mem_cons_of_mem _ hs')),
        hor s List.mem_cons_self]
      simp only [List.mem_cons, exists_eq_or_imp]
      rw [← or_assoc]
      exact or_congr_left (Bool.or_eq_true _ _).to_iff

end BlockScan

theorem Bitwise.matters_kAnd (old : Bool) : Bitwise.kAnd.Matters old ↔ old = true := by
  cases old <;> simp [Matters, apply]

theorem Bitwise.matters_kOr (old : Bool) : Bitwise.kOr.Matters old ↔ ¬ old = true := by
  cases old <;> simp [Matters, apply]

/-- **What a query costs.**  Blocks of `n` tuples that construction, writes and resizes have
made are scanned one after another, against literals or other such blocks, into one bit
vector block with a clear tail.  When all scans are conjunctive, a scan loads byte `j` of 32
tuples if and only if one of them was set at the start, is accepted by all scans before, and
is not decided by the bytes before `j`.  When all are disjunctive, a scan loads it if and only
if one of the 32 lanes was clear at the start, is accepted by no scan before, and is not
decided either; a lane behind the last tuple is always such a lane. -/
theorem query_footprint (n : Nat) (start : BitVectorBlock) (hnum : start.num = n)
    (htail : start.TailClear) (scans : List BlockScan)
    (hscans : ∀ s ∈ scans, s.WellFormed n) :
    ((∀ s ∈ scans, s.opt = .kAnd) →
      (∀ p, p < n → ((BlockScan.execAll start scans).getBit p = true ↔
        start.getBit p = true ∧ ∀ s ∈ scans, s.outcome p = true)) ∧
      ∀ i s accesses, scans[i]? = some s →
        (BlockScan.accessesAll start scans)[i]? = some accesses → ∀ j a,
          (.slice j a ∈ accesses ↔
            32 ∣ a ∧ j < ByteSliceColumnBlock.kNumBytesPerCode s.w ∧
            ∃ l, l < 32 ∧ a + l < n ∧ start.getBit (a + l) = true ∧
              (∀ earlier ∈ scans.take i, earlier.outcome (a + l) = true) ∧
              s.Ties (a + l) j)) ∧
    ((∀ s ∈ scans, s.opt = .kOr) →
      (∀ p, p < n → ((BlockScan.execAll start scans).getBit p = true ↔
        start.getBit p = true ∨ ∃ s ∈ scans, s.outcome p = true)) ∧
      ∀ i s accesses, scans[i]? = some s →
        (BlockScan.accessesAll start scans)[i]? = some accesses → ∀ j a,
          (.slice j a ∈ accesses ↔
            32 ∣ a ∧ a / 64 * 64 < n ∧ j < ByteSliceColumnBlock.kNumBytesPerCode s.w ∧
            ∃ l, l < 32 ∧ (a + l < n → start.getBit (a + l) = false ∧
              ∀ earlier ∈ scans.take i, earlier.outcome (a + l) = false) ∧
              s.Ties (a + l) j)) := by
  refine ⟨fun hand => ⟨fun p hp => ?_, fun i s accesses hs haccesses j a => ?_⟩,
    fun hor => ⟨fun p hp => ?_, fun i s accesses hs haccesses j a => ?_⟩⟩
  · rw [BlockScan.getBit_execAll hnum hscans hp]
    exact BlockScan.selected_kAnd hand p _
  · have hearlier : ∀ s' ∈ scans.take i, s'.opt = .kAnd := fun s' hs' =>
      hand s' (List.mem_of_mem_take hs')
    rw [BlockScan.slice_mem_accessesAll hnum htail hscans hs haccesses,
      hand s (List.mem_of_getElem? hs)]
    refine and_congr_right fun _ => ?_
    simp only [Bitwise.matters_kAnd, Bool.and_eq_true, decide_eq_true_iff,
      BlockScan.selected_kAnd hearlier, and_assoc]
    -- a tuple among the lanes puts the address below `n`
    refine ⟨fun h => h.2, fun h => ⟨?_, h⟩⟩
    obtain ⟨_, l, hl, hlt, _⟩ := h
    omega
  · rw [BlockScan.getBit_execAll hnum hscans hp]
    exact BlockScan.selected_kOr hor p _
  · have hearlier : ∀ s' ∈ scans.take i, s'.opt = .kOr := fun s' hs' =>
      hor s' (List.mem_of_mem_take hs')
    rw [BlockScan.slice_mem_accessesAll hnum htail hscans hs haccesses,
      hor s (List.mem_of_getElem? hs)]
    refine and_congr_right fun _ => and_congr_right fun _ => and_congr_right fun _ =>
      exists_congr fun l => and_congr_right fun _ => and_congr_left' ?_
    simp only [Bitwise.matters_kOr, Bool.and_eq_true, decide_eq_true_iff, not_and,
      BlockScan.selected_kOr hearlier, not_or, not_exists, Bool.not_eq_true]

/-- Two predicates on three tuples of eleven bits.  No tuple is less than `0`, so the second
scan loads nothing. -/
theorem query_footprint_three :
    let first : BlockScan := ⟨⟨11, by decide, by decide⟩, ByteSliceColumnBlock.new 3, .kLess,
      .literal 0#64, .kAnd⟩
    let second : BlockScan := ⟨⟨20, by decide, by decide⟩, ByteSliceColumnBlock.new 3, .kEqual,
      .literal 7#64, .kAnd⟩
    ∃ accesses, (BlockScan.accessesAll (BitVectorBlock.new 3 (by decide) (by decide))
      [first, second])[1]? = some accesses ∧ ∀ j a, .slice j a ∉ accesses := by
  intro first second
  have hwf : ∀ s ∈ [first, second], s.WellFormed 3 := by
    intro s hs
    rcases List.mem_cons.mp hs with rfl | hs
    · exact ⟨.new 3 (by decide), trivial, rfl⟩
    · rw [List.mem_singleton.mp hs]
      exact ⟨.new 3 (by decide), trivial, rfl⟩
  have hand : ∀ s ∈ [first, second], s.opt = .kAnd := by
    intro s hs
    rcases List.mem_cons.mp hs with rfl | hs
    · rfl
    · rw [List.mem_singleton.mp hs]
  have hloads := ((query_footprint 3 (BitVectorBlock.new 3 (by decide) (by decide))
    (BitVectorBlock.num_new _ _ _) (BitVectorBlock.tailClear_setOnes _) [first, second] hwf).1
      hand).2 1 second _ rfl rfl
  refine ⟨_, rfl, fun j a hmem => ?_⟩
  obtain ⟨_, _, l, _, _, _, hfirst, _⟩ := (hloads j a).mp hmem
  have houtcome := hfirst first (List.mem_singleton.mpr rfl)
  exact absurd houtcome (by simp [first, BlockScan.outcome, Comparator.holds, SecondOperand.value])

end ByteSlice
