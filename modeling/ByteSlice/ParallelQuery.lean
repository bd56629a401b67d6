import Mathlib
import ByteSlice.ColumnArray
import ByteSlice.Foundation.ForkJoin
import ByteSlice.ParallelLoops
import ByteSlice.QueryBlocks

/-!
# Queries on threads

A whole query as it runs: every call forks a team of threads for its block loop, the threads
are handed blocks and load and store words in any order, and the next call begins behind the
barrier.  The teams may be of other sizes from call to call.

What a call does is a matter of the bit vector that it is given, and no run of its team leaves
another one than the sequential loop does.  So the query as a whole cannot fail, get stuck or
run for ever, and it ends with the bits that it means.
-/

namespace ByteSlice

open Foundation

namespace BitVector.Operand

/-- The argument of `And` or `Or` is the vector itself or another one of `n` bits. -/
def Fits (n : Nat) : Operand → Prop
  | .this => True
  | .other argument => argument.Holds n argument.bit

/-- The bits of the argument. -/
def bits (own : Nat → Bool) : Operand → Nat → Bool
  | .this => own
  | .other argument => argument.bit

theorem Fits.holds {n : Nat} {operand : Operand} (h : operand.Fits n) {bv : BitVector}
    {own : Nat → Bool} (hbv : bv.Holds n own) :
    Holds.OperandHolds bv n own (operand.bits own) operand := by
  cases operand with
  | this => exact ⟨hbv, rfl⟩
  | other argument => exact h

end BitVector.Operand

namespace QueryOp

variable {ι : Type}

/-- The iterations of the call's loop. -/
def loops (columns : ι → Column) (bv : BitVector) : QueryOp ι → Nat → Option WordLoop
  | .scan step =>
      match step.operand with
      | .literal value => (columns step.column).scanLoops step.cmp value step.opt
      | .column other =>
          (columns step.column).scanColumnLoops step.cmp (columns other) step.opt
  | .setOnes _ => bv.fillLoops (-1#64) true
  | .setZeros _ => bv.fillLoops 0#64 false
  | .and _ bitvector => bv.combineLoops (· &&& ·) bitvector
  | .or _ bitvector => bv.combineLoops (· ||| ·) bitvector

/-- The call's loop, cut into steps, on a vector of `n` bits with these blocks. -/
def stepwise (columns : ι → Column) (n : Nat) (op : QueryOp ι) (blocks : List BitVectorBlock) :
    StepwiseBody BitVectorBlock WordRegisters Unit :=
  WordLoop.stepwise (op.loops columns ⟨n, blocks⟩)

/-- Scans are well formed, arguments fit, and every order is one of the blocks. -/
def WellFormed (types : ι → ColumnType) (widths : ι → Nat) (n : Nat) : QueryOp ι → Prop
  | .scan step => step.WellFormed types widths n
  | .setOnes order => BitVector.IsSchedule n order
  | .setZeros order => BitVector.IsSchedule n order
  | .and order bitvector => BitVector.IsSchedule n order ∧ bitvector.Fits n
  | .or order bitvector => BitVector.IsSchedule n order ∧ bitvector.Fits n

/-- The call on the bits of all tuples. -/
def onBits (contents : ι → Nat → Nat) (bits : Nat → Bool) : QueryOp ι → Nat → Bool
  | .scan step => step.onBits contents bits
  | .setOnes _ => fun _ => true
  | .setZeros _ => fun _ => false
  | .and _ bitvector => fun id => bits id && bitvector.bits bits id
  | .or _ bitvector => fun id => bits id || bitvector.bits bits id

variable {columns : ι → Column} {types : ι → ColumnType} {widths : ι → Nat} {n : Nat}
  {kinds : ι → BlockKind} {contents : ι → Nat → Nat} {bv : BitVector} {bits : Nat → Bool}

theorem WellFormed.isSchedule {op : QueryOp ι} (h : op.WellFormed types widths n) :
    BitVector.IsSchedule n op.order := by
  cases op with
  | scan step => exact h.1
  | setOnes order => exact h
  | setZeros order => exact h
  | and order bitvector => exact h.1
  | or order bitvector => exact h.1

/-- The step lemma of the sequential program. -/
theorem exists_exec (hkinds : ∀ i, Column.blockKind (types i) (widths i) = some (kinds i))
    (hstores : ∀ i, (columns i).Stores (kinds i) n (contents i)) (hbv : bv.Holds n bits)
    {op : QueryOp ι} (hop : op.WellFormed types widths n) :
    ∃ out, op.exec columns bv = some out ∧ out.Holds n (op.onBits contents bits) := by
  cases op with
  | scan step => exact ScanStep.exists_exec hkinds hstores hbv step hop
  | setOnes order =>
      have horder : BitVector.IsSchedule bv.num order := by
        rw [hbv.num_eq]
        exact hop
      obtain ⟨out, hout, hholds⟩ := BitVector.exists_setOnes hbv.laidOut horder
      rw [hbv.num_eq] at hholds
      exact ⟨out, hout, hholds⟩
  | setZeros order => exact hbv.exists_setZeros hop
  | and order bitvector => exact hbv.exists_and (hop.2.holds hbv) hop.1
  | or order bitvector => exact hbv.exists_or (hop.2.holds hbv) hop.1

/-- The step lemma of the team. -/
theorem teamsLeave_exec
    (hkinds : ∀ i, Column.blockKind (types i) (widths i) = some (kinds i))
    (hstores : ∀ i, (columns i).Stores (kinds i) n (contents i)) (hbv : bv.Holds n bits)
    {op : QueryOp ι} (hop : op.WellFormed types widths n) :
    TeamsLeave (op.loops columns bv) bv (op.exec columns bv) := by
  obtain rfl := hbv.num_eq
  rw [exec_eq_forBlocks, BitVector.forBlocks_perm hop.isSchedule]
  cases op with
  | scan step =>
      obtain ⟨column, cmp, operand, opt, order⟩ := step
      cases operand with
      | literal value => exact (hstores column).teamsLeave_scan hbv.laidOut cmp value opt
      | column other =>
          have hsame : kinds other = kinds column := by
            have hkind := hkinds other
            rw [hop.2.1, hop.2.2] at hkind
            exact Option.some.inj (hkind.symm.trans (hkinds column))
          have hother := hstores other
          rw [hsame] at hother
          exact (hstores column).teamsLeave_scanColumn hother hbv.laidOut cmp opt
  | setOnes order =>
      exact BitVector.teamsLeave_fill hbv.laidOut BitVectorBlock.run_fillLoop_ones
        BitVectorBlock.num_setOnes
  | setZeros order =>
      exact BitVector.teamsLeave_fill hbv.laidOut BitVectorBlock.run_fillLoop_zeros
        BitVectorBlock.num_setZeros
  | and order bitvector =>
      cases bitvector with
      | this => exact BitVector.teamsLeave_combine hbv.laidOut hbv.laidOut rfl (Or.inl rfl) _
      | other argument =>
          exact BitVector.teamsLeave_combine hbv.laidOut hop.2.laidOut hop.2.num_eq (Or.inr rfl) _
  | or order bitvector =>
      cases bitvector with
      | this => exact BitVector.teamsLeave_combine hbv.laidOut hbv.laidOut rfl (Or.inl rfl) _
      | other argument =>
          exact BitVector.teamsLeave_combine hbv.laidOut hop.2.laidOut hop.2.num_eq (Or.inr rfl) _

/-- The run lemma: the calls, one after another, succeed and lead to the bits they mean. -/
theorem exists_leads (hkinds : ∀ i, Column.blockKind (types i) (widths i) = some (kinds i))
    (hstores : ∀ i, (columns i).Stores (kinds i) n (contents i)) (hbv : bv.Holds n bits)
    {ops : List (QueryOp ι)} (hops : ∀ op ∈ ops, op.WellFormed types widths n) :
    ∃ out, runOps (QueryOp.exec columns) bv ops = some out ∧
      out.Holds n (ops.foldl (onBits contents) bits) ∧
      ForkJoin.Leads (stepwise columns n) bv.blocks ops out.blocks := by
  induction ops generalizing bv bits with
  | nil => exact ⟨bv, rfl, hbv, rfl⟩
  | cons op ops ih =>
      have hop := hops op List.mem_cons_self
      obtain ⟨mid, hmid, hholds⟩ := exists_exec hkinds hstores hbv hop
      obtain ⟨out, hrun, hout, hleads⟩ := ih hholds fun op' hop' =>
        hops op' (List.mem_cons_of_mem _ hop')
      refine ⟨out, ?_, hout, mid.blocks, fun m hm => ⟨(), ?_⟩, hleads⟩
      · rw [runOps_cons, hmid]
        exact hrun
      · obtain ⟨mid', hmid', hteams⟩ := teamsLeave_exec hkinds hstores hbv hop
        obtain rfl : mid = mid' := Option.some.inj (hmid.symm.trans hmid')
        obtain rfl := hbv.num_eq
        exact hteams m hm

end QueryOp

/-- **Queries on threads.**  Over any family of columns of `n` tuples, of supported types and
widths, that construction and writes in range have made, and from any bit vector of `n` bits
with clear tails, every query whose literals are codes of their column's width, run by teams
of any sizes with any hand-out of blocks and any interleaving of loads and stores, never
fails, can always go on until its end, always comes to it, and then its vector is that of the
sequential run: its bits are those that the query means. -/
theorem parallel_query {ι : Type} (columns : ι → Column) (types : ι → ColumnType)
    (widths : ι → Nat) (n : Nat)
    (htype : ∀ i, types i = .kNaive ∨ types i = .kByteSlicePadRight)
    (hpos : ∀ i, 1 ≤ widths i) (hle : ∀ i, widths i ≤ 32)
    (hbuilt : ∀ i, (columns i).Built (types i) (widths i) n)
    (ops : List (QueryOp ι)) (hops : ∀ op ∈ ops, op.WellFormed types widths n)
    (bv : BitVector) (bits : Nat → Bool) (hbv : bv.Holds n bits) :
    ∃ out, runOps (QueryOp.exec columns) bv ops = some out ∧
      out.Holds n (ops.foldl (QueryOp.onBits fun i => (columns i).tuple) bits) ∧
      ForkJoin.Computes (QueryOp.stepwise columns n) bv.blocks ops out.blocks := by
  choose kinds hkinds _ using fun i => Column.exists_blockKind (htype i) (hpos i) (hle i)
  have hstores : ∀ i, (columns i).Stores (kinds i) n (columns i).tuple :=
    fun i => (hbuilt i).stores (hkinds i)
  obtain ⟨out, hrun, hholds, hleads⟩ := QueryOp.exists_leads hkinds hstores hbv hops
  exact ⟨out, hrun, hholds, ForkJoin.computes_of_leads hleads⟩

/-- Two blocks of byte slices: a disjunction of two scans, conjoined with the vector itself. -/
theorem parallel_query_two :
    ∃ c bv, Column.new .kByteSlicePadRight 11 1048577 = some c ∧
      BitVector.new 1048577 = some bv ∧
      ∃ out, ForkJoin.Computes (QueryOp.stepwise (fun _ : Unit => c) 1048577) bv.blocks
        [.setZeros [1, 0], .scan ⟨(), .kLess, .literal 5#64, .kOr, [0, 1]⟩,
          .scan ⟨(), .kEqual, .column (), .kOr, [1, 0]⟩, .and [0, 1] .this] out := by
  have hkind : Column.blockKind .kByteSlicePadRight 11 =
      some (.byteSlice ⟨11, by decide, by decide⟩) := rfl
  obtain ⟨c, hnew, _⟩ := Column.exists_new hkind 1048577
  obtain ⟨bv, hbv, hholds⟩ := BitVector.exists_new 1048577
  have hcount : chunkCount kNumTuplesPerBlock 1048577 = 2 :=
    chunkCount_eq_succ kNumTuplesPerBlock_pos (by decide) (by decide)
  have hup : BitVector.IsSchedule 1048577 [0, 1] := by
    rw [BitVector.IsSchedule, hcount]
    decide
  have hdown : BitVector.IsSchedule 1048577 [1, 0] := by
    rw [BitVector.IsSchedule, hcount]
    decide
  obtain ⟨out, _, _, hcomputes⟩ := parallel_query (fun _ : Unit => c)
    (fun _ => .kByteSlicePadRight) (fun _ => 11) 1048577 (fun _ => Or.inr rfl)
    (fun _ => by decide) (fun _ => by decide) (fun _ => Column.built_new hnew)
    [.setZeros [1, 0], .scan ⟨(), .kLess, .literal 5#64, .kOr, [0, 1]⟩,
      .scan ⟨(), .kEqual, .column (), .kOr, [1, 0]⟩, .and [0, 1] .this] (by
      simp only [List.forall_mem_cons, List.not_mem_nil, false_implies, implies_true, and_true]
      exact ⟨hdown, ⟨hup, by decide⟩, ⟨hdown, rfl, rfl⟩, hup, trivial⟩) bv _ hholds
  exact ⟨c, bv, hnew, hbv, out.blocks, hcomputes⟩

end ByteSlice
