import Mathlib
import ByteSlice.BitVectorIterator
import ByteSlice.ColumnArray
import ByteSlice.ScanStep

/-!
# The query law

A query is a sequence of `Column::Scan` steps on one bit vector, over a family of
columns of the same size.  Its meaning is computed tuple by tuple: start from
`true` and, step by step, replace, conjoin or disjoin with a comparison of stored
values.  The bits, their count and the positions that an iterator returns are those
of that meaning.
-/

namespace ByteSlice

open Foundation

namespace ScanStep

variable {ι : Type}

/-- The meaning of a query on tuple `id`. -/
def selected (columns : ι → Column) (steps : List (ScanStep ι)) (id : Nat) : Bool :=
  steps.foldl (fun old step =>
    step.opt.apply old (step.outcome (fun i => (columns i).tuple) id)) true

theorem foldl_onBits_eq (contents : ι → Nat → Nat) (steps : List (ScanStep ι))
    (bits : Nat → Bool) (id : Nat) :
    steps.foldl (onBits contents) bits id =
      steps.foldl (fun old step => step.opt.apply old (step.outcome contents id)) (bits id) := by
  induction steps generalizing bits with
  | nil => rfl
  | cons step steps ih => exact ih _

end ScanStep

/-- **The query law.**  Over any family of columns of `n` tuples, each of a
supported type and width, every sequence of well-formed scans on a fresh bit vector
of `n` bits succeeds.  At the end the bit of every tuple is the meaning of the query
on it, `CountOnes` is the number of tuples selected, and a fresh iterator returns
exactly their positions, in increasing order, before it reports the end. -/
theorem query_law {ι : Type} (columns : ι → Column) (types : ι → ColumnType)
    (widths : ι → Nat) (n : Nat) (hn : 1 ≤ n)
    (htype : ∀ i, types i = .kNaive ∨ types i = .kByteSlicePadRight)
    (hpos : ∀ i, 1 ≤ widths i) (hle : ∀ i, widths i ≤ 32)
    (hbuilt : ∀ i, (columns i).Built (types i) (widths i) n)
    (steps : List (ScanStep ι)) (hsteps : ∀ step ∈ steps, step.WellFormed types widths n)
    (startOrder countOrder : List Nat) (hstart : BitVector.IsSchedule n startOrder)
    (hcount : BitVector.IsSchedule n countOrder) (stack : Vector Nat kNumWordBits) :
    ∃ start out it, BitVector.newIn startOrder n = some start ∧
      runOps (ScanStep.exec columns) start steps = some out ∧
      (∀ i id, id < n → ∃ value, (columns i).getTuple id = some value ∧
        value.toNat = (columns i).tuple id) ∧
      (∀ id, id < n → out.getBit id = some (ScanStep.selected columns steps id)) ∧
      out.countOnesIn countOrder =
        some (positions (ScanStep.selected columns steps) n).length ∧
      BitVectorIterator.new stack out = some it ∧
      Yields (BitVectorIterator.next out) BitVectorIterator.getPosition it
        (positions (ScanStep.selected columns steps) n) := by
  obtain ⟨start, hnew, hholds⟩ := BitVector.exists_newIn hstart
  choose kinds hkinds _ using fun i => Column.exists_blockKind (htype i) (hpos i) (hle i)
  have hstores : ∀ i, (columns i).Stores (kinds i) n (columns i).tuple := by
    intro i
    obtain ⟨kind, hunique, hstores⟩ := Column.exists_kind_of_built (types i) (widths i)
    rw [hunique (kinds i) (hkinds i)]
    exact hstores n _ (hbuilt i)
  have hrun : ∃ out, runOps (ScanStep.exec columns) start steps = some out ∧
      out.Holds n (steps.foldl (ScanStep.onBits fun i => (columns i).tuple) fun _ => true) :=
    runOps_simulates (fun bv bits => BitVector.Holds bv n bits)
      (fun bv bits step hbv (hstep : step.WellFormed types widths n) =>
        ScanStep.exists_exec hkinds hstores hbv step hstep) hholds
      (admissibleRun_of_forall (fun step hmem _ => hsteps step hmem) _)
  obtain ⟨out, hout, houtHolds⟩ := hrun
  have hselected : out.Holds n (ScanStep.selected columns steps) :=
    houtHolds.congr fun id _ => ScanStep.foldl_onBits_eq _ steps _ id
  obtain ⟨it, hit, hyields⟩ := BitVectorIterator.exists_yields hselected hn stack
  exact ⟨start, out, it, hnew, hout, fun i id hid => (hstores i).getTuple_eq hid,
    fun id hid => hselected.getBit_eq hid, hselected.countOnesIn_eq hcount, hit, hyields⟩

/-- Three tuples `5, 6, 7` of eleven bits in byte slices: those less than `7`, and at
least themselves, are the first two. -/
theorem query_law_three :
    ∃ c loaded start out it, Column.new .kByteSlicePadRight 11 3 = some c ∧
      c.bulkLoadArray (fun k => BitVec.ofNat 64 (5 + k)) 3 0 = some loaded ∧
      BitVector.newIn [0] 3 = some start ∧
      runOps (ScanStep.exec fun _ : Unit => loaded) start
        [⟨(), .kLess, .literal 7#64, .kAnd, [0]⟩,
          ⟨(), .kGreaterEqual, .column (), .kAnd, [0]⟩] = some out ∧
      out.countOnesIn [0] = some 2 ∧ BitVectorIterator.new (Vector.replicate _ 0) out = some it ∧
      Yields (BitVectorIterator.next out) BitVectorIterator.getPosition it [0, 1] := by
  have hkind : Column.blockKind .kByteSlicePadRight 11 =
      some (.byteSlice ⟨11, by omega, by omega⟩) := rfl
  let codes : Nat → WordUnit := fun k => BitVec.ofNat 64 (5 + k)
  obtain ⟨c, hnew, hstores⟩ := Column.exists_new hkind 3
  obtain ⟨loaded, hload, hloaded⟩ := hstores.exists_bulkLoadArray codes (show 0 + 3 ≤ 3 by omega)
  have hbuilt : loaded.Built .kByteSlicePadRight 11 3 :=
    (Column.built_new hnew).exec (.bulkLoadArray codes 3 0) (show 0 + 3 ≤ 3 by omega) hload
  let steps : List (ScanStep Unit) := [⟨(), .kLess, .literal 7#64, .kAnd, [0]⟩,
    ⟨(), .kGreaterEqual, .column (), .kAnd, [0]⟩]
  have horder := BitVector.isSchedule_singleton (show 0 < 3 by omega) (by decide)
  have hsteps : ∀ step ∈ steps, step.WellFormed (fun _ => .kByteSlicePadRight) (fun _ => 11) 3 := by
    intro step hmem
    rcases List.mem_cons.mp hmem with rfl | hmem
    · exact ⟨horder, by decide⟩
    · rw [List.mem_singleton.mp hmem]
      exact ⟨horder, rfl, rfl⟩
  have hpositions : positions (ScanStep.selected (fun _ => loaded) steps) 3 = [0, 1] := by
    have hbit : ∀ id, id < 3 → ScanStep.selected (fun _ => loaded) steps id =
        decide (5 + id < 7) := by
      intro id hid
      have htuple : loaded.tuple id = 5 + id := by
        rw [hloaded.tuple_eq id hid, Column.loaded, if_pos (by omega)]
        show (5 + (id - 0)) % 2 ^ 64 % 2 ^ 11 = 5 + id
        omega
      simp [steps, ScanStep.selected, ScanStep.outcome, Bitwise.apply, Comparator.holds, htuple]
    rw [positions_congr hbit]
    decide
  obtain ⟨start, out, it, hstart, hrun, _, _, hcount, hit, hyields⟩ := query_law
    (fun _ : Unit => loaded) (fun _ => .kByteSlicePadRight) (fun _ => 11) 3 (by omega)
    (fun _ => Or.inr rfl) (fun _ => by omega) (fun _ => by omega) (fun _ => hbuilt) steps hsteps
    [0] [0] horder horder (Vector.replicate _ 0)
  rw [hpositions] at hcount hyields
  exact ⟨c, loaded, start, out, it, hnew, hload, hstart, hrun, hcount, hit, hyields⟩

end ByteSlice
