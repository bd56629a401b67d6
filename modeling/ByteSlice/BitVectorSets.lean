import Mathlib
import ByteSlice.BitVector
import ByteSlice.Foundation.Simulation

/-!
# Bit vectors refine finite sets

The abstract machine keeps a list of finite sets of positions; the program keeps
a list of bit vectors of one size.  Both answer the same operations: creating a
vector, filling and emptying it, setting and clearing one bit, and the two
combinations, whose argument may be the vector itself.  Every block loop carries
the order in which its iterations ran.

`bitVector_refines_finset` is the run theorem: after any sequence of operations
each vector represents its set.
-/

namespace ByteSlice

open Foundation

/-- The operations on a store of bit vectors, addressed by their index. -/
inductive BitVectorOp
  | construct (order : List Nat)
  | setOnes (v : Nat) (order : List Nat)
  | setZeros (v : Nat) (order : List Nat)
  | setBit (v pos : Nat)
  | unsetBit (v pos : Nat)
  | and (v u : Nat) (order : List Nat)
  | or (v u : Nat) (order : List Nat)

namespace BitVectorOp

/-- The operand of a combination: the pointer is `this` when both indices are
the same. -/
def operand (store : List BitVector) (v u : Nat) : Option BitVector.Operand :=
  if v = u then some .this else (store[u]?).map .other

/-- One operation of the program on a store of vectors of `num` bits. -/
def exec (num : Nat) (store : List BitVector) : BitVectorOp → Option (List BitVector)
  | .construct order => (BitVector.newIn order num).map fun bv => store ++ [bv]
  | .setOnes v order => stepCell (fun _ bv => bv.setOnes order) store v
  | .setZeros v order => stepCell (fun _ bv => bv.setZeros order) store v
  | .setBit v pos => stepCell (fun _ bv => bv.setBit pos) store v
  | .unsetBit v pos => stepCell (fun _ bv => bv.unsetBit pos) store v
  | .and v u order => (operand store v u).bind fun arg =>
      stepCell (fun _ bv => bv.and order arg) store v
  | .or v u order => (operand store v u).bind fun arg =>
      stepCell (fun _ bv => bv.or order arg) store v

/-- The same operation on sets of positions below `num`. -/
def onSets (num : Nat) (sets : List (Finset Nat)) : BitVectorOp → List (Finset Nat)
  | .construct _ => sets ++ [Finset.range num]
  | .setOnes v _ => sets.set v (Finset.range num)
  | .setZeros v _ => sets.set v ∅
  | .setBit v pos => sets.modify v (insert pos)
  | .unsetBit v pos => sets.modify v (·.erase pos)
  | .and v u _ => sets.modify v (· ∩ sets.getD u ∅)
  | .or v u _ => sets.modify v (· ∪ sets.getD u ∅)

/-- The vectors exist, positions are in range, and the iterations of a block loop
are those of the loop, in any order. -/
def Admissible (num : Nat) (sets : List (Finset Nat)) : BitVectorOp → Prop
  | .construct order => BitVector.IsSchedule num order
  | .setOnes v order => v < sets.length ∧ BitVector.IsSchedule num order
  | .setZeros v order => v < sets.length ∧ BitVector.IsSchedule num order
  | .setBit v pos => v < sets.length ∧ pos < num
  | .unsetBit v pos => v < sets.length ∧ pos < num
  | .and v u order => v < sets.length ∧ u < sets.length ∧ BitVector.IsSchedule num order
  | .or v u order => v < sets.length ∧ u < sets.length ∧ BitVector.IsSchedule num order

end BitVectorOp

/-- A vector represents a set of positions. -/
structure RepresentsSet (num : Nat) (bv : BitVector) (S : Finset Nat) : Prop where
  subset : S ⊆ Finset.range num
  holds : BitVector.Holds bv num fun pos => decide (pos ∈ S)

namespace RepresentsSet

variable {num : Nat} {bv : BitVector} {S : Finset Nat}

/-- The positions that the content lists are the elements of the set. -/
theorem card_eq (h : RepresentsSet num bv S) :
    (positions (fun pos => decide (pos ∈ S)) num).length = S.card := by
  -- the listed positions increase, so none is listed twice
  have hnodup : (positions (fun pos => decide (pos ∈ S)) num).Nodup :=
    (positions_pairwise_lt _ num).imp fun hlt => hlt.ne
  have hset : (positions (fun pos => decide (pos ∈ S)) num).toFinset = S := by
    ext pos
    simp only [List.mem_toFinset, mem_positions, decide_eq_true_eq]
    exact ⟨fun hpos => hpos.2, fun hpos => ⟨Finset.mem_range.mp (h.subset hpos), hpos⟩⟩
  rw [← List.toFinset_card_of_nodup hnodup, hset]

theorem of_holds {content : Nat → Bool} (h : BitVector.Holds bv num content)
    (hsubset : S ⊆ Finset.range num)
    (heq : ∀ pos, pos < num → content pos = decide (pos ∈ S)) : RepresentsSet num bv S :=
  ⟨hsubset, h.congr heq⟩

end RepresentsSet

/-- Index by index, the store represents the list of sets. -/
def RepresentsSets (num : Nat) (store : List BitVector) (sets : List (Finset Nat)) : Prop :=
  List.Forall₂ (RepresentsSet num) store sets

namespace RepresentsSets

variable {num : Nat} {store : List BitVector} {sets : List (Finset Nat)}

theorem exists_of_lt (h : RepresentsSets num store sets) {v : Nat} (hv : v < sets.length) :
    ∃ bv S, store[v]? = some bv ∧ sets[v]? = some S ∧ RepresentsSet num bv S := by
  have hv' : v < store.length := by
    rw [List.Forall₂.length_eq h]
    exact hv
  exact ⟨_, _, List.getElem?_eq_getElem hv', List.getElem?_eq_getElem hv,
    List.Forall₂.get h hv' hv⟩

/-- Replacing one vector and its set. -/
theorem set (h : RepresentsSets num store sets) (v : Nat) {bv : BitVector} {S : Finset Nat}
    (hbv : RepresentsSet num bv S) : RepresentsSets num (store.set v bv) (sets.set v S) := by
  induction h generalizing v with
  | nil => exact List.Forall₂.nil
  | cons hhead htail ih =>
      cases v with
      | zero => exact List.Forall₂.cons hbv htail
      | succ v => exact List.Forall₂.cons hhead (ih v)

/-- The step lemma for an operation on one vector. -/
theorem stepCell (h : RepresentsSets num store sets) {v : Nat} (hv : v < sets.length)
    {f : BitVector → Option BitVector} {g : Finset Nat → Finset Nat}
    (hf : ∀ bv S, store[v]? = some bv → sets[v]? = some S → RepresentsSet num bv S →
      ∃ out, f bv = some out ∧ RepresentsSet num out (g S)) :
    ∃ store', Foundation.stepCell (fun _ bv => f bv) store v = some store' ∧
      RepresentsSets num store' (sets.modify v g) := by
  obtain ⟨bv, S, hbv, hS, hrep⟩ := h.exists_of_lt hv
  obtain ⟨out, hout, hrep'⟩ := hf bv S hbv hS hrep
  refine ⟨store.set v out, ?_, ?_⟩
  · exact stepCell_eq_some_iff.mpr ⟨bv, out, hbv, hout, rfl⟩
  · have hmodify : sets.modify v g = sets.set v (g S) := by
      rw [List.modify_eq_set_getElem?, hS]
      rfl
    rw [hmodify]
    exact h.set v hrep'

/-- The argument of a combination represents the set of its index. -/
theorem operand (h : RepresentsSets num store sets) {v u : Nat} (hu : u < sets.length) :
    ∃ arg, BitVectorOp.operand store v u = some arg ∧
      ∀ bv S, store[v]? = some bv → sets[v]? = some S →
        BitVector.Holds.OperandHolds bv num (fun pos => decide (pos ∈ S))
          (fun pos => decide (pos ∈ sets.getD u ∅)) arg := by
  obtain ⟨bvU, T, hbvU, hT, hrepU⟩ := h.exists_of_lt hu
  have hgetD : sets.getD u ∅ = T := by
    rw [List.getD_eq_getElem?_getD, hT]
    rfl
  rw [hgetD]
  unfold BitVectorOp.operand
  -- a vector combined with itself is read and written in the same loop
  by_cases hvu : v = u
  · subst hvu
    refine ⟨.this, if_pos rfl, fun bv S hbv hS => ?_⟩
    obtain rfl : bvU = bv := Option.some.inj (hbvU.symm.trans hbv)
    obtain rfl : T = S := Option.some.inj (hT.symm.trans hS)
    exact ⟨hrepU.holds, rfl⟩
  · refine ⟨.other bvU, by rw [if_neg hvu, hbvU]; rfl, fun _ _ _ _ => hrepU.holds⟩

/-- The simulation step: one case for each operation. -/
theorem exec (h : RepresentsSets num store sets) (op : BitVectorOp)
    (hop : op.Admissible num sets) :
    ∃ store', op.exec num store = some store' ∧
      RepresentsSets num store' (op.onSets num sets) := by
  cases op with
  | construct order =>
      obtain ⟨bv, hbv, hholds⟩ := BitVector.exists_newIn hop
      refine ⟨store ++ [bv], by simp [BitVectorOp.exec, hbv], ?_⟩
      have hrep : RepresentsSet num bv (Finset.range num) :=
        .of_holds hholds (fun _ hpos => hpos) fun pos hpos => by simp [hpos]
      exact List.rel_append h (List.Forall₂.cons hrep List.Forall₂.nil)
  | setOnes v order =>
      obtain ⟨hv, horder⟩ := hop
      have hstep := h.stepCell hv (g := fun _ => Finset.range num) fun bv S _ _ hrep => by
        obtain ⟨out, hout, hholds⟩ := BitVector.exists_setOnes hrep.holds.laidOut
          (by rw [hrep.holds.num_eq]; exact horder)
        rw [hrep.holds.num_eq] at hholds
        exact ⟨out, hout, .of_holds hholds (fun _ hpos => hpos) fun pos hpos => by simp [hpos]⟩
      simpa [BitVectorOp.exec, BitVectorOp.onSets, List.modify_eq_set, hv] using hstep
  | setZeros v order =>
      obtain ⟨hv, horder⟩ := hop
      have hstep := h.stepCell hv (g := fun _ => ∅) fun bv S _ _ hrep => by
        obtain ⟨out, hout, hholds⟩ := hrep.holds.exists_setZeros horder
        exact ⟨out, hout, .of_holds hholds (Finset.empty_subset _) fun pos _ => by simp⟩
      simpa [BitVectorOp.exec, BitVectorOp.onSets, List.modify_eq_set, hv] using hstep
  | setBit v pos =>
      obtain ⟨hv, hpos⟩ := hop
      refine h.stepCell hv fun bv S _ _ hrep => ?_
      obtain ⟨out, hout, hholds⟩ := hrep.holds.exists_setBit hpos
      refine ⟨out, hout, .of_holds hholds ?_ fun pos' _ => ?_⟩
      · exact Finset.insert_subset (Finset.mem_range.mpr hpos) hrep.subset
      · by_cases hsame : pos' = pos
        · simp [hsame]
        · simp [hsame]
  | unsetBit v pos =>
      obtain ⟨hv, hpos⟩ := hop
      refine h.stepCell hv fun bv S _ _ hrep => ?_
      obtain ⟨out, hout, hholds⟩ := hrep.holds.exists_unsetBit hpos
      refine ⟨out, hout, .of_holds hholds ?_ fun pos' _ => ?_⟩
      · exact (Finset.erase_subset _ _).trans hrep.subset
      · by_cases hsame : pos' = pos
        · simp [hsame]
        · simp [hsame]
  | and v u order =>
      obtain ⟨hv, hu, horder⟩ := hop
      obtain ⟨arg, harg, hoperand⟩ := h.operand (v := v) hu
      simp only [BitVectorOp.exec, harg, Option.bind_some]
      refine h.stepCell hv fun bv S hbv hS hrep => ?_
      obtain ⟨out, hout, hholds⟩ := hrep.holds.exists_and (hoperand bv S hbv hS) horder
      refine ⟨out, hout, .of_holds hholds ?_ fun pos _ => ?_⟩
      · exact Finset.inter_subset_left.trans hrep.subset
      · simp
  | or v u order =>
      obtain ⟨hv, hu, horder⟩ := hop
      obtain ⟨arg, harg, hoperand⟩ := h.operand (v := v) hu
      simp only [BitVectorOp.exec, harg, Option.bind_some]
      refine h.stepCell hv fun bv S hbv hS hrep => ?_
      obtain ⟨out, hout, hholds⟩ := hrep.holds.exists_or (hoperand bv S hbv hS) horder
      refine ⟨out, hout, .of_holds hholds ?_ fun pos _ => ?_⟩
      · obtain ⟨_, T, _, hT, hrepU⟩ := h.exists_of_lt hu
        rw [List.getD_eq_getElem?_getD, hT]
        exact Finset.union_subset hrep.subset hrepU.subset
      · simp

end RepresentsSets

/-- **Bit vectors refine sets.**  After any sequence of operations on vectors of
`num` bits, with the iterations of every block loop in any order, the store
holds one vector for each set, and each vector represents its set: the set
contains positions below `num` only, `GetBit` decides membership, `CountOnes`
is the cardinality in whatever order the blocks are summed, and the bits past
the end of every block are `0`. -/
theorem bitVector_refines_finset (num : Nat) (ops : List BitVectorOp)
    (hops : AdmissibleRun (fun sets op => BitVectorOp.Admissible num sets op)
      (fun sets op => BitVectorOp.onSets num sets op) [] ops) :
    ∃ store, runOps (BitVectorOp.exec num) [] ops = some store ∧
      store.length = (ops.foldl (BitVectorOp.onSets num) []).length ∧
      ∀ (v : Nat) (bv : BitVector) (S : Finset Nat), store[v]? = some bv →
        (ops.foldl (BitVectorOp.onSets num) [])[v]? = some S →
        S ⊆ Finset.range num ∧
        (∀ pos, pos < num → bv.getBit pos = some (decide (pos ∈ S))) ∧
        (∀ order, BitVector.IsSchedule num order → bv.countOnesIn order = some S.card) ∧
        (∀ block ∈ bv.blocks, ∀ p, block.num ≤ p → p < 64 * block.numWordUnits →
          block.getBit p = false) := by
  obtain ⟨store, hrun, hrep⟩ := runOps_simulates (RepresentsSets num)
    (fun store sets op h hop => RepresentsSets.exec h op hop) List.Forall₂.nil hops
  refine ⟨store, hrun, List.Forall₂.length_eq hrep, ?_⟩
  intro v bv S hbv hS
  have hv : v < (ops.foldl (BitVectorOp.onSets num) []).length :=
    (List.getElem?_eq_some_iff.mp hS).1
  obtain ⟨bv', S', hbv', hS', h⟩ := RepresentsSets.exists_of_lt hrep hv
  obtain rfl : bv = bv' := Option.some.inj (hbv.symm.trans hbv')
  obtain rfl : S = S' := Option.some.inj (hS.symm.trans hS')
  refine ⟨h.subset, fun pos hpos => h.holds.getBit_eq hpos, fun order horder => ?_,
    fun block hblock => h.holds.tailClear block hblock⟩
  rw [h.holds.countOnesIn_eq horder, h.card_eq]

/-- Two vectors of three bits: the first is emptied and given position `1`, the
second is combined with it, and the first is combined with itself. -/
theorem bitVector_refines_finset_three :
    ∃ store bv, runOps (BitVectorOp.exec 3) []
        [.construct [0], .construct [0], .setZeros 0 [0], .setBit 0 1, .and 1 0 [0],
          .or 0 0 [0]] = some store ∧
      store[1]? = some bv ∧ bv.getBit 1 = some true ∧ bv.getBit 2 = some false ∧
      bv.countOnesIn [0] = some 1 := by
  have hschedule := BitVector.isSchedule_singleton (show 0 < 3 by omega) (by decide)
  obtain ⟨store, hrun, hlen, hrep⟩ := bitVector_refines_finset 3
    [.construct [0], .construct [0], .setZeros 0 [0], .setBit 0 1, .and 1 0 [0], .or 0 0 [0]]
    (by simp [AdmissibleRun, BitVectorOp.Admissible, BitVectorOp.onSets, hschedule])
  have hlt : 1 < store.length := by
    rw [hlen]
    decide
  obtain ⟨_, hbit, hcount, _⟩ := hrep 1 store[1] {1} (List.getElem?_eq_getElem hlt) (by decide)
  exact ⟨store, store[1], hrun, List.getElem?_eq_getElem hlt, hbit 1 (by decide),
    hbit 2 (by decide), hcount [0] hschedule⟩

end ByteSlice
