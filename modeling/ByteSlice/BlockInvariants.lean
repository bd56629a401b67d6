import Mathlib
import ByteSlice.ColumnRuns

/-!
# Invariants of single blocks

A property that new blocks have and that every access to one block keeps is kept by
every operation on a column, to whatever sizes it is resized and whether or not
the operation leaves a right layout.  The operations differ in which blocks they access
only; what they do to a block is one of four things.
-/

namespace ByteSlice

open Foundation

/-- A property of the blocks of a type and width that nothing breaks. -/
structure ColumnBlock.Invariant (type : ColumnType) (bitWidth : Nat) (P : ColumnBlock → Prop) :
    Prop where
  setTuple : ∀ block pos value, P block → P (block.setTuple pos value)
  resize : ∀ block size, size ≤ kNumTuplesPerBlock → P block → P (block.resize size)
  new : ∀ block, Column.createNewBlock type bitWidth = some block → P block

namespace ColumnBlock.Invariant

variable {type : ColumnType} {bitWidth : Nat} {P : ColumnBlock → Prop}
  {blocks out : List ColumnBlock}

theorem bulkLoadArray (h : Invariant type bitWidth P) (codes : Nat → WordUnit)
    (num startPos : Nat) {block : ColumnBlock} (hblock : P block) :
    P (block.bulkLoadArray codes num startPos) := by
  rw [block.bulkLoadArray_eq]
  obtain ⟨_, _, _, _, _, hexit⟩ := forLoop_rule Nat.one_pos
    (fun i (_ : i < num) (block : ColumnBlock) => block.setTuple (startPos + i) (codes i))
    (fun _ block => P block) (fun i _ block hP => h.setTuple block _ _ hP) 0 block hblock
  exact hexit

theorem set (hall : ∀ block ∈ blocks, P block) (i : Nat) {new : ColumnBlock} (hnew : P new) :
    ∀ block ∈ blocks.set i new, P block := by
  intro block hmem
  rcases List.mem_or_eq_of_mem_set hmem with hold | rfl
  · exact hall block hold
  · exact hnew

/-- An access to one block. -/
theorem stepCell (hall : ∀ block ∈ blocks, P block) {write : ColumnBlock → ColumnBlock}
    {i : Nat} (hwrite : ∀ block, P block → P (write block))
    (hstep : Foundation.stepCell (fun _ block => some (write block)) blocks i = some out) :
    ∀ block ∈ out, P block := by
  obtain ⟨old, new, hold, hnew, rfl⟩ := stepCell_eq_some_iff.mp hstep
  obtain rfl := Option.some.inj hnew
  exact set hall i (hwrite old (hall old (List.mem_of_getElem? hold)))

theorem resizeBlock (h : Invariant type bitWidth P) (hall : ∀ block ∈ blocks, P block)
    {num i : Nat} (hnum : num ≤ kNumTuplesPerBlock)
    (hresize : Column.resizeBlock num i blocks = some out) : ∀ block ∈ out, P block :=
  stepCell hall (fun block hP => h.resize block num hnum hP) hresize

theorem bulkLoadLoop (h : Invariant type bitWidth P) (codes : Nat → WordUnit)
    (dataPtr blockId posInBlock numRemainTuples : Nat) (hall : ∀ block ∈ blocks, P block)
    (hload : Column.bulkLoadLoop codes dataPtr blockId posInBlock numRemainTuples blocks =
      some out) : ∀ block ∈ out, P block := by
  induction dataPtr, blockId, posInBlock, numRemainTuples, blocks using
      Column.bulkLoadLoop.induct codes with
  | case1 dataPtr blockId posInBlock remain blocks hremain hnone =>
      rw [Column.bulkLoadLoop_eq_none codes dataPtr posInBlock hremain hnone] at hload
      cases hload
  | case2 dataPtr blockId posInBlock remain blocks hremain block hblock size ih =>
      rw [Column.bulkLoadLoop_of_block codes dataPtr hremain hblock rfl] at hload
      exact ih (set hall blockId
        (h.bulkLoadArray _ _ _ (hall block (List.mem_of_getElem? hblock)))) hload
  | case3 dataPtr blockId posInBlock remain blocks hremain =>
      rw [Column.bulkLoadLoop, if_neg hremain] at hload
      rw [← Option.some.inj hload]
      exact hall

theorem removeBlocks (hall : ∀ block ∈ blocks, P block) (newNumBlocks bid : Nat) :
    ∀ block ∈ Column.removeBlocks newNumBlocks bid blocks, P block := by
  induction bid, blocks using Column.removeBlocks.induct newNumBlocks with
  | case1 bid blocks hlt ih =>
      rw [Column.removeBlocks, if_pos hlt]
      exact ih fun block hmem => hall block (List.mem_of_mem_dropLast hmem)
  | case2 bid blocks hge =>
      rw [Column.removeBlocks, if_neg hge]
      exact hall

/-- The loops that append new blocks of some sizes, that of the constructor and that of
`Resize`. -/
theorem appendLoop (h : Invariant type bitWidth P) {stop step : Nat} (hstep : 0 < step)
    (size : Nat → Nat) (hsize : ∀ i, size i ≤ kNumTuplesPerBlock)
    (hall : ∀ block ∈ blocks, P block) (start : Nat)
    (happend : forLoop stop step hstep
      (fun i _ (made : Option (List ColumnBlock)) => made.bind fun made =>
        (Column.createNewBlock type bitWidth).map fun newBlock =>
          made ++ [newBlock.resize (size i)]) start (some blocks) = some out) :
    ∀ block ∈ out, P block := by
  obtain ⟨_, _, _, _, _, hexit⟩ := forLoop_rule hstep
    (fun i (_ : i < stop) (made : Option (List ColumnBlock)) => made.bind fun made =>
      (Column.createNewBlock type bitWidth).map fun newBlock =>
        made ++ [newBlock.resize (size i)])
    (fun _ made => ∀ made', made = some made' → ∀ block ∈ made', P block)
    (fun i _ made hmade made' hmade' => by
      obtain ⟨before, hbefore, hmap⟩ := Option.bind_eq_some_iff.mp hmade'
      obtain ⟨newBlock, hnew, rfl⟩ := Option.map_eq_some_iff.mp hmap
      intro block hmem
      rcases List.mem_append.mp hmem with hold | hlast
      · exact hmade before hbefore block hold
      · rw [List.mem_singleton.mp hlast]
        exact h.resize newBlock _ (hsize i) (h.new newBlock hnew))
    start (some blocks) (fun made' hmade' => Option.some.inj hmade' ▸ hall)
  exact hexit out happend

end ColumnBlock.Invariant

namespace Column

variable {type : ColumnType} {bitWidth : Nat} {P : ColumnBlock → Prop}

/-- A column of the type and width all of whose blocks have the property. -/
structure AllBlocks (type : ColumnType) (bitWidth : Nat) (P : ColumnBlock → Prop) (c : Column) :
    Prop where
  type_eq : c.type = type
  bitWidth_eq : c.bitWidth = bitWidth
  all : ∀ block ∈ c.blocks, P block

namespace AllBlocks

theorem new (h : ColumnBlock.Invariant type bitWidth P) {num : Nat} {c : Column}
    (hnew : Column.new type bitWidth num = some c) : AllBlocks type bitWidth P c := by
  obtain ⟨blocks, hblocks, rfl⟩ := Option.map_eq_some_iff.mp hnew
  exact ⟨rfl, rfl, h.appendLoop kNumTuplesPerBlock_pos
    (fun count => min kNumTuplesPerBlock (num - count)) (fun _ => Nat.min_le_left _ _)
    (fun block hmem => absurd hmem List.not_mem_nil) 0 hblocks⟩

/-- Every resize that ends, to any size. -/
theorem resize (h : ColumnBlock.Invariant type bitWidth P) {c c' : Column}
    (hc : AllBlocks type bitWidth P c) {num : Nat} (hresize : c.resize num = some c') :
    AllBlocks type bitWidth P c' := by
  obtain ⟨blocks, hboth, rfl⟩ := Option.map_eq_some_iff.mp hresize
  obtain ⟨adjusted, hadjust, hcorrect⟩ := Option.bind_eq_some_iff.mp hboth
  have hadjusted : ∀ block ∈ adjusted, P block := by
    unfold adjustBlocks at hadjust
    rw [hc.type_eq, hc.bitWidth_eq] at hadjust
    dsimp only at hadjust
    split at hadjust
    · obtain ⟨filled, hfill, happend⟩ := Option.bind_eq_some_iff.mp hadjust
      exact h.appendLoop Nat.one_pos (fun _ => kNumTuplesPerBlock) (fun _ => Nat.le_refl _)
        (h.resizeBlock hc.all (Nat.le_refl _) hfill) _ happend
    · split at hadjust
      · rw [← Option.some.inj hadjust]
        exact ColumnBlock.Invariant.removeBlocks hc.all _ _
      · rw [← Option.some.inj hadjust]
        exact hc.all
  refine ⟨hc.type_eq, hc.bitWidth_eq, ?_⟩
  unfold correctLast at hcorrect
  dsimp only at hcorrect
  split at hcorrect
  · exact h.resizeBlock hadjusted (Nat.mod_lt num kNumTuplesPerBlock_pos).le hcorrect
  · rw [← Option.some.inj hcorrect]
    exact hadjusted

/-- The step lemma. -/
theorem exec (h : ColumnBlock.Invariant type bitWidth P) {c c' : Column}
    (hc : AllBlocks type bitWidth P c) (op : ColumnOp) (hexec : op.exec c = some c') :
    AllBlocks type bitWidth P c' := by
  cases op with
  | write op =>
      cases op with
      | setTuple id value =>
          obtain ⟨blocks, hset, rfl⟩ := Option.map_eq_some_iff.mp hexec
          exact ⟨hc.type_eq, hc.bitWidth_eq, ColumnBlock.Invariant.stepCell hc.all
            (fun block hP => h.setTuple block _ value hP) hset⟩
      | bulkLoadArray codes num pos =>
          obtain ⟨blocks, hload, rfl⟩ := Option.map_eq_some_iff.mp hexec
          exact ⟨hc.type_eq, hc.bitWidth_eq, h.bulkLoadLoop codes 0 _ _ num hc.all hload⟩
  | resize num => exact hc.resize h hexec

/-- The run lemma. -/
theorem runOps (h : ColumnBlock.Invariant type bitWidth P) {start c : Column}
    (hstart : AllBlocks type bitWidth P start) {ops : List ColumnOp}
    (hrun : Foundation.runOps ColumnOp.exec start ops = some c) : AllBlocks type bitWidth P c :=
  runOps_invariant (fun c _ => AllBlocks type bitWidth P c) hstart
    (fun _ _ _ op hc _ hexec => hc.exec h op hexec)
    (@admissibleRun_of_forall _ _ (fun (_ : Unit) (_ : ColumnOp) => True) (fun _ _ => ()) _
      (fun _ _ _ => trivial) ()) hrun

end AllBlocks

end Column

end ByteSlice
