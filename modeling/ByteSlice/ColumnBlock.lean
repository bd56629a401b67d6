import Mathlib
import ByteSlice.ByteSliceScan
import ByteSlice.NaiveColumnBlock

/-!
# `ColumnBlock`

The base class as the sum of the block classes that `Column::CreateNewBlock`
creates; a virtual call is a case distinction.  `BlockKind` says which class a
block belongs to, and with it how many bits of a written value are kept.

The lemmas below are the interface of a block: they hold of both classes and
mention neither.  `Sound` is the storage invariant, vacuous for a plain array and
`PaddingClean` for byte slices.
-/

namespace ByteSlice

open Foundation

/-- The class of a block. -/
inductive BlockKind
  | naive (dt : DType)
  | byteSlice (w : BitWidth)
  deriving DecidableEq

/-- The number of low bits of a written value that a block keeps. -/
def BlockKind.bits : BlockKind → Nat
  | .naive dt => dt.bits
  | .byteSlice w => w.bits

/-- What a tuple that was never written reads as. -/
def BlockKind.blank : BlockKind → Nat
  | .naive _ => 0
  | .byteSlice w => ByteSliceColumnBlock.blank w

inductive ColumnBlock
  | naive (dt : DType) (b : NaiveColumnBlock dt)
  | byteSlice (w : BitWidth) (b : ByteSliceColumnBlock w .kRight)

namespace ColumnBlock

def kind : ColumnBlock → BlockKind
  | .naive dt _ => .naive dt
  | .byteSlice w _ => .byteSlice w

/-- The constructors, called with the number of tuples. -/
def new (num : Nat) : BlockKind → ColumnBlock
  | .naive dt => .naive dt (NaiveColumnBlock.new num)
  | .byteSlice w => .byteSlice w (ByteSliceColumnBlock.new num)

def numTuples : ColumnBlock → Nat
  | .naive _ b => b.numTuples
  | .byteSlice _ b => b.numTuples

def getTuple (block : ColumnBlock) (posInBlock : Nat) : WordUnit :=
  match block with
  | .naive _ b => b.getTuple posInBlock
  | .byteSlice _ b => b.getTuple posInBlock

def setTuple (block : ColumnBlock) (posInBlock : Nat) (value : WordUnit) : ColumnBlock :=
  match block with
  | .naive dt b => .naive dt (b.setTuple posInBlock value)
  | .byteSlice w b => .byteSlice w (b.setTuple posInBlock value)

def bulkLoadArray (codes : Nat → WordUnit) (num startPos : Nat) (block : ColumnBlock) :
    ColumnBlock :=
  match block with
  | .naive dt b => .naive dt (b.bulkLoadArray codes num startPos)
  | .byteSlice w b => .byteSlice w (b.bulkLoadArray codes num startPos)

def resize (size : Nat) (block : ColumnBlock) : ColumnBlock :=
  match block with
  | .naive dt b => .naive dt (b.resize size)
  | .byteSlice w b => .byteSlice w (b.resize size)

def scan (block : ColumnBlock) (cmp : Comparator) (literal : WordUnit)
    (bvBlock : BitVectorBlock) (opt : Bitwise) : BitVectorBlock :=
  match block with
  | .naive _ b => b.scan cmp literal bvBlock opt
  | .byteSlice _ b => b.scan cmp literal bvBlock opt

/-- The scan against another block.  A byte-slice block casts its argument to its
own class without a check; on a block of another class that has no meaning. -/
def scanBlock (block : ColumnBlock) (cmp : Comparator) (columnBlock : ColumnBlock)
    (bvBlock : BitVectorBlock) (opt : Bitwise) : Option BitVectorBlock :=
  match block with
  | .naive _ b => some (b.scanBlock cmp columnBlock.getTuple bvBlock opt)
  | .byteSlice w b =>
      match columnBlock with
      | .naive _ _ => none
      | .byteSlice w' b' =>
          if h : w' = w then some (b.scanBlock cmp (h ▸ b') bvBlock opt) else none

/-- The storage invariant. -/
def Sound : ColumnBlock → Prop
  | .naive _ _ => True
  | .byteSlice _ b => b.PaddingClean

/-! ## Writing and reading -/

variable (block : ColumnBlock)

@[simp] theorem kind_new (num : Nat) (k : BlockKind) : (new num k).kind = k := by
  cases k <;> rfl

theorem sound_new (num : Nat) (k : BlockKind) : (new num k).Sound := by
  cases k with
  | naive dt => trivial
  | byteSlice w => exact ByteSliceColumnBlock.paddingClean_new w num

theorem toNat_getTuple_new (num : Nat) (k : BlockKind) {p : Nat} (hp : p < kNumTuplesPerBlock) :
    ((new num k).getTuple p).toNat = k.blank := by
  cases k with
  | naive dt => exact NaiveColumnBlock.toNat_getTuple_new num hp
  | byteSlice w => exact ByteSliceColumnBlock.toNat_getTuple_new w num hp

@[simp] theorem kind_setTuple (pos : Nat) (value : WordUnit) :
    (block.setTuple pos value).kind = block.kind := by
  cases block <;> rfl

@[simp] theorem numTuples_setTuple (pos : Nat) (value : WordUnit) :
    (block.setTuple pos value).numTuples = block.numTuples := by
  cases block with
  | naive dt b => rfl
  | byteSlice w b => exact b.numTuples_setTuple pos value

theorem Sound.setTuple {block : ColumnBlock} (h : block.Sound) (pos : Nat) (value : WordUnit) :
    (block.setTuple pos value).Sound := by
  cases block with
  | naive dt b => trivial
  | byteSlice w b => exact ByteSliceColumnBlock.PaddingClean.setTuple h pos value

@[simp] theorem kind_resize (size : Nat) : (block.resize size).kind = block.kind := by
  cases block <;> rfl

@[simp] theorem numTuples_resize (size : Nat) : (block.resize size).numTuples = size := by
  cases block <;> rfl

@[simp] theorem getTuple_resize (size pos : Nat) :
    (block.resize size).getTuple pos = block.getTuple pos := by
  cases block <;> rfl

theorem resize_self : block.resize block.numTuples = block := by
  cases block <;> rfl

theorem resize_resize (size size' : Nat) :
    (block.resize size).resize size' = block.resize size' := by
  cases block <;> rfl

theorem Sound.resize {block : ColumnBlock} (h : block.Sound) (size : Nat) :
    (block.resize size).Sound := by
  cases block with
  | naive dt b => trivial
  | byteSlice w b => exact ByteSliceColumnBlock.PaddingClean.resize h size

/-- A block returns values of its width only. -/
theorem toNat_getTuple_lt (pos : Nat) : (block.getTuple pos).toNat < 2 ^ block.kind.bits := by
  cases block with
  | naive dt b => exact b.toNat_getTuple_lt pos
  | byteSlice w b => exact b.toNat_getTuple_lt pos

/-- Reading back a written value: reduced to the block's width at its own
position, no change elsewhere. -/
theorem toNat_getTuple_setTuple (q : Nat) (value : WordUnit) {p : Nat}
    (hp : p < kNumTuplesPerBlock) :
    ((block.setTuple q value).getTuple p).toNat =
      if q = p then value.toNat % 2 ^ block.kind.bits else (block.getTuple p).toNat := by
  cases block with
  | naive dt b => exact b.toNat_getTuple_setTuple q value hp
  | byteSlice w b => exact b.toNat_getTuple_setTuple q value hp

/-- The bulk load of either class is the loop of its single writes. -/
theorem bulkLoadArray_eq (codes : Nat → WordUnit) (num startPos : Nat) :
    block.bulkLoadArray codes num startPos =
      forLoop num 1 Nat.one_pos
        (fun i _ block => block.setTuple (startPos + i) (codes i)) 0 block := by
  cases block with
  | naive dt b =>
      obtain ⟨_, _, hrel⟩ := forLoop_rel Nat.one_pos
        (fun i (_ : i < num) (b : NaiveColumnBlock dt) => b.setTuple (startPos + i) (codes i))
        (fun i (_ : i < num) (block : ColumnBlock) => block.setTuple (startPos + i) (codes i))
        (fun _ b block => ColumnBlock.naive dt b = block)
        (fun i _ b _ h => by rw [← h]; rfl) 0 b _ rfl
      exact hrel
  | byteSlice w b =>
      obtain ⟨_, _, hrel⟩ := forLoop_rel Nat.one_pos
        (fun i (_ : i < num) (b : ByteSliceColumnBlock w .kRight) =>
          b.setTuple (startPos + i) (codes i))
        (fun i (_ : i < num) (block : ColumnBlock) => block.setTuple (startPos + i) (codes i))
        (fun _ b block => ColumnBlock.byteSlice w b = block)
        (fun i _ b _ h => by rw [← h]; rfl) 0 b _ rfl
      exact hrel

@[simp] theorem numTuples_bulkLoadArray (codes : Nat → WordUnit) (num startPos : Nat) :
    (block.bulkLoadArray codes num startPos).numTuples = block.numTuples := by
  rw [bulkLoadArray_eq]
  obtain ⟨_, _, _, _, _, h⟩ := forLoop_rule Nat.one_pos
    (fun i (_ : i < num) (block : ColumnBlock) => block.setTuple (startPos + i) (codes i))
    (fun _ s => s.numTuples = block.numTuples)
    (fun _ _ s hs => (s.numTuples_setTuple _ _).trans hs) 0 block rfl
  exact h

/-! ## Scans -/

@[simp] theorem num_scan (cmp : Comparator) (literal : WordUnit) (bvBlock : BitVectorBlock)
    (opt : Bitwise) : (block.scan cmp literal bvBlock opt).num = bvBlock.num := by
  cases block with
  | naive dt b => exact NaiveColumnBlock.num_scanHelper2 _ _ _ _ _
  | byteSlice w b => exact ByteSliceColumnBlock.num_scanHelper2 _ _ _ _ _

/-- On a block of its own class the cast of the argument is meaningful. -/
theorem exists_scanBlock {columnBlock : ColumnBlock} (hkind : columnBlock.kind = block.kind)
    (cmp : Comparator) (bvBlock : BitVectorBlock) (opt : Bitwise) :
    ∃ out, block.scanBlock cmp columnBlock bvBlock opt = some out ∧ out.num = bvBlock.num := by
  cases block with
  | naive dt b => exact ⟨_, rfl, NaiveColumnBlock.num_scanHelper2 _ _ _ _ _⟩
  | byteSlice w b =>
      cases columnBlock with
      | naive dt b' => exact BlockKind.noConfusion hkind
      | byteSlice w' b' =>
          obtain rfl : w' = w := BlockKind.byteSlice.inj hkind
          exact ⟨_, dif_pos rfl, ByteSliceColumnBlock.num_scanHelper2 _ _ _ _ _⟩

/-- What a scan leaves in a bit vector block: the same size, a clear tail, and
below the size the old bits combined with the comparison. -/
structure Scanned (bvBlock out : BitVectorBlock) (opt : Bitwise) (outcome : Nat → Bool) :
    Prop where
  num_eq : out.num = bvBlock.num
  tailClear : out.TailClear
  getBit_eq : ∀ p, p < bvBlock.num → out.getBit p = opt.apply (bvBlock.getBit p) (outcome p)

variable {block} {bvBlock : BitVectorBlock}

theorem getBit_scan (hsound : block.Sound) (hnum : bvBlock.num = block.numTuples)
    (cmp : Comparator) (literal : WordUnit) (opt : Bitwise) {p : Nat} (hp : p < bvBlock.num) :
    (block.scan cmp literal bvBlock opt).getBit p =
      opt.apply (bvBlock.getBit p)
        (cmp.holds (block.getTuple p).toNat (literal.toNat % 2 ^ block.kind.bits)) := by
  rw [hnum] at hp
  cases block with
  | naive dt b =>
      refine (NaiveColumnBlock.getBit_scanHelper2 cmp opt b _ hnum hp).trans ?_
      rw [BitVec.toNat_setWidth]
      rfl
  | byteSlice w b => exact ByteSliceColumnBlock.getBit_scan cmp literal opt hsound hnum hp

theorem scanned_scan (hsound : block.Sound) (hnum : bvBlock.num = block.numTuples)
    (htail : bvBlock.TailClear) (cmp : Comparator) (literal : WordUnit) (opt : Bitwise) :
    Scanned bvBlock (block.scan cmp literal bvBlock opt) opt fun p =>
      cmp.holds (block.getTuple p).toNat (literal.toNat % 2 ^ block.kind.bits) where
  num_eq := block.num_scan cmp literal bvBlock opt
  tailClear := by
    cases block with
    | naive dt b => exact NaiveColumnBlock.tailClear_scanHelper2 cmp opt b _ hnum htail
    | byteSlice w b => exact ByteSliceColumnBlock.tailClear_scanHelper2 _ _ _ _ _
  getBit_eq _ hp := getBit_scan hsound hnum cmp literal opt hp

theorem exists_scanned_scanBlock (hsound : block.Sound) (hnum : bvBlock.num = block.numTuples)
    (htail : bvBlock.TailClear) {columnBlock : ColumnBlock} (hother : columnBlock.Sound)
    (hkind : columnBlock.kind = block.kind) (cmp : Comparator) (opt : Bitwise) :
    ∃ out, block.scanBlock cmp columnBlock bvBlock opt = some out ∧
      Scanned bvBlock out opt fun p =>
        cmp.holds (block.getTuple p).toNat (columnBlock.getTuple p).toNat := by
  cases block with
  | naive dt b =>
      refine ⟨_, rfl, NaiveColumnBlock.num_scanHelper2 _ _ _ _ _,
        NaiveColumnBlock.tailClear_scanHelper2 cmp opt b _ hnum htail, fun p hp => ?_⟩
      rw [hnum] at hp
      refine (NaiveColumnBlock.getBit_scanHelper2 cmp opt b _ hnum hp).trans ?_
      have hlt := columnBlock.toNat_getTuple_lt p
      rw [hkind] at hlt
      rw [BitVec.toNat_setWidth]
      exact congrArg (fun v => opt.apply _ (cmp.holds _ v)) (Nat.mod_eq_of_lt hlt)
  | byteSlice w b =>
      cases columnBlock with
      | naive dt b' => exact BlockKind.noConfusion hkind
      | byteSlice w' b' =>
          obtain rfl : w' = w := BlockKind.byteSlice.inj hkind
          refine ⟨b.scanBlock cmp b' bvBlock opt, dif_pos rfl,
            ByteSliceColumnBlock.num_scanHelper2 _ _ _ _ _,
            ByteSliceColumnBlock.tailClear_scanHelper2 _ _ _ _ _, fun p hp => ?_⟩
          rw [hnum] at hp
          exact ByteSliceColumnBlock.getBit_scanBlock cmp opt hsound hother hnum hp

end ColumnBlock

end ByteSlice
