import Mathlib
import ByteSlice.Column

/-!
# Scan steps over a family of columns

One step is a `Column::Scan` of a column of the family against a literal or against
another column of it.  On columns that store given contents the step succeeds and
combines, tuple by tuple, the bits with the comparison of the contents.
-/

namespace ByteSlice

open Foundation

/-- What a scan compares its column with. -/
inductive ScanOperand (ι : Type)
  | literal (value : WordUnit)
  | column (other : ι)

/-- One `Column::Scan`, with the order in which its block loop happens to run. -/
structure ScanStep (ι : Type) where
  column : ι
  cmp : Comparator
  operand : ScanOperand ι
  opt : Bitwise
  order : List Nat

namespace ScanStep

variable {ι : Type}

def exec (columns : ι → Column) (bv : BitVector) (step : ScanStep ι) : Option BitVector :=
  match step.operand with
  | .literal value => (columns step.column).scanIn step.order step.cmp value bv step.opt
  | .column other =>
      (columns step.column).scanColumnIn step.order step.cmp (columns other) bv step.opt

/-- A literal is a code of the column's width; another column has its type and
width; the block loop runs once for each block. -/
def WellFormed (types : ι → ColumnType) (widths : ι → Nat) (n : Nat) (step : ScanStep ι) :
    Prop :=
  Column.IsSchedule n step.order ∧
    match step.operand with
    | .literal value => value.toNat < 2 ^ widths step.column
    | .column other =>
        types other = types step.column ∧ widths other = widths step.column

/-- The comparison that the step asks for, on tuple `id` of the contents. -/
def outcome (contents : ι → Nat → Nat) (step : ScanStep ι) (id : Nat) : Bool :=
  step.cmp.holds (contents step.column id)
    (match step.operand with
    | .literal value => value.toNat
    | .column other => contents other id)

/-- The step on the bits of all tuples. -/
def onBits (contents : ι → Nat → Nat) (bits : Nat → Bool) (step : ScanStep ι) : Nat → Bool :=
  fun id => step.opt.apply (bits id) (step.outcome contents id)

variable {columns : ι → Column} {types : ι → ColumnType} {widths : ι → Nat} {n : Nat}
  {kinds : ι → BlockKind} {contents : ι → Nat → Nat} {bv : BitVector} {bits : Nat → Bool}

/-- The step lemma.  The type and width of a column decide the class of its blocks
and, with it, how many bits a literal may have. -/
theorem exists_exec (hkinds : ∀ i, Column.blockKind (types i) (widths i) = some (kinds i))
    (hstores : ∀ i, (columns i).Stores (kinds i) n (contents i)) (hbv : bv.Holds n bits)
    (step : ScanStep ι) (hstep : step.WellFormed types widths n) :
    ∃ out, step.exec columns bv = some out ∧ out.Holds n (step.onBits contents bits) := by
  obtain ⟨column, cmp, operand, opt, order⟩ := step
  obtain ⟨horder, hoperand⟩ := hstep
  cases operand with
  | literal value =>
      -- the literal has no bits that the format would drop
      have hkept : value.toNat % 2 ^ (kinds column).bits = value.toNat := by
        have hbits := Column.le_bits_of_blockKind (hkinds column)
        exact Nat.mod_eq_of_lt (hoperand.trans_le (Nat.pow_le_pow_right (by omega) hbits))
      obtain ⟨out, hout, hholds⟩ := (hstores column).exists_scanIn hbv horder cmp value opt
      rw [hkept] at hholds
      exact ⟨out, hout, hholds⟩
  | column other =>
      -- equal types and widths give blocks of one class, as the cast in the scan requires
      have hsame : kinds other = kinds column := by
        have hkind := hkinds other
        rw [hoperand.1, hoperand.2] at hkind
        exact Option.some.inj (hkind.symm.trans (hkinds column))
      have hother := hstores other
      rw [hsame] at hother
      exact (hstores column).exists_scanColumnIn hother hbv horder cmp opt

end ScanStep

end ByteSlice
