import Mathlib

/-!
# Machine types, constants and enumerations

The vocabulary of `types.h`, `param.h` and `macros.h`.  A `WordUnit` and a
`ByteUnit` are fixed-width words.  Sizes and indices (`size_t`) are natural
numbers; the one operation whose wraparound the source can reach, subtraction,
is `sizeSub`, and the `CEIL` macro is written with it.
-/

namespace ByteSlice

/-- `typedef uint64_t WordUnit` -/
abbrev WordUnit := BitVec 64

/-- `typedef uint8_t ByteUnit` -/
abbrev ByteUnit := BitVec 8

/-- `8*sizeof(WordUnit)` -/
def kNumWordBits : Nat := 8 * 8

/-- `8*sizeof(AvxUnit)`, where an `AvxUnit` is 32 bytes. -/
def kNumAvxBits : Nat := 8 * 32

/-- Each block contains 1M tuples. -/
def kNumTuplesPerBlock : Nat := 1024 * 1024

@[simp] theorem kNumWordBits_eq : kNumWordBits = 64 := rfl

@[simp] theorem kNumAvxBits_eq : kNumAvxBits = 256 := rfl

theorem kNumTuplesPerBlock_eq : kNumTuplesPerBlock = 1048576 := rfl

theorem kNumTuplesPerBlock_pos : 0 < kNumTuplesPerBlock := by decide

theorem kNumWordBits_pos : 0 < kNumWordBits := by decide

/-- The stride of the loops that load one `AvxUnit` in each iteration. -/
theorem kNumAvxBits_div_pos : 0 < kNumAvxBits / 8 := by decide

inductive ColumnType
  | kNaive
  | kByteSlicePadRight
  | kByteSlicePadLeft
  deriving DecidableEq

inductive Bitwise
  | kSet
  | kAnd
  | kOr
  deriving DecidableEq

inductive Comparator
  | kEqual
  | kInequal
  | kLess
  | kGreater
  | kLessEqual
  | kGreaterEqual
  deriving DecidableEq

inductive Direction
  | kLeft
  | kRight
  deriving DecidableEq

/-! ## Unsigned size arithmetic -/

/-- Subtraction of two `size_t` values, which wraps below zero. -/
def sizeSub (a b : Nat) : Nat :=
  if b ≤ a then a - b else a + 2 ^ 64 - b

@[simp] theorem sizeSub_of_le {a b : Nat} (h : b ≤ a) : sizeSub a b = a - b :=
  if_pos h

/-- `#define CEIL(X,Y) (((X)-1) / (Y) + 1)` on `size_t` operands. -/
def ceil (x y : Nat) : Nat :=
  sizeSub x 1 / y + 1

/-- On a positive operand the macro is the ceiling of the quotient. -/
theorem ceil_eq_ceilDiv {x y : Nat} (hx : 0 < x) (hy : 0 < y) : ceil x y = x ⌈/⌉ y := by
  unfold ceil
  rw [sizeSub_of_le hx, Nat.ceilDiv_eq_add_pred_div, ← Nat.add_div_right _ hy]
  congr 1
  omega

/-! ## Code widths -/

/-- A width at which the column block templates exist: they are instantiated at
`1, ..., 32`, and `Column::CreateNewBlock` aborts on any other value. -/
structure BitWidth where
  bits : Nat
  pos : 1 ≤ bits
  le : bits ≤ 32
  deriving DecidableEq

/-! ## What the enumerations mean

These two definitions are the specification side: the comparison that a scan
is asked for, on unsigned values, and the way its outcome is combined with the
bit that was there. -/

/-- The truth of `a cmp b` on unsigned integers. -/
def Comparator.holds (cmp : Comparator) (a b : Nat) : Bool :=
  match cmp with
  | .kEqual => decide (a = b)
  | .kInequal => decide (a ≠ b)
  | .kLess => decide (a < b)
  | .kGreater => decide (a > b)
  | .kLessEqual => decide (a ≤ b)
  | .kGreaterEqual => decide (a ≥ b)

/-- The new bit from the old one and the outcome of the comparison. -/
def Bitwise.apply (opt : Bitwise) (old outcome : Bool) : Bool :=
  match opt with
  | .kSet => outcome
  | .kAnd => old && outcome
  | .kOr => old || outcome

end ByteSlice
