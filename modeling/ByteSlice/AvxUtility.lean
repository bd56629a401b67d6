import Mathlib
import ByteSlice.Foundation.Cells
import ByteSlice.Types

/-!
# The AVX helpers of `avx-utility.h`

An `AvxUnit` is a 256-bit register, kept as its 32 byte lanes in memory order.
The helper templates are modelled at `T = ByteUnit`, the only element type at
which the scan code instantiates them; `FLIP` is modelled at every width.

A comparison leaves the byte `0xff` or `0x00` in each lane.  `laneMask` names
that encoding of a Boolean, and the lemmas below compute with it lane by lane.
-/

namespace ByteSlice

open Foundation

/-- `typedef __m256i AvxUnit`, as 32 byte lanes. -/
abbrev AvxUnit := Vector ByteUnit 32

/-- `FLIP`: toggle the most significant bit. -/
def flip {w : Nat} (value : BitVec w) : BitVec w :=
  value ^^^ (1#w <<< (w - 1))

/-- `_mm256_cmpgt_epi8`: signed comparison of the byte lanes. -/
def mm256CmpgtEpi8 (a b : AvxUnit) : AvxUnit :=
  Vector.zipWith (fun x y => if y.slt x then 0xff#8 else 0#8) a b

/-- `_mm256_cmpeq_epi8` -/
def mm256CmpeqEpi8 (a b : AvxUnit) : AvxUnit :=
  Vector.zipWith (fun x y => if x = y then 0xff#8 else 0#8) a b

/-- `_mm256_movemask_epi8`: the most significant bit of every lane. -/
def mm256MovemaskEpi8 (a : AvxUnit) : BitVec 32 :=
  BitVec.ofFnLE fun j : Fin 32 => a[j].msb

/-- `_mm256_lddqu_si256`: 32 consecutive bytes of a memory region. -/
def mm256LddquSi256 {n : Nat} (mem : Vector ByteUnit n) (addr : Nat) : AvxUnit :=
  Vector.ofFn fun j : Fin 32 => load mem (addr + j)

def avxCmplt (a b : AvxUnit) : AvxUnit := mm256CmpgtEpi8 b a

def avxCmpgt (a b : AvxUnit) : AvxUnit := mm256CmpgtEpi8 a b

def avxCmpeq (a b : AvxUnit) : AvxUnit := mm256CmpeqEpi8 b a

def avxSet1 (a : ByteUnit) : AvxUnit := Vector.replicate 32 a

def avxZero : AvxUnit := Vector.replicate 32 0#8

/-- `_mm256_set1_epi64x(-1ULL)` -/
def avxOnes : AvxUnit := Vector.replicate 32 0xff#8

def avxAnd (a b : AvxUnit) : AvxUnit := Vector.zipWith (· &&& ·) a b

def avxOr (a b : AvxUnit) : AvxUnit := Vector.zipWith (· ||| ·) a b

def avxXor (a b : AvxUnit) : AvxUnit := Vector.zipWith (· ^^^ ·) a b

def avxNot (a : AvxUnit) : AvxUnit := avxXor a avxOnes

/-- `_mm256_testz_si256(a, a)`: whether `a & a` has no bit set. -/
def avxIszero (a : AvxUnit) : Bool := (avxAnd a a).all fun x => x == 0#8

/-! ## Flipped bytes compare as unsigned bytes -/

theorem flip_flip {w : Nat} (x : BitVec w) : flip (flip x) = x := by
  unfold flip
  rw [BitVec.xor_assoc, BitVec.xor_self, BitVec.xor_zero]

/-- Read as a signed byte, a flipped byte is the unsigned byte displaced by
`128`. -/
theorem toInt_flip (x : ByteUnit) : (flip x).toInt = (x.toNat : Int) - 128 := by
  revert x
  decide

/-- The signed order of stored bytes is the unsigned order of the bytes they
encode. -/
theorem slt_eq_flip_lt (x y : ByteUnit) :
    x.slt y = decide ((flip x).toNat < (flip y).toNat) := by
  have hx := toInt_flip (flip x)
  have hy := toInt_flip (flip y)
  rw [flip_flip] at hx hy
  rw [BitVec.slt, hx, hy]
  congr 1
  apply propext
  omega

theorem eq_iff_flip_toNat_eq (x y : ByteUnit) :
    x = y ↔ (flip x).toNat = (flip y).toNat := by
  constructor
  · rintro rfl
    rfl
  · intro h
    rw [← flip_flip x, BitVec.eq_of_toNat_eq h, flip_flip]

/-! ## Lane masks -/

/-- The byte that a lane comparison produces for a truth value. -/
def laneMask (b : Bool) : ByteUnit := if b then 0xff#8 else 0#8

@[simp] theorem laneMask_true : laneMask true = 0xff#8 := rfl

@[simp] theorem laneMask_false : laneMask false = 0#8 := rfl

@[simp] theorem laneMask_and (a b : Bool) : laneMask a &&& laneMask b = laneMask (a && b) := by
  cases a <;> cases b <;> rfl

@[simp] theorem laneMask_or (a b : Bool) : laneMask a ||| laneMask b = laneMask (a || b) := by
  cases a <;> cases b <;> rfl

@[simp] theorem laneMask_xor_ones (a : Bool) : laneMask a ^^^ 0xff#8 = laneMask (!a) := by
  cases a <;> rfl

@[simp] theorem msb_laneMask (a : Bool) : (laneMask a).msb = a := by
  cases a <;> rfl

@[simp] theorem laneMask_eq_zero (a : Bool) : laneMask a = 0#8 ↔ a = false := by
  cases a <;> decide

section Lanes

variable (a b : AvxUnit) {j : Nat} (hj : j < 32)

include hj

@[simp] theorem getElem_avxZero : avxZero[j] = laneMask false := by
  simp [avxZero]

@[simp] theorem getElem_avxOnes : avxOnes[j] = laneMask true := by
  simp [avxOnes]

@[simp] theorem getElem_avxSet1 (x : ByteUnit) : (avxSet1 x)[j] = x := by
  simp [avxSet1]

@[simp] theorem getElem_avxAnd : (avxAnd a b)[j] = a[j] &&& b[j] := by
  simp [avxAnd]

@[simp] theorem getElem_avxOr : (avxOr a b)[j] = a[j] ||| b[j] := by
  simp [avxOr]

@[simp] theorem getElem_avxNot : (avxNot a)[j] = a[j] ^^^ 0xff#8 := by
  simp [avxNot, avxXor, avxOnes]

/-- The lanes of the three comparisons, on the bytes that the lanes encode. -/
@[simp] theorem getElem_avxCmplt :
    (avxCmplt a b)[j] = laneMask (decide ((flip a[j]).toNat < (flip b[j]).toNat)) := by
  simp [avxCmplt, mm256CmpgtEpi8, slt_eq_flip_lt, laneMask]

@[simp] theorem getElem_avxCmpgt :
    (avxCmpgt a b)[j] = laneMask (decide ((flip b[j]).toNat < (flip a[j]).toNat)) := by
  simp [avxCmpgt, mm256CmpgtEpi8, slt_eq_flip_lt, laneMask]

@[simp] theorem getElem_avxCmpeq :
    (avxCmpeq a b)[j] = laneMask (decide ((flip a[j]).toNat = (flip b[j]).toNat)) := by
  have hlane : b[j] = a[j] ↔ (flip a[j]).toNat = (flip b[j]).toNat :=
    eq_comm.trans (eq_iff_flip_toNat_eq a[j] b[j])
  simp [avxCmpeq, mm256CmpeqEpi8, laneMask, hlane]

theorem getElem_mm256LddquSi256 {n : Nat} (mem : Vector ByteUnit n) (addr : Nat) :
    (mm256LddquSi256 mem addr)[j] = load mem (addr + j) := by
  simp [mm256LddquSi256]

@[simp] theorem getLsbD_mm256MovemaskEpi8 : (mm256MovemaskEpi8 a).getLsbD j = a[j].msb := by
  simp [mm256MovemaskEpi8, hj]

end Lanes

theorem avxIszero_iff (a : AvxUnit) :
    avxIszero a = true ↔ ∀ (j : Nat) (hj : j < 32), a[j] = 0#8 := by
  simp [avxIszero, Vector.all_eq_true]

end ByteSlice
