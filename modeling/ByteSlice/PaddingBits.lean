import Mathlib
import ByteSlice.ByteSliceScan

/-!
# What padding bits do to a scan

`GetTuple` drops the padding bits of a code, and a scan compares them.  Writing keeps them
zero; reading a file brings in whatever the file has.

A scan sees a tuple with a padding bit set as a little more than the code that it returns:
more than an equal literal, less than the next one.  Two of the six comparators cannot
tell the difference.
-/

namespace ByteSlice

open Foundation

/-- A number between `a` and `a + 1`, or `a` itself, against a whole number. -/
theorem Comparator.holds_between (cmp : Comparator) (a b : Nat) {rest unit : Nat}
    (hrest : rest < unit) :
    cmp.holds (a * unit + rest) (b * unit) =
      cmp.holds (2 * a + if rest = 0 then 0 else 1) (2 * b) := by
  have hmul : ∀ {x y : Nat}, x < y → x * unit + unit ≤ y * unit := fun {x y} hxy => by
    have := Nat.mul_le_mul_right unit hxy
    rwa [Nat.succ_mul] at this
  rcases Nat.lt_trichotomy a b with hlt | rfl | hgt
  · have hfar := hmul hlt
    cases cmp <;> refine decide_eq_decide.mpr ?_ <;> split <;> omega
  · cases cmp <;> refine decide_eq_decide.mpr ?_ <;> split <;> omega
  · have hfar := hmul hgt
    cases cmp <;> refine decide_eq_decide.mpr ?_ <;> split <;> omega

/-- Two of the comparators cannot tell half a step. -/
theorem Comparator.holds_half {cmp : Comparator} (h : cmp = .kLess ∨ cmp = .kGreaterEqual)
    (a b : Nat) : cmp.holds (2 * a + 1) (2 * b) = cmp.holds a b := by
  rcases h with rfl | rfl
  · exact decide_eq_decide.mpr (by omega)
  · exact decide_eq_decide.mpr (by omega)

/-- The others tell it when the numbers are equal. -/
theorem Comparator.of_holds_half {cmp : Comparator} {a : Nat}
    (h : cmp.holds (2 * a + 1) (2 * a) = cmp.holds a a) :
    cmp = .kLess ∨ cmp = .kGreaterEqual := by
  cases cmp <;> simp [Comparator.holds] at h ⊢

/-- **Scans of blocks of any bytes.**  A byte-slice block holds any bytes, such as those of a
file.  A scan against a literal combines into every bit the comparison of the tuple, or of
half a step more if a padding bit of the tuple is set, with the literal.  So for a given
comparator it agrees with `GetTuple` for all literals if and only if the comparator is `<` or
`>=` or the padding bits are zero. -/
theorem scan_padding_iff (w : BitWidth) (b : ByteSliceColumnBlock w .kRight)
    (bvBlock : BitVectorBlock) (hnum : bvBlock.num = b.numTuples) (cmp : Comparator) (p : Nat)
    (hp : p < b.numTuples) :
    let padding := b.stored p % 2 ^ ByteSliceColumnBlock.kNumPaddingBits w
    (∀ literal opt, (b.scan cmp literal bvBlock opt).getBit p = opt.apply (bvBlock.getBit p)
      (cmp.holds (2 * (b.getTuple p).toNat + if padding = 0 then 0 else 1)
        (2 * (literal.toNat % 2 ^ w.bits)))) ∧
    ((∀ literal opt, (b.scan cmp literal bvBlock opt).getBit p = opt.apply (bvBlock.getBit p)
        (cmp.holds (b.getTuple p).toNat (literal.toNat % 2 ^ w.bits))) ↔
      cmp = .kLess ∨ cmp = .kGreaterEqual ∨ padding = 0) := by
  intro padding
  have hunit : 0 < 2 ^ ByteSliceColumnBlock.kNumPaddingBits w := Nat.two_pow_pos _
  have hexact : ∀ literal opt, (b.scan cmp literal bvBlock opt).getBit p =
      opt.apply (bvBlock.getBit p)
        (cmp.holds (2 * (b.getTuple p).toNat + if padding = 0 then 0 else 1)
          (2 * (literal.toNat % 2 ^ w.bits))) := by
    intro literal opt
    have hscan := ByteSliceColumnBlock.getBit_scanHelper2 cmp opt b
      (ByteSliceColumnBlock.operandDigits_maskLiteral w literal) hnum hp
    rw [ByteSliceColumnBlock.prefixValue_maskLiteral,
      ← Nat.div_add_mod' (b.stored p) (2 ^ ByteSliceColumnBlock.kNumPaddingBits w),
      ← b.toNat_getTuple, Comparator.holds_between _ _ _ (Nat.mod_lt _ hunit)] at hscan
    exact hscan
  refine ⟨hexact, ?_⟩
  constructor
  · intro hagree
    by_contra hnone
    obtain ⟨hless, hge, hpadding⟩ : cmp ≠ .kLess ∧ cmp ≠ .kGreaterEqual ∧ padding ≠ 0 := by
      simpa only [not_or] using hnone
    -- the literal that is the tuple's own code
    have hcode : ((b.getTuple p).toNat % 2 ^ w.bits) = (b.getTuple p).toNat :=
      Nat.mod_eq_of_lt (b.toNat_getTuple_lt p)
    have hboth := (hexact (b.getTuple p) .kSet).symm.trans (hagree (b.getTuple p) .kSet)
    rw [hcode, if_neg hpadding] at hboth
    rcases Comparator.of_holds_half hboth with h | h
    · exact hless h
    · exact hge h
  · intro hcase literal opt
    rw [hexact]
    congr 1
    by_cases hzero : padding = 0
    · rw [if_pos hzero, Nat.add_zero, Nat.mul_comm 2, Nat.mul_comm 2,
        ByteSliceColumnBlock.Comparator.holds_mul_right cmp (by decide)]
    · rw [if_neg hzero]
      exact Comparator.holds_half (by tauto) _ _

/-- A block of three codes of eleven bits, whose first tuple has its last padding bit set: some
scan for equality disagrees with `GetTuple`. -/
theorem scan_padding_iff_three :
    let w : BitWidth := ⟨11, by decide, by decide⟩
    let b := (ByteSliceColumnBlock.new 3 : ByteSliceColumnBlock w .kRight).setByte 1 0 (flip 1#8)
    let bvBlock := BitVectorBlock.new 3 (by decide) (by decide)
    ¬ ∀ literal opt, (b.scan .kEqual literal bvBlock opt).getBit 0 = opt.apply (bvBlock.getBit 0)
      (Comparator.kEqual.holds (b.getTuple 0).toNat (literal.toNat % 2 ^ w.bits)) := by
  intro w b bvBlock hagree
  have hbytes : ByteSliceColumnBlock.kNumBytesPerCode w = 2 := by
    show ByteSliceColumnBlock.kNumBytesPerCode ⟨11, by decide, by decide⟩ = 2
    decide
  have hbits : ByteSliceColumnBlock.kNumPaddingBits w = 5 := by
    show ByteSliceColumnBlock.kNumPaddingBits ⟨11, by decide, by decide⟩ = 5
    decide
  have hdigit : b.digit 0 1 = 1 := by
    unfold ByteSliceColumnBlock.digit
    rw [ByteSliceColumnBlock.byte_setByte _ _ _ _ (by decide) (by decide), if_pos ⟨rfl, rfl⟩,
      flip_flip]
    rfl
  have hpadding : b.stored 0 % 2 ^ ByteSliceColumnBlock.kNumPaddingBits w ≠ 0 := by
    unfold ByteSliceColumnBlock.stored
    rw [hbytes, hbits, prefixValue_succ, hdigit]
    omega
  rcases (scan_padding_iff w b bvBlock (BitVectorBlock.num_new _ _ _) .kEqual 0
    (by decide)).2.mp hagree with h | h | h
  · cases h
  · cases h
  · exact hpadding h

end ByteSlice
