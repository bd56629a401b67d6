import Mathlib
import ByteSlice.ColumnArray

/-!
# Literals wider than the column

`Scan` takes a literal of 64 bits, and both formats narrow it before they compare:
the byte slices mask it to the width of the column, a plain array casts it to the
element type.  So a scan compares with the literal modulo a power of two.  A literal
beyond the width that the format still represents compares as it should; one that it
does not represent wraps.
-/

namespace ByteSlice

open Foundation

/-- The comparison of every code with a number beyond all codes. -/
def Comparator.beyond : Comparator → Bool
  | .kEqual => false
  | .kInequal => true
  | .kLess => true
  | .kGreater => false
  | .kLessEqual => true
  | .kGreaterEqual => false

theorem Comparator.holds_of_lt (cmp : Comparator) {a b : Nat} (h : a < b) :
    cmp.holds a b = cmp.beyond := by
  cases cmp with
  | kEqual => exact decide_eq_false h.ne
  | kInequal => exact decide_eq_true h.ne
  | kLess => exact decide_eq_true h
  | kGreater => exact decide_eq_false h.not_gt
  | kLessEqual => exact decide_eq_true h.le
  | kGreaterEqual => exact decide_eq_false h.not_ge

namespace Column

variable {c : Column} {kind : BlockKind} {n : Nat} {content : Nat → Nat} {bv : BitVector}

/-- A scan into any bit vector of the column's size, with or without a clear tail. -/
theorem Stores.exists_scanIn_bits (h : Stores c kind n content) (hlaid : bv.LaidOut)
    (hnum : bv.num = n) {order : List Nat} (horder : IsSchedule n order) (cmp : Comparator)
    (literal : WordUnit) (opt : Bitwise) :
    ∃ out, c.scanIn order cmp literal bv opt = some out ∧
      ∀ id, id < n → out.getBit id = some (opt.apply (bv.bit id)
        (cmp.holds (content id) (literal.toNat % 2 ^ kind.bits))) := by
  subst hnum
  obtain ⟨out, hout, _, _, hblocks⟩ := BitVector.exists_forBlocks hlaid horder
    (LaidOut.scan_body h.laidOut hlaid h.num_eq.symm cmp literal opt)
  refine ⟨out, hout, fun id hid => ?_⟩
  -- the bit is written in the iteration of its block
  obtain ⟨bvBlock, hbvBlock, hp⟩ := hlaid.exists_block kNumTuplesPerBlock_pos hid
  obtain ⟨block, hblock, hsize, hkind, hsound⟩ := h.exists_block_of_bvBlock hlaid rfl hbvBlock
  obtain ⟨new, hnew, _, hget⟩ := hblocks _ bvBlock hbvBlock
  rw [hblock] at hnew
  have hread : out.getBit id = some (new.getBit (id % kNumTuplesPerBlock)) := readAt_of_block hget
  rw [hread, ← Option.some.inj hnew,
    ColumnBlock.getBit_scan hsound hsize.symm cmp literal opt hp, hkind,
    BitVector.bit_eq_of_block hbvBlock, ← tuple_eq_of_block hblock, h.tuple_eq id hid]

end Column

/-- **A scan narrows its literal.**  Of every column built for `n` tuples, and every
bit vector of `n` bits: a scan against any literal combines each bit with the
comparison of the tuple with the literal modulo `2^k`, where `k` is the number of
bits that the column keeps of a value.  In particular, if all tuples are codes of the
column's width, a literal beyond the width but below `2^k` is beyond every tuple. -/
theorem scan_narrows_literal (type : ColumnType)
    (htype : type = .kNaive ∨ type = .kByteSlicePadRight) (bitWidth : Nat)
    (hpos : 1 ≤ bitWidth) (hle : bitWidth ≤ 32) (n : Nat) (c : Column)
    (hbuilt : c.Built type bitWidth n) (bv : BitVector) (hlaid : bv.LaidOut) (hnum : bv.num = n)
    (order : List Nat) (horder : Column.IsSchedule n order) (cmp : Comparator)
    (literal : WordUnit) (opt : Bitwise) :
    ∃ out, c.scanIn order cmp literal bv opt = some out ∧
      (∀ id, id < n → out.getBit id = some (opt.apply (bv.bit id)
        (cmp.holds (c.tuple id) (literal.toNat % 2 ^ Column.keptBits type bitWidth)))) ∧
      ((∀ id, id < n → c.tuple id < 2 ^ bitWidth) → 2 ^ bitWidth ≤ literal.toNat →
        literal.toNat < 2 ^ Column.keptBits type bitWidth →
        ∀ id, id < n → out.getBit id = some (opt.apply (bv.bit id) cmp.beyond)) := by
  obtain ⟨kind, hunique, hstores⟩ := Column.exists_kind_of_built type bitWidth
  obtain ⟨kind', hkind', hbits⟩ := Column.exists_blockKind htype hpos hle
  obtain rfl : kind' = kind := hunique kind' hkind'
  obtain ⟨out, hout, hget⟩ :=
    (hstores n c hbuilt).exists_scanIn_bits hlaid hnum horder cmp literal opt
  rw [hbits] at hget
  refine ⟨out, hout, hget, fun hcodes hbeyond hkept id hid => ?_⟩
  rw [hget id hid, Nat.mod_eq_of_lt hkept,
    cmp.holds_of_lt ((hcodes id hid).trans_le hbeyond)]

/-- The tuple `5` of eleven bits in a plain array: the literal `2048` is beyond the
width and below the `2^16` that the array represents. -/
theorem scan_narrows_literal_one :
    ∃ start c bv out, Column.new .kNaive 11 1 = some start ∧ start.setTuple 0 5#64 = some c ∧
      BitVector.new 1 = some bv ∧ c.scanIn [0] .kLess 2048#64 bv .kSet = some out ∧
      out.getBit 0 = some true := by
  have hkind : Column.blockKind .kNaive 11 = some (.naive .uint16) := rfl
  obtain ⟨start, hnew, hstores⟩ := Column.exists_new hkind 1
  obtain ⟨c, hset, hc⟩ := hstores.exists_setTuple (show 0 < 1 by decide) 5#64
  obtain ⟨bv, hbv, hholds⟩ := BitVector.exists_new 1
  have hbuilt := (Column.built_new hnew).exec (.setTuple 0 5#64) (show 0 < 1 by decide) hset
  have horder := BitVector.isSchedule_singleton (show 0 < 1 by decide) (by decide)
  have hcodes : ∀ id, id < 1 → c.tuple id < 2 ^ 11 := by
    intro id hid
    obtain rfl : id = 0 := by omega
    rw [hc.tuple_eq 0 hid, Function.update_self]
    decide
  obtain ⟨out, hout, _, hbeyond⟩ := scan_narrows_literal .kNaive (Or.inl rfl) 11 (by decide)
    (by decide) 1 c hbuilt bv hholds.laidOut hholds.num_eq [0] horder .kLess 2048#64 .kSet
  exact ⟨start, c, bv, out, hnew, hset, hbv, hout,
    hbeyond hcodes (by decide) (by decide) 0 (by decide)⟩

/-- The tuple `5` of eight bits in a byte slice: the literal `256` is narrowed to `0`,
so that `5` is not less than it. -/
theorem scan_wraps_literal :
    ∃ start c bv out, Column.new .kByteSlicePadRight 8 1 = some start ∧
      start.setTuple 0 5#64 = some c ∧ c.tuple 0 = 5 ∧ BitVector.new 1 = some bv ∧
      c.scanIn [0] .kLess 256#64 bv .kSet = some out ∧ out.getBit 0 = some false := by
  have hkind : Column.blockKind .kByteSlicePadRight 8 =
      some (.byteSlice ⟨8, by omega, by omega⟩) := rfl
  obtain ⟨start, hnew, hstores⟩ := Column.exists_new hkind 1
  obtain ⟨c, hset, hc⟩ := hstores.exists_setTuple (show 0 < 1 by decide) 5#64
  obtain ⟨bv, hbv, hholds⟩ := BitVector.exists_new 1
  have horder := BitVector.isSchedule_singleton (show 0 < 1 by decide) (by decide)
  have hfive : c.tuple 0 = 5 := by
    rw [hc.tuple_eq 0 (by decide), Function.update_self]
    rfl
  obtain ⟨out, hout, hget⟩ := hc.exists_scanIn_bits hholds.laidOut hholds.num_eq horder .kLess
    256#64 .kSet
  refine ⟨start, c, bv, out, hnew, hset, hfive, hbv, hout, ?_⟩
  rw [hget 0 (by decide), Function.update_self]
  rfl

end ByteSlice
