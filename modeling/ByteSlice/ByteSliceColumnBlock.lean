import Mathlib
import ByteSlice.AvxUtility
import ByteSlice.Foundation.Digits

/-!
# `ByteSliceColumnBlock`: storage

A code of `w` bits is shifted left until it fills a whole number of bytes, and
its bytes go to separate slices, the most significant byte to slice `0`.  Bytes
are flipped in internal storage to preserve order.

`stored` is the number that the bytes of a position write, the padded code.
`PaddingClean` is the invariant on stored bytes that a scan needs: the padding
bits are zero.  It holds of every block reachable from the constructor, also at
positions that were never written, because the padding is shorter than a byte
and a zeroed byte reads as `0x80`.
-/

namespace ByteSlice

open Foundation

/-- `sizeof(ByteUnit)*CEIL(kNumTuplesPerBlock, kNumAvxBits/8)*(kNumAvxBits/8)` -/
def kMemSizePerByteSlice : Nat :=
  1 * ceil kNumTuplesPerBlock (kNumAvxBits / 8) * (kNumAvxBits / 8)

theorem kMemSizePerByteSlice_eq : kMemSizePerByteSlice = kNumTuplesPerBlock := by decide

namespace ByteSliceColumnBlock

def kNumBytesPerCode (w : BitWidth) : Nat := ceil w.bits 8

def kNumPaddingBits (w : BitWidth) : Nat := kNumBytesPerCode w * 8 - w.bits

/-- `(1ULL << BIT_WIDTH) - 1` -/
def kCodeMask (w : BitWidth) : WordUnit := (1#64 <<< w.bits) - 1#64

end ByteSliceColumnBlock

/-- The two template arguments are parameters of the type.  Only the first
`kNumBytesPerCode` slices are allocated; the others are never accessed. -/
structure ByteSliceColumnBlock (w : BitWidth) (dir : Direction) where
  numTuples : Nat
  data : Vector (Vector ByteUnit kMemSizePerByteSlice) 4

namespace ByteSliceColumnBlock

variable {w : BitWidth} {dir : Direction}

/-- The constructor: every allocated slice is zeroed. -/
def new (num : Nat) : ByteSliceColumnBlock w dir where
  numTuples := num
  data := Vector.replicate 4 (Vector.replicate kMemSizePerByteSlice 0#8)

def resize (num : Nat) (b : ByteSliceColumnBlock w dir) : ByteSliceColumnBlock w dir :=
  { b with numTuples := num }

/-- `data_[byte_id][pos]` -/
def byte (b : ByteSliceColumnBlock w dir) (byteId pos : Nat) : ByteUnit :=
  load (load b.data byteId) pos

/-- `data_[byte_id][pos] = value` -/
def setByte (b : ByteSliceColumnBlock w dir) (byteId pos : Nat) (value : ByteUnit) :
    ByteSliceColumnBlock w dir :=
  { b with data := store b.data byteId (store (load b.data byteId) pos value) }

def getTuple (b : ByteSliceColumnBlock w dir) (pos : Nat) : WordUnit :=
  let ret : WordUnit :=
    match kNumBytesPerCode w with
    | 4 =>
        (flip (b.byte 0 pos)).setWidth 64 <<< 24 ||| (flip (b.byte 1 pos)).setWidth 64 <<< 16 |||
          (flip (b.byte 2 pos)).setWidth 64 <<< 8 ||| (flip (b.byte 3 pos)).setWidth 64
    | 3 =>
        (flip (b.byte 0 pos)).setWidth 64 <<< 16 ||| (flip (b.byte 1 pos)).setWidth 64 <<< 8 |||
          (flip (b.byte 2 pos)).setWidth 64
    | 2 => (flip (b.byte 0 pos)).setWidth 64 <<< 8 ||| (flip (b.byte 1 pos)).setWidth 64
    | 1 => (flip (b.byte 0 pos)).setWidth 64
    | _ => 0#64
  match dir with
  | .kRight => ret >>> kNumPaddingBits w
  | .kLeft => ret

def setTuple (b : ByteSliceColumnBlock w dir) (pos : Nat) (value : WordUnit) :
    ByteSliceColumnBlock w dir :=
  let value : WordUnit :=
    match dir with
    | .kRight => value <<< kNumPaddingBits w
    | .kLeft => value
  match kNumBytesPerCode w with
  | 4 =>
      (((b.setByte 0 pos (flip ((value >>> 24).setWidth 8))).setByte 1 pos
        (flip ((value >>> 16).setWidth 8))).setByte 2 pos
          (flip ((value >>> 8).setWidth 8))).setByte 3 pos (flip (value.setWidth 8))
  | 3 =>
      ((b.setByte 0 pos (flip ((value >>> 16).setWidth 8))).setByte 1 pos
        (flip ((value >>> 8).setWidth 8))).setByte 2 pos (flip (value.setWidth 8))
  | 2 =>
      (b.setByte 0 pos (flip ((value >>> 8).setWidth 8))).setByte 1 pos
        (flip (value.setWidth 8))
  | 1 => b.setByte 0 pos (flip (value.setWidth 8))
  | _ => b

/-- `codes` is the pointer to the first code. -/
def bulkLoadArray (codes : Nat → WordUnit) (num startPos : Nat)
    (b : ByteSliceColumnBlock w dir) : ByteSliceColumnBlock w dir :=
  forLoop num 1 Nat.one_pos (fun i _ b => b.setTuple (startPos + i) (codes i)) 0 b

/-! ## The template constants -/

theorem kNumBytesPerCode_eq (w : BitWidth) : kNumBytesPerCode w = (w.bits + 7) / 8 := by
  unfold kNumBytesPerCode
  rw [ceil_eq_ceilDiv w.pos (by omega), Nat.ceilDiv_eq_add_pred_div]
  omega

theorem kNumBytesPerCode_pos (w : BitWidth) : 0 < kNumBytesPerCode w := by
  have hpos := w.pos
  rw [kNumBytesPerCode_eq]
  omega

theorem kNumBytesPerCode_le (w : BitWidth) : kNumBytesPerCode w ≤ 4 := by
  have hle := w.le
  rw [kNumBytesPerCode_eq]
  omega

/-- The four cases of the switches. -/
theorem kNumBytesPerCode_cases (w : BitWidth) :
    kNumBytesPerCode w = 1 ∨ kNumBytesPerCode w = 2 ∨ kNumBytesPerCode w = 3 ∨
      kNumBytesPerCode w = 4 := by
  have hpos := kNumBytesPerCode_pos w
  have hle := kNumBytesPerCode_le w
  omega

theorem bits_add_kNumPaddingBits (w : BitWidth) :
    w.bits + kNumPaddingBits w = 8 * kNumBytesPerCode w := by
  unfold kNumPaddingBits
  rw [kNumBytesPerCode_eq]
  omega

theorem kNumPaddingBits_le (w : BitWidth) : kNumPaddingBits w ≤ 7 := by
  unfold kNumPaddingBits
  rw [kNumBytesPerCode_eq]
  omega

theorem toNat_and_kCodeMask (w : BitWidth) (x : WordUnit) :
    (x &&& kCodeMask w).toNat = x.toNat % 2 ^ w.bits := by
  have hle := w.le
  have hpow : 2 ^ w.bits < 2 ^ 64 := Nat.pow_lt_pow_right (by omega) (by omega)
  have hone : (1#64 <<< w.bits).toNat = 2 ^ w.bits := by
    rw [← BitVec.twoPow_eq, BitVec.toNat_twoPow, Nat.mod_eq_of_lt hpow]
  have hmask : (kCodeMask w).toNat = 2 ^ w.bits - 1 := by
    unfold kCodeMask
    rw [BitVec.toNat_sub_of_le, hone]
    · rfl
    · rw [BitVec.le_def, hone]
      exact Nat.one_le_two_pow
  rw [BitVec.toNat_and, hmask, Nat.and_two_pow_sub_one_eq_mod]

/-! ## Bytes, digits and the stored number -/

theorem byte_setByte (b : ByteSliceColumnBlock w dir) (i q : Nat) (value : ByteUnit) {j p : Nat}
    (hj : j < 4) (hp : p < kNumTuplesPerBlock) :
    (b.setByte i q value).byte j p = if i = j ∧ q = p then value else b.byte j p := by
  rw [← kMemSizePerByteSlice_eq] at hp
  unfold setByte byte
  rw [load_store _ _ _ hj]
  by_cases hij : i = j
  · subst hij
    rw [if_pos rfl, load_store _ _ _ hp]
    simp
  · rw [if_neg hij, if_neg (fun h => hij h.1)]

/-- The byte of a slice, unflipped. -/
def digit (b : ByteSliceColumnBlock w dir) (pos byteId : Nat) : Nat :=
  (flip (b.byte byteId pos)).toNat

/-- The number that the slices hold at a position. -/
def stored (b : ByteSliceColumnBlock w dir) (pos : Nat) : Nat :=
  prefixValue 256 (b.digit pos) (kNumBytesPerCode w)

theorem digit_lt (b : ByteSliceColumnBlock w dir) (pos byteId : Nat) :
    b.digit pos byteId < 256 :=
  (flip (b.byte byteId pos)).isLt

theorem toNat_byte_shiftLeft (x : ByteUnit) {k : Nat} (hk : k ≤ 56) :
    (x.setWidth 64 <<< k).toNat = x.toNat * 2 ^ k := by
  have hx := x.isLt
  have hpow : x.toNat * 2 ^ k < 2 ^ 64 := by
    calc
      x.toNat * 2 ^ k < 2 ^ 8 * 2 ^ k := Nat.mul_lt_mul_of_pos_right hx (Nat.two_pow_pos k)
      _ = 2 ^ (8 + k) := (pow_add 2 8 k).symm
      _ ≤ 2 ^ 64 := Nat.pow_le_pow_right (by omega) (by omega)
  rw [BitVec.toNat_shiftLeft, BitVec.toNat_setWidth, Nat.shiftLeft_eq,
    Nat.mod_eq_of_lt (a := x.toNat) (by omega), Nat.mod_eq_of_lt hpow]

/-- Putting one more byte below the bytes already assembled. -/
theorem toNat_or_byte {acc : WordUnit} {value k : Nat} (hacc : acc.toNat = value * 2 ^ (k + 8))
    (x : ByteUnit) (hk : k ≤ 56) :
    (acc ||| x.setWidth 64 <<< k).toNat = (value * 256 + x.toNat) * 2 ^ k := by
  have hlow : x.toNat * 2 ^ k < 2 ^ (k + 8) := by
    rw [pow_add, Nat.mul_comm]
    exact Nat.mul_lt_mul_of_pos_left x.isLt (Nat.two_pow_pos k)
  rw [BitVec.toNat_or, hacc, toNat_byte_shiftLeft x hk, Nat.mul_comm value,
    ← Nat.two_pow_add_eq_or_of_lt hlow]
  ring

/-- `GetTuple` undoes the padding of the stored number. -/
theorem toNat_getTuple (b : ByteSliceColumnBlock w .kRight) (pos : Nat) :
    (b.getTuple pos).toNat = b.stored pos / 2 ^ kNumPaddingBits w := by
  let x : Nat → ByteUnit := fun j => flip (b.byte j pos)
  have hshift0 : ∀ j, (x j).setWidth 64 = (x j).setWidth 64 <<< 0 := fun j => by simp
  unfold getTuple stored
  rw [BitVec.toNat_ushiftRight, Nat.shiftRight_eq_div_pow]
  congr 1
  -- one case of the switch for each number of slices, assembled byte by byte
  rcases kNumBytesPerCode_cases w with h | h | h | h
  · simp only [h, prefixValue, Nat.zero_mul, Nat.zero_add]
    exact BitVec.toNat_setWidth_of_le (by omega)
  · have h0 := toNat_byte_shiftLeft (x 0) (k := 8) (by omega)
    have h1 := toNat_or_byte (k := 0) h0 (x 1) (by omega)
    rw [← hshift0, pow_zero, Nat.mul_one] at h1
    simp only [h, prefixValue, Nat.zero_mul, Nat.zero_add]
    exact h1
  · have h0 := toNat_byte_shiftLeft (x 0) (k := 16) (by omega)
    have h1 := toNat_or_byte (k := 8) h0 (x 1) (by omega)
    have h2 := toNat_or_byte (k := 0) h1 (x 2) (by omega)
    rw [← hshift0, pow_zero, Nat.mul_one] at h2
    simp only [h, prefixValue, Nat.zero_mul, Nat.zero_add]
    exact h2
  · have h0 := toNat_byte_shiftLeft (x 0) (k := 24) (by omega)
    have h1 := toNat_or_byte (k := 16) h0 (x 1) (by omega)
    have h2 := toNat_or_byte (k := 8) h1 (x 2) (by omega)
    have h3 := toNat_or_byte (k := 0) h2 (x 3) (by omega)
    rw [← hshift0, pow_zero, Nat.mul_one] at h3
    simp only [h, prefixValue, Nat.zero_mul, Nat.zero_add]
    exact h3

/-! ## Writing -/

/-- The value that `SetTuple` splits into bytes. -/
theorem toNat_padded (w : BitWidth) (value : WordUnit) :
    (value <<< kNumPaddingBits w).toNat % 256 ^ kNumBytesPerCode w =
      value.toNat % 2 ^ w.bits * 2 ^ kNumPaddingBits w := by
  have hle := kNumBytesPerCode_le w
  have h256 : 256 ^ kNumBytesPerCode w = 2 ^ (8 * kNumBytesPerCode w) := by
    rw [pow_mul]
    rfl
  have hdvd : 2 ^ (8 * kNumBytesPerCode w) ∣ 2 ^ 64 := Nat.pow_dvd_pow 2 (by omega)
  rw [BitVec.toNat_shiftLeft, Nat.shiftLeft_eq, h256, Nat.mod_mod_of_dvd _ hdvd,
    ← bits_add_kNumPaddingBits, pow_add, Nat.mul_mod_mul_right]

/-- What `SetTuple` leaves in the slices: at its position the bytes of the
padded value, elsewhere the old bytes. -/
theorem digit_setTuple (b : ByteSliceColumnBlock w .kRight) (q : Nat) (value : WordUnit)
    {p j : Nat} (hp : p < kNumTuplesPerBlock) (hj : j < kNumBytesPerCode w) :
    (b.setTuple q value).digit p j =
      if q = p then
        (value <<< kNumPaddingBits w).toNat / 256 ^ (kNumBytesPerCode w - 1 - j) % 256
      else b.digit p j := by
  unfold digit setTuple
  generalize value <<< kNumPaddingBits w = padded
  have hbyte : ∀ k, (flip (flip ((padded >>> (8 * k)).setWidth 8))).toNat =
      padded.toNat / 256 ^ k % 256 := by
    intro k
    rw [flip_flip, BitVec.toNat_setWidth, BitVec.toNat_ushiftRight, Nat.shiftRight_eq_div_pow,
      pow_mul]
    rfl
  have h0 : (flip (flip (padded.setWidth 8))).toNat = padded.toNat / 256 ^ 0 % 256 := by
    simpa using hbyte 0
  have h1 : (flip (flip ((padded >>> 8).setWidth 8))).toNat =
    padded.toNat / 256 ^ 1 % 256 := hbyte 1
  have h2 : (flip (flip ((padded >>> 16).setWidth 8))).toNat =
    padded.toNat / 256 ^ 2 % 256 := hbyte 2
  have h3 : (flip (flip ((padded >>> 24).setWidth 8))).toNat =
    padded.toNat / 256 ^ 3 % 256 := hbyte 3
  -- the four cases of the switch, and in each the slices it writes
  by_cases hqp : q = p
  · rcases kNumBytesPerCode_cases w with h | h | h | h <;> rw [h] at hj <;>
      interval_cases j <;> simp [h, byte_setByte, hp, hqp, h0, h1, h2, h3]
  · rcases kNumBytesPerCode_cases w with h | h | h | h <;> rw [h] at hj <;>
      interval_cases j <;> simp [h, byte_setByte, hp, hqp]

/-- `SetTuple` stores the code, reduced to the width, above zero padding. -/
theorem stored_setTuple (b : ByteSliceColumnBlock w .kRight) (q : Nat) (value : WordUnit)
    {p : Nat} (hp : p < kNumTuplesPerBlock) :
    (b.setTuple q value).stored p =
      if q = p then value.toNat % 2 ^ w.bits * 2 ^ kNumPaddingBits w else b.stored p := by
  unfold stored
  by_cases hqp : q = p
  · rw [if_pos hqp, ← toNat_padded,
      prefixValue_congr fun j hj => (digit_setTuple b q value hp hj).trans (if_pos hqp),
      prefixValue_digits 256 _ _ _ (Nat.le_refl _), Nat.sub_self, pow_zero, Nat.div_one]
  · rw [if_neg hqp]
    exact prefixValue_congr fun j hj => (digit_setTuple b q value hp hj).trans (if_neg hqp)

/-- The slices as an array of stored numbers. -/
def storedSlots (w : BitWidth) : Slots (ByteSliceColumnBlock w .kRight) WordUnit Nat where
  size := kNumTuplesPerBlock
  read := stored
  write := setTuple
  encode value := value.toNat % 2 ^ w.bits * 2 ^ kNumPaddingBits w
  read_write b q value _ hp := stored_setTuple b q value hp

theorem stored_bulkLoadArray (codes : Nat → WordUnit) (num startPos : Nat)
    (b : ByteSliceColumnBlock w .kRight) {p : Nat} (hp : p < kNumTuplesPerBlock) :
    (b.bulkLoadArray codes num startPos).stored p =
      if startPos ≤ p ∧ p < startPos + num then
        (codes (p - startPos)).toNat % 2 ^ w.bits * 2 ^ kNumPaddingBits w
      else b.stored p :=
  (storedSlots w).read_forLoop_write codes num startPos b hp

@[simp] theorem numTuples_setTuple (b : ByteSliceColumnBlock w dir) (q : Nat)
    (value : WordUnit) : (b.setTuple q value).numTuples = b.numTuples := by
  unfold setTuple
  rcases kNumBytesPerCode_cases w with h | h | h | h <;> simp [h, setByte]

@[simp] theorem numTuples_bulkLoadArray (codes : Nat → WordUnit) (num startPos : Nat)
    (b : ByteSliceColumnBlock w dir) :
    (b.bulkLoadArray codes num startPos).numTuples = b.numTuples := by
  obtain ⟨_, _, _, _, _, h⟩ := forLoop_rule Nat.one_pos
    (fun i (_ : i < num) (b : ByteSliceColumnBlock w dir) =>
      b.setTuple (startPos + i) (codes i))
    (fun _ s => s.numTuples = b.numTuples)
    (fun _ _ _ hs => by rw [numTuples_setTuple, hs]) 0 b rfl
  exact h

/-! ## The padding invariant -/

/-- The padding bits of every position are zero, written or not. -/
def PaddingClean (b : ByteSliceColumnBlock w .kRight) : Prop :=
  ∀ p, p < kNumTuplesPerBlock → 2 ^ kNumPaddingBits w ∣ b.stored p

/-- Fresh memory reads as `0x80` in every byte. -/
theorem digit_new (w : BitWidth) (num : Nat) {p j : Nat} (hp : p < kNumTuplesPerBlock)
    (hj : j < 4) : (new num : ByteSliceColumnBlock w dir).digit p j = 2 ^ 7 := by
  rw [← kMemSizePerByteSlice_eq] at hp
  unfold digit byte new
  rw [load_replicate _ hj, load_replicate _ hp]
  rfl

/-- The padding is shorter than a byte. -/
theorem paddingClean_new (w : BitWidth) (num : Nat) :
    (new num : ByteSliceColumnBlock w .kRight).PaddingClean := by
  intro p hp
  have hdvd : 2 ^ kNumPaddingBits w ∣ 2 ^ 7 := Nat.pow_dvd_pow 2 (kNumPaddingBits_le w)
  obtain ⟨n, hn⟩ : ∃ n, kNumBytesPerCode w = n + 1 :=
    Nat.exists_eq_succ_of_ne_zero (kNumBytesPerCode_pos w).ne'
  have hn4 : n < 4 := by
    have hle := kNumBytesPerCode_le w
    omega
  unfold stored
  rw [hn]
  refine dvd_prefixValue_succ (hdvd.trans (by decide)) ?_
  rw [digit_new w num hp hn4]
  exact hdvd

/-- What a tuple of fresh memory reads as. -/
def blank (w : BitWidth) : Nat :=
  prefixValue 256 (fun _ => 2 ^ 7) (kNumBytesPerCode w) / 2 ^ kNumPaddingBits w

theorem toNat_getTuple_new (w : BitWidth) (num : Nat) {p : Nat} (hp : p < kNumTuplesPerBlock) :
    ((new num : ByteSliceColumnBlock w .kRight).getTuple p).toNat = blank w := by
  have hle := kNumBytesPerCode_le w
  rw [toNat_getTuple]
  unfold blank stored
  rw [prefixValue_congr fun j hj => digit_new w num hp (by omega)]

theorem PaddingClean.setTuple {b : ByteSliceColumnBlock w .kRight} (h : b.PaddingClean)
    (q : Nat) (value : WordUnit) : (b.setTuple q value).PaddingClean := by
  intro p hp
  rw [stored_setTuple b q value hp]
  split
  · exact Dvd.intro_left _ rfl
  · exact h p hp

theorem PaddingClean.bulkLoadArray {b : ByteSliceColumnBlock w .kRight} (h : b.PaddingClean)
    (codes : Nat → WordUnit) (num startPos : Nat) :
    (b.bulkLoadArray codes num startPos).PaddingClean := by
  intro p hp
  rw [stored_bulkLoadArray codes num startPos b hp]
  split
  · exact Dvd.intro_left _ rfl
  · exact h p hp

theorem PaddingClean.resize {b : ByteSliceColumnBlock w .kRight} (h : b.PaddingClean)
    (num : Nat) : (b.resize num).PaddingClean := h

/-- With clean padding the stored number is the tuple, padded. -/
theorem PaddingClean.stored_eq {b : ByteSliceColumnBlock w .kRight} (h : b.PaddingClean)
    {p : Nat} (hp : p < kNumTuplesPerBlock) :
    b.stored p = (b.getTuple p).toNat * 2 ^ kNumPaddingBits w := by
  rw [toNat_getTuple, Nat.div_mul_cancel (h p hp)]

/-- `GetTuple` returns a code of the block's width. -/
theorem toNat_getTuple_lt (b : ByteSliceColumnBlock w .kRight) (pos : Nat) :
    (b.getTuple pos).toNat < 2 ^ w.bits := by
  have hlt : b.stored pos < 256 ^ kNumBytesPerCode w := prefixValue_lt_pow (b.digit_lt pos) _
  have h256 : 256 ^ kNumBytesPerCode w = 2 ^ w.bits * 2 ^ kNumPaddingBits w := by
    rw [← pow_add, bits_add_kNumPaddingBits, pow_mul]
    rfl
  rw [toNat_getTuple]
  exact Nat.div_lt_of_lt_mul (by rw [Nat.mul_comm, ← h256]; exact hlt)

/-- Reading back a written code. -/
theorem toNat_getTuple_setTuple (b : ByteSliceColumnBlock w .kRight) (q : Nat)
    (value : WordUnit) {p : Nat} (hp : p < kNumTuplesPerBlock) :
    ((b.setTuple q value).getTuple p).toNat =
      if q = p then value.toNat % 2 ^ w.bits else (b.getTuple p).toNat := by
  rw [toNat_getTuple, toNat_getTuple, stored_setTuple b q value hp]
  split
  · exact Nat.mul_div_cancel _ (Nat.two_pow_pos _)
  · rfl

/-- The blocks that the constructor, single and bulk writes and `Resize` within
the allocated memory can produce. -/
inductive Reachable : ByteSliceColumnBlock w .kRight → Prop
  | new (num : Nat) (hnum : num ≤ kNumTuplesPerBlock) : Reachable (new num)
  | setTuple (b : ByteSliceColumnBlock w .kRight) (pos : Nat) (value : WordUnit)
      (hpos : pos < kNumTuplesPerBlock) : Reachable b → Reachable (b.setTuple pos value)
  | bulkLoadArray (b : ByteSliceColumnBlock w .kRight) (codes : Nat → WordUnit)
      (num startPos : Nat) (hrange : startPos + num ≤ kNumTuplesPerBlock) :
      Reachable b → Reachable (b.bulkLoadArray codes num startPos)
  | resize (b : ByteSliceColumnBlock w .kRight) (num : Nat)
      (hnum : num ≤ kNumTuplesPerBlock) : Reachable b → Reachable (b.resize num)

theorem Reachable.paddingClean {b : ByteSliceColumnBlock w .kRight} (h : Reachable b) :
    b.PaddingClean := by
  induction h with
  | new num _ => exact paddingClean_new w num
  | setTuple b pos value _ _ ih => exact ih.setTuple pos value
  | bulkLoadArray b codes num startPos _ _ ih => exact ih.bulkLoadArray codes num startPos
  | resize b num _ _ ih => exact ih.resize num

end ByteSliceColumnBlock

end ByteSlice
