import Mathlib
import ByteSlice.Foundation.Loop

/-!
# Bits laid out in words

A sequence of `w`-bit words stores a sequence of bits, the bit with the smaller
index at the less significant end.  The increasing list of set positions is the
common meaning of a population count (its length) and of an enumeration of the
set bits (the list itself); this module relates it to the words.
-/

namespace Foundation

/-- Bit `p` of a sequence of words. -/
def bitAt {w : Nat} (word : Nat → BitVec w) (p : Nat) : Bool :=
  (word (p / w)).getLsbD (p % w)

theorem bitAt_mul_add {w : Nat} (word : Nat → BitVec w) (k : Nat) {j : Nat} (hj : j < w) :
    bitAt word (w * k + j) = (word k).getLsbD j := by
  have hw : 0 < w := by omega
  unfold bitAt
  rw [Nat.mul_add_div hw, Nat.div_eq_of_lt hj, Nat.mul_add_mod, Nat.mod_eq_of_lt hj]
  simp

/-- The positions below `n` at which a bit function is set, in increasing
order. -/
def positions (bit : Nat → Bool) (n : Nat) : List Nat :=
  (List.range n).filter bit

@[simp] theorem positions_zero (bit : Nat → Bool) : positions bit 0 = [] := rfl

@[simp] theorem mem_positions {bit : Nat → Bool} {n p : Nat} :
    p ∈ positions bit n ↔ p < n ∧ bit p = true := by
  simp [positions]

theorem positions_pairwise_lt (bit : Nat → Bool) (n : Nat) :
    (positions bit n).Pairwise (· < ·) :=
  List.Pairwise.filter _ List.pairwise_lt_range

theorem positions_congr {bit bit' : Nat → Bool} {n : Nat}
    (h : ∀ p, p < n → bit p = bit' p) : positions bit n = positions bit' n := by
  apply List.filter_congr
  intro p hp
  exact h p (List.mem_range.mp hp)

/-- A range of positions splits at any point. -/
theorem positions_add (bit : Nat → Bool) (a b : Nat) :
    positions bit (a + b) =
      positions bit a ++ (positions (fun p => bit (a + p)) b).map (a + ·) := by
  unfold positions
  rw [List.range_add, List.filter_append, List.filter_map]
  rfl

/-- A clear tail contributes no position. -/
theorem positions_of_clear {bit : Nat → Bool} {n m : Nat} (hnm : n ≤ m)
    (hclear : ∀ p, n ≤ p → p < m → bit p = false) : positions bit m = positions bit n := by
  obtain ⟨d, rfl⟩ := Nat.exists_eq_add_of_le hnm
  rw [positions_add]
  have htail : positions (fun p => bit (n + p)) d = [] := by
    apply List.filter_eq_nil_iff.mpr
    intro p hp
    have hlt := List.mem_range.mp hp
    simp [hclear (n + p) (by omega) (by omega)]
  simp [htail]

/-- The set positions of one more word are those of the word, displaced. -/
theorem positions_bitAt_succ {w : Nat} (word : Nat → BitVec w) (m : Nat) :
    positions (bitAt word) (w * (m + 1)) =
      positions (bitAt word) (w * m) ++
        (positions (word m).getLsbD w).map (w * m + ·) := by
  rw [Nat.mul_succ, positions_add]
  congr 2
  exact positions_congr fun j hj => bitAt_mul_add word m hj

/-- The set positions from `start` on. -/
def positionsFrom (bit : Nat → Bool) (start n : Nat) : List Nat :=
  (positions (fun j => bit (start + j)) (n - start)).map (start + ·)

theorem positionsFrom_zero (bit : Nat → Bool) (n : Nat) :
    positionsFrom bit 0 n = positions bit n := by
  unfold positionsFrom
  simp

theorem positionsFrom_of_le (bit : Nat → Bool) {start n : Nat} (h : n ≤ start) :
    positionsFrom bit start n = [] := by
  unfold positionsFrom
  rw [Nat.sub_eq_zero_of_le h]
  rfl

/-- The next `w` positions come first.  Those past the end count as clear. -/
theorem positionsFrom_add (bit : Nat → Bool) (start w n : Nat) :
    positionsFrom bit start n =
      (positions (fun j => decide (start + j < n) && bit (start + j)) w).map (start + ·) ++
        positionsFrom bit (start + w) n := by
  rcases Nat.le_total (start + w) n with hle | hge
  · unfold positionsFrom
    rw [show n - start = w + (n - (start + w)) by omega, positions_add, List.map_append,
      List.map_map]
    congr 1
    · congr 1
      exact positions_congr fun j hj => by simp [show start + j < n by omega]
    · simp only [Nat.add_assoc]
      rfl
  · have hclear : positions (fun j => decide (start + j < n) && bit (start + j)) w =
        positions (fun j => decide (start + j < n) && bit (start + j)) (n - start) :=
      positions_of_clear (by omega) fun j hj _ => by simp [show ¬ start + j < n by omega]
    rw [positionsFrom_of_le bit hge, List.append_nil, hclear]
    unfold positionsFrom
    congr 1
    exact positions_congr fun j hj => by simp [show start + j < n by omega]

/-- The number of set positions below `n + 1` grows by the bit at `n`. -/
theorem length_positions_succ (bit : Nat → Bool) (n : Nat) :
    (positions bit (n + 1)).length = (positions bit n).length + (bit n).toNat := by
  unfold positions
  rw [List.range_succ, List.filter_append, List.length_append]
  cases hbit : bit n <;> simp [hbit]

/-- The population count of a word is the number of its set positions. -/
theorem toNat_cpop_eq {w : Nat} (x : BitVec w) :
    x.cpop.toNat = (positions x.getLsbD w).length := by
  have hrec : ∀ n acc, x.cpopNatRec n acc = (positions x.getLsbD n).length + acc := by
    intro n
    induction n with
    | zero =>
        intro acc
        simp
    | succ n ih =>
        intro acc
        rw [BitVec.cpopNatRec_succ, ih, length_positions_succ]
        omega
  have hle : (positions x.getLsbD w).length ≤ w := by
    simpa [positions] using List.length_filter_le x.getLsbD (List.range w)
  unfold BitVec.cpop
  rw [hrec, BitVec.toNat_ofNat, Nat.add_zero]
  exact Nat.mod_eq_of_lt (Nat.lt_of_le_of_lt hle Nat.lt_two_pow_self)

/-- Adding up the population counts of the first `m` words counts the set
positions among their bits. -/
theorem foldl_cpop_eq {w : Nat} (word : Nat → BitVec w) (m : Nat) :
    (List.range m).foldl (fun count k => count + (word k).cpop.toNat) 0 =
      (positions (bitAt word) (w * m)).length := by
  induction m with
  | zero => simp
  | succ m ih =>
      rw [List.range_succ, List.foldl_append, ih, positions_bitAt_succ]
      simp [toNat_cpop_eq]

/-! ## Assembling a word bit by bit -/

/-- A loop that ors in one bit per iteration builds the word with these bits. -/
theorem getLsbD_forLoop_or {w : Nat} (bit : Nat → Bool) {m : Nat} (hm : m ≤ w) (p : Nat) :
    (forLoop m 1 Nat.one_pos
      (fun i _ (word : BitVec w) => word ||| (if bit i then 1#w else 0#w) <<< i) 0
        0#w).getLsbD p = (decide (p < m) && bit p) := by
  obtain ⟨exit, hstop, hnear, _, _, hexit⟩ := forLoop_rule Nat.one_pos
    (fun i (_ : i < m) (word : BitVec w) => word ||| (if bit i then 1#w else 0#w) <<< i)
    (fun i word => ∀ p, word.getLsbD p = (decide (p < i) && bit p))
    (by
      intro i hi word hword p
      rw [BitVec.getLsbD_or, hword p, BitVec.getLsbD_shiftLeft]
      rcases Nat.lt_trichotomy p i with hlt | rfl | hgt
      · simp [hlt, Nat.lt_succ_of_lt hlt]
      · have hpw : p < w := by omega
        have hw : 0 < w := by omega
        cases hbit : bit p with
        | false => simp
        | true => simp [hpw, hw]
      · have hne : p - i ≠ 0 := by omega
        have hge : ¬p < i + 1 := by omega
        have hnot : ¬p < i := by omega
        cases hbit : bit i with
        | false => simp [hge, hnot]
        | true => simp [hge, hnot, BitVec.getLsbD_one, hne])
    0 0#w (fun p => by simp)
  have hexitEq : exit = m := by omega
  subst hexitEq
  exact hexit p

end Foundation
