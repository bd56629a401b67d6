import Mathlib
import ByteSlice.Foundation.BitWords

/-!
# Sweeping a bit sequence that changes under way

A reader goes over a bit sequence word by word and hands out the set positions of
each word it has read, one in each round, before it reads the next word that is not
zero.  Between the rounds the sequence may change; `bits k` is its content in round
`k`.  `Sweep` relates the round and the word from which the reader goes on to what it
hands out.

Nothing is assumed about the changes.  The result is therefore no content that the
sequence ever had, but every word is seen as it was in one definite round.
-/

namespace Foundation

/-- The set positions from `start` on are those at or after `start`. -/
theorem mem_positionsFrom {bit : Nat → Bool} {start n p : Nat} :
    p ∈ positionsFrom bit start n ↔ start ≤ p ∧ p < n ∧ bit p = true := by
  unfold positionsFrom
  rw [List.mem_map]
  constructor
  · rintro ⟨j, hj, rfl⟩
    obtain ⟨hlt, hbit⟩ := mem_positions.mp hj
    exact ⟨Nat.le_add_right _ _, by omega, hbit⟩
  · rintro ⟨hstart, hlt, hbit⟩
    refine ⟨p - start, mem_positions.mpr ⟨by omega, ?_⟩, by omega⟩
    rw [Nat.add_sub_of_le hstart]
    exact hbit

theorem positionsFrom_pairwise_lt (bit : Nat → Bool) (start n : Nat) :
    (positionsFrom bit start n).Pairwise (· < ·) := by
  unfold positionsFrom
  exact (positions_pairwise_lt _ _).map _ fun _ _ hlt => Nat.add_lt_add_left hlt start

theorem positionsFrom_congr {bit bit' : Nat → Bool} {start n : Nat}
    (h : ∀ p, start ≤ p → p < n → bit p = bit' p) :
    positionsFrom bit start n = positionsFrom bit' start n := by
  unfold positionsFrom
  rw [positions_congr fun j hj => h (start + j) (Nat.le_add_right _ _) (by omega)]

section

variable (w n : Nat) (bits : Nat → Nat → Bool)

/-- What a reader at the given round and word still hands out.  It either finds no set
position, or hands out those of the first word that has one. -/
inductive Sweep : Nat → Nat → List Nat → Prop
  | done {round word : Nat} (hnone : positionsFrom (bits round) (w * word) n = []) :
      Sweep round word []
  | refill {round word next : Nat} {chunk rest : List Nat} (hchunk : chunk ≠ [])
      (hword : ∀ p ∈ chunk, p / w = next)
      (hsplit : positionsFrom (bits round) (w * word) n =
        chunk ++ positionsFrom (bits round) (w * (next + 1)) n)
      (hrest : Sweep (round + chunk.length) (next + 1) rest) :
      Sweep round word (chunk ++ rest)

end

namespace Sweep

variable {w n : Nat} {bits : Nat → Nat → Bool} {round word : Nat} {visited : List Nat}

/-- Nothing before the reader's word is handed out. -/
theorem le_of_mem (h : Sweep w n bits round word visited) :
    ∀ p ∈ visited, w * word ≤ p := by
  induction h with
  | done => exact fun _ hp => absurd hp List.not_mem_nil
  | @refill round word next chunk rest hchunk hword hsplit hrest ih =>
      have hfirst : ∀ p ∈ chunk, w * word ≤ p := fun p hp =>
        (mem_positionsFrom.mp (hsplit ▸ List.mem_append_left _ hp)).1
      intro p hp
      rcases List.mem_append.mp hp with hp | hp
      · exact hfirst p hp
      · -- the words go up, since the first chunk is not empty
        obtain ⟨q, hq⟩ := List.exists_mem_of_ne_nil chunk hchunk
        have hle := hfirst q hq
        have hnext := hword q hq
        have hlast : w * word ≤ w * (next + 1) := by
          rcases Nat.eq_zero_or_pos w with rfl | hw
          · simp
          · refine hle.trans (Nat.le_of_lt ?_)
            rw [← hnext]
            exact Nat.lt_mul_div_succ q hw
        exact hlast.trans (ih p hp)

/-- The positions handed out increase. -/
theorem pairwise_lt (hw : 0 < w) (h : Sweep w n bits round word visited) :
    visited.Pairwise (· < ·) := by
  induction h with
  | done => exact List.Pairwise.nil
  | @refill round word next chunk rest hchunk hword hsplit hrest ih =>
      refine List.pairwise_append.mpr ⟨?_, ih, fun p hp q hq => ?_⟩
      · have hall := positionsFrom_pairwise_lt (bits round) (w * word) n
        rw [hsplit] at hall
        exact (List.pairwise_append.mp hall).1
      · have hlt := Nat.lt_mul_div_succ p hw
        rw [hword p hp] at hlt
        exact hlt.trans_le (hrest.le_of_mem q hq)

/-- **Every word is seen in one round.**  A position is handed out if and only if it is
set in the round that follows the last position handed out of an earlier word. -/
theorem mem_iff (hw : 0 < w) (h : Sweep w n bits round word visited) (pos : Nat) :
    pos ∈ visited ↔ w * word ≤ pos ∧ pos < n ∧
      bits (round + visited.countP (· / w < pos / w)) pos = true := by
  induction h with
  | @done round word hnone =>
      rw [← mem_positionsFrom, List.countP_nil, Nat.add_zero, hnone]
  | @refill round word next chunk rest hchunk hword hsplit hrest ih =>
      have hmem : pos ∈ positionsFrom (bits round) (w * word) n ↔
          pos ∈ chunk ∨ pos ∈ positionsFrom (bits round) (w * (next + 1)) n := by
        rw [hsplit, List.mem_append]
      rw [List.mem_append, List.countP_append]
      by_cases hpos : next < pos / w
      · -- past the chunk: every position of it is in an earlier word
        have hle : w * (next + 1) ≤ pos := by
          rw [Nat.mul_comm]
          exact (Nat.le_div_iff_mul_le hw).mp hpos
        have hchunk' : pos ∉ chunk := fun hin => by
          rw [hword pos hin] at hpos
          exact absurd hpos (Nat.lt_irrefl _)
        have hcount : chunk.countP (· / w < pos / w) = chunk.length := by
          rw [List.countP_eq_length]
          intro p hp
          rw [hword p hp]
          exact decide_eq_true hpos
        have hfrom : w * word ≤ pos := by
          obtain ⟨q, hq⟩ := List.exists_mem_of_ne_nil chunk hchunk
          have hq' := (mem_positionsFrom.mp (hsplit ▸ List.mem_append_left _ hq)).1
          have hlt := Nat.lt_mul_div_succ q hw
          rw [hword q hq] at hlt
          omega
        rw [hcount, ← Nat.add_assoc, or_iff_right hchunk', ih]
        simp only [hle, hfrom, true_and]
      · -- in the chunk's word or before it: nothing handed out is in an earlier word
        have hlt : pos < w * (next + 1) := by
          rw [Nat.mul_comm]
          exact (Nat.div_lt_iff_lt_mul hw).mp (by omega)
        have hrest' : pos ∉ rest := fun hin => by
          have := hrest.le_of_mem pos hin
          omega
        have hlater : pos ∉ positionsFrom (bits round) (w * (next + 1)) n := fun hin => by
          have := (mem_positionsFrom.mp hin).1
          omega
        have hcount : chunk.countP (· / w < pos / w) = 0 := by
          rw [List.countP_eq_zero]
          intro p hp
          rw [hword p hp, decide_eq_true_eq]
          exact hpos
        have hcount' : rest.countP (· / w < pos / w) = 0 := by
          rw [List.countP_eq_zero]
          intro p hp
          rw [decide_eq_true_eq]
          have hle : next + 1 ≤ p / w := by
            rw [Nat.le_div_iff_mul_le hw, Nat.mul_comm]
            exact hrest.le_of_mem p hp
          omega
        rw [hcount, hcount', or_iff_left hrest', Nat.add_zero, ← mem_positionsFrom, hmem,
          or_iff_left hlater]

/-- Changes behind the reader are not noticed: when each change is in the word of the
position handed out last or before it, the sweep sees the sequence as it was. -/
theorem eq_positionsFrom (hw : 0 < w) (h : Sweep w n bits round word visited)
    (hbehind : ∀ i pos, visited[i]? = some pos → ∀ p, p < n → pos / w < p / w →
      bits (round + (i + 1)) p = bits (round + i) p) :
    visited = positionsFrom (bits round) (w * word) n := by
  induction h with
  | done hnone => exact hnone.symm
  | @refill round word next chunk rest hchunk hword hsplit hrest ih =>
      rw [hsplit]
      congr 1
      -- while the chunk is handed out, the words after it stay as they are
      have hkept : ∀ i, i ≤ chunk.length → ∀ p, p < n → next < p / w →
          bits (round + i) p = bits round p := by
        intro i
        induction i with
        | zero => exact fun _ _ _ _ => rfl
        | succ i ihi =>
            intro hi p hpn hp
            have hget : (chunk ++ rest)[i]? = some chunk[i] := by
              rw [List.getElem?_append_left hi, List.getElem?_eq_getElem hi]
            rw [hbehind i _ hget p hpn (by rw [hword _ (List.getElem_mem hi)]; exact hp)]
            exact ihi (by omega) p hpn hp
      rw [ih fun i pos hget p hpn hp => ?_]
      · refine positionsFrom_congr fun p hp hpn => hkept _ (Nat.le_refl _) p hpn ?_
        rw [Nat.mul_comm] at hp
        exact (Nat.le_div_iff_mul_le hw).mpr hp
      · have hget' : (chunk ++ rest)[chunk.length + i]? = some pos := by
          rw [List.getElem?_append_right (Nat.le_add_right _ _), Nat.add_sub_cancel_left]
          exact hget
        rw [Nat.add_assoc, Nat.add_assoc]
        exact hbehind _ pos hget' p hpn hp

end Sweep

end Foundation
