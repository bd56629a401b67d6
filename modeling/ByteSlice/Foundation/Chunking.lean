import Mathlib
import ByteSlice.Foundation.BitWords
import ByteSlice.Foundation.Loop

/-!
# Cutting a sequence into chunks

A sequence of `n` items is stored in chunks of `c` items, the last of which may
be shorter.  `chunkCount` and `chunkSize` are the number of chunks and the size
of each; an index `id` lives in chunk `id / c` at position `id % c`.

The module also describes the loop that creates the chunks, and splits the
increasing list of set positions of a bit sequence along the chunks.
-/

namespace Foundation

universe u

variable {c n : Nat}

/-- The number of chunks needed for `n` items. -/
def chunkCount (c n : Nat) : Nat := n ⌈/⌉ c

/-- The number of items in chunk `i`. -/
def chunkSize (c n i : Nat) : Nat := min c (n - i * c)

theorem lt_chunkCount_iff (hc : 0 < c) {i : Nat} : i < chunkCount c n ↔ i * c < n := by
  unfold chunkCount
  rw [← not_le, ceilDiv_le_iff_le_mul hc, not_le, Nat.mul_comm]

theorem chunkSize_le (c n i : Nat) : chunkSize c n i ≤ c := Nat.min_le_left _ _

@[simp] theorem chunkCount_zero (c : Nat) : chunkCount c 0 = 0 := by
  simp [chunkCount]

theorem chunkCount_pos (hc : 0 < c) (hn : 0 < n) : 0 < chunkCount c n :=
  (lt_chunkCount_iff hc).mpr (by omega)

/-- The chunks hold all items. -/
theorem le_chunkCount_mul (hc : 0 < c) : n ≤ chunkCount c n * c := by
  rw [← not_lt, ← lt_chunkCount_iff hc]
  exact Nat.lt_irrefl _

/-- The number of chunks, from bounds on the number of items. -/
theorem chunkCount_eq_succ (hc : 0 < c) {i : Nat} (hlow : i * c < n) (hhigh : n ≤ (i + 1) * c) :
    chunkCount c n = i + 1 := by
  have hsome := (lt_chunkCount_iff hc).mpr hlow
  have hnone : ¬ i + 1 < chunkCount c n := by
    rw [lt_chunkCount_iff hc]
    omega
  omega

/-- A number of chunks that reaches the end, and by less than a chunk too far. -/
theorem eq_chunkCount (hc : 0 < c) {len : Nat} (hreach : n ≤ len * c)
    (hnear : len = 0 ∨ len * c < n + c) : len = chunkCount c n := by
  cases len with
  | zero =>
      obtain rfl : n = 0 := by omega
      rw [chunkCount_zero]
  | succ i =>
      have hlow : i * c < n := by
        rw [Nat.succ_mul] at hnear
        omega
      exact (chunkCount_eq_succ hc hlow hreach).symm

theorem chunkCount_mono (hc : 0 < c) {m : Nat} (hmn : m ≤ n) :
    chunkCount c m ≤ chunkCount c n := by
  by_contra hlt
  have hlow := (lt_chunkCount_iff hc).mp (Nat.lt_of_not_le hlt)
  exact absurd ((lt_chunkCount_iff hc).mpr (hlow.trans_le hmn)) (Nat.lt_irrefl _)

/-- The chunk of an index exists, and its position lies inside it. -/
theorem div_lt_chunkCount (hc : 0 < c) {id : Nat} (hid : id < n) : id / c < chunkCount c n := by
  rw [lt_chunkCount_iff hc]
  have := Nat.div_mul_le_self id c
  omega

theorem mod_lt_chunkSize (hc : 0 < c) {id : Nat} (hid : id < n) :
    id % c < chunkSize c n (id / c) := by
  have hsplit := Nat.div_add_mod id c
  have hmod := Nat.mod_lt id hc
  rw [Nat.mul_comm] at hsplit
  unfold chunkSize
  omega

/-- Conversely every position of a chunk is an index of the sequence. -/
theorem mul_add_lt_of_lt_chunkSize {i p : Nat} (hp : p < chunkSize c n i) : i * c + p < n := by
  unfold chunkSize at hp
  omega

theorem lt_chunkSize_iff {i p : Nat} (hp : p < c) : p < chunkSize c n i ↔ i * c + p < n := by
  unfold chunkSize
  omega

theorem mul_add_div_of_lt {i p : Nat} (hp : p < c) : (i * c + p) / c = i := by
  have hc : 0 < c := by omega
  rw [Nat.mul_comm, Nat.mul_add_div hc, Nat.div_eq_of_lt hp, Nat.add_zero]

theorem mul_add_mod_of_lt {i p : Nat} (hp : p < c) : (i * c + p) % c = p := by
  rw [Nat.mul_comm, Nat.mul_add_mod, Nat.mod_eq_of_lt hp]

/-- All chunks but the last are full. -/
theorem chunkSize_of_succ_lt (hc : 0 < c) {i : Nat} (hi : i + 1 < chunkCount c n) :
    chunkSize c n i = c := by
  have h := (lt_chunkCount_iff hc).mp hi
  rw [Nat.succ_mul] at h
  unfold chunkSize
  omega

/-- The last chunk holds the remainder. -/
theorem chunkSize_last (hc : 0 < c) {i : Nat} (hi : i + 1 = chunkCount c n) :
    chunkSize c n i = n - i * c := by
  have hnot : ¬ i + 1 < chunkCount c n := by omega
  rw [lt_chunkCount_iff hc, Nat.succ_mul] at hnot
  unfold chunkSize
  omega

/-- The last chunk, by the remainder. -/
theorem chunkSize_last_eq_mod (hc : 0 < c) {i : Nat} (hi : i + 1 = chunkCount c n) :
    chunkSize c n i = if 0 < n % c then n % c else c := by
  have hlow : i * c < n := (lt_chunkCount_iff hc).mp (by omega)
  have hhigh : ¬ i + 1 < chunkCount c n := by omega
  rw [lt_chunkCount_iff hc, Nat.succ_mul] at hhigh
  have hmod : n % c = (n - i * c) % c := by
    conv_lhs => rw [show n = n - i * c + c * i by rw [Nat.mul_comm c i]; omega]
    exact Nat.add_mul_mod_self_left _ _ _
  rw [chunkSize_last hc hi, hmod]
  rcases Nat.lt_or_ge (n - i * c) c with hlt | hge
  · rw [Nat.mod_eq_of_lt hlt, if_pos (by omega)]
  · have heq : n - i * c = c := by omega
    rw [heq, Nat.mod_self, if_neg (by omega)]

/-- The first `k` chunks hold `k * c` items, or all of them. -/
theorem sum_chunkSize (c n k : Nat) :
    ((List.range k).map (chunkSize c n)).sum = min (k * c) n := by
  induction k with
  | zero => simp
  | succ k ih =>
      rw [List.range_succ, List.map_append, List.sum_append, ih, List.map_singleton,
        List.sum_singleton, Nat.succ_mul]
      unfold chunkSize
      omega

/-- The loop `for (count = 0; count < n; count += c)` that appends one new
element in each iteration makes one for each chunk, in order. -/
theorem forLoop_append {α : Type u} (hc : 0 < c) (make : (count : Nat) → count < n → α) :
    (forLoop n c hc (fun count h made => made ++ [make count h]) 0 []).length =
        chunkCount c n ∧
      ∀ (i : Nat) (x : α),
        (forLoop n c hc (fun count h made => made ++ [make count h]) 0 [])[i]? = some x →
        ∃ h : i * c < n, x = make (i * c) h := by
  obtain ⟨exit, hstop, hnear, hdvd, _, hlen, hget⟩ := forLoop_rule hc
    (fun count h (made : List α) => made ++ [make count h])
    (fun count made => made.length * c = count ∧
      ∀ (i : Nat) (x : α), made[i]? = some x → ∃ h : i * c < n, x = make (i * c) h)
    (by
      rintro count hcount made ⟨hlen, hget⟩
      refine ⟨by simp [Nat.succ_mul, hlen], fun i x hx => ?_⟩
      by_cases hi : i < made.length
      · exact hget i x (by rwa [List.getElem?_append_left hi] at hx)
      · rw [List.getElem?_append_right (by omega), List.getElem?_singleton] at hx
        split at hx
        -- the element just appended is that of the chunk at `count`
        · have hilen : i = made.length := by omega
          obtain rfl : make count hcount = x := Option.some.inj hx
          have hidx : i * c = count := by rw [hilen, hlen]
          refine ⟨by omega, ?_⟩
          congr 1
          exact hidx.symm
        · contradiction)
    0 [] ⟨by simp, by simp⟩
  refine ⟨eq_chunkCount hc (by omega) ?_, hget⟩
  rcases hnear with hnone | hnear
  · exact Or.inl ((Nat.mul_eq_zero.mp (hlen.trans hnone)).resolve_right hc.ne')
  · exact Or.inr (by omega)

/-- The set positions below `m` chunks, chunk by chunk. -/
theorem positions_mul (bit : Nat → Bool) (c m : Nat) :
    positions bit (m * c) =
      (List.range m).flatMap fun i =>
        (positions (fun p => bit (i * c + p)) c).map (i * c + ·) := by
  induction m with
  | zero => simp
  | succ m ih =>
      rw [Nat.succ_mul, positions_add, ih, List.range_succ, List.flatMap_append]
      simp

/-- The set positions of a sequence, chunk by chunk. -/
theorem positions_chunks (hc : 0 < c) (bit : Nat → Bool) (n : Nat) :
    positions bit n =
      (List.range (chunkCount c n)).flatMap fun i =>
        (positions (fun p => bit (i * c + p)) (chunkSize c n i)).map (i * c + ·) := by
  rcases Nat.eq_zero_or_pos n with rfl | hn
  · simp
  · obtain ⟨m, hm⟩ : ∃ m, chunkCount c n = m + 1 :=
      Nat.exists_eq_succ_of_ne_zero (chunkCount_pos hc hn).ne'
    have hlow : m * c < n := (lt_chunkCount_iff hc).mp (by omega)
    have hfull : (List.range m).flatMap (fun i =>
          (positions (fun p => bit (i * c + p)) (chunkSize c n i)).map (i * c + ·)) =
        positions bit (m * c) := by
      rw [positions_mul]
      apply List.flatMap_congr
      intro i hi
      have hlt := List.mem_range.mp hi
      rw [chunkSize_of_succ_lt hc (by omega)]
    have hlast : chunkSize c n m = n - m * c := chunkSize_last hc (by omega)
    rw [hm, List.range_succ, List.flatMap_append, hfull]
    simp only [List.flatMap_cons, List.flatMap_nil, List.append_nil, hlast]
    rw [← positions_add]
    congr 1
    omega

end Foundation
