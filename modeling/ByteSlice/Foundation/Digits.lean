import Mathlib

/-!
# Numbers read digit by digit

`prefixValue base digit k` is the number written by the first `k` digits, the
most significant first.  Reading two numbers in step, the order of the prefixes
is decided by the first digit that differs: `prefixValue_lt_succ_iff` and
`prefixValue_eq_succ_iff` are the recursion, and `prefixValue_lt_of_lt` says
that a decided prefix stays decided.
-/

namespace Foundation

/-- The number written by the first `k` digits. -/
def prefixValue (base : Nat) (digit : Nat → Nat) : Nat → Nat
  | 0 => 0
  | k + 1 => prefixValue base digit k * base + digit k

theorem prefixValue_succ (base : Nat) (digit : Nat → Nat) (k : Nat) :
    prefixValue base digit (k + 1) = prefixValue base digit k * base + digit k := rfl

section

variable {base : Nat} {x y : Nat → Nat}

theorem prefixValue_congr {n : Nat} (h : ∀ k, k < n → x k = y k) :
    prefixValue base x n = prefixValue base y n := by
  induction n with
  | zero => rfl
  | succ n ih =>
      rw [prefixValue_succ, prefixValue_succ, ih fun k hk => h k (by omega), h n (by omega)]

/-- What divides the base and the last digit divides the number. -/
theorem dvd_prefixValue_succ {d n : Nat} (hbase : d ∣ base) (hlast : d ∣ x n) :
    d ∣ prefixValue base x (n + 1) :=
  Nat.dvd_add (Dvd.dvd.mul_left hbase _) hlast

theorem prefixValue_lt_pow (hx : ∀ k, x k < base) (k : Nat) :
    prefixValue base x k < base ^ k := by
  induction k with
  | zero => simp [prefixValue]
  | succ k ih =>
      have hdigit := hx k
      calc
        prefixValue base x k * base + x k < prefixValue base x k * base + base := by omega
        _ = (prefixValue base x k + 1) * base := by ring
        _ ≤ base ^ k * base := Nat.mul_le_mul_right base ih
        _ = base ^ (k + 1) := (pow_succ base k).symm

/-- One more digit keeps the prefixes equal exactly when it agrees. -/
theorem prefixValue_eq_succ_iff (hx : ∀ k, x k < base) (hy : ∀ k, y k < base) (k : Nat) :
    prefixValue base x (k + 1) = prefixValue base y (k + 1) ↔
      prefixValue base x k = prefixValue base y k ∧ x k = y k := by
  have hbase : 0 < base := Nat.lt_of_le_of_lt (Nat.zero_le _) (hx k)
  rw [prefixValue_succ, prefixValue_succ]
  constructor
  · intro h
    have hdiv := congrArg (· / base) h
    simp only [Nat.mul_comm _ base, Nat.mul_add_div hbase, Nat.div_eq_of_lt (hx k),
      Nat.div_eq_of_lt (hy k), Nat.add_zero] at hdiv
    refine ⟨hdiv, ?_⟩
    rw [hdiv] at h
    omega
  · rintro ⟨hlead, hdigit⟩
    rw [hlead, hdigit]

/-- Two prefixes are equal exactly when they agree digit by digit. -/
theorem prefixValue_eq_iff (hx : ∀ k, x k < base) (hy : ∀ k, y k < base) (n : Nat) :
    prefixValue base x n = prefixValue base y n ↔ ∀ k, k < n → x k = y k := by
  induction n with
  | zero => simp [prefixValue]
  | succ n ih => rw [prefixValue_eq_succ_iff hx hy, ih, Nat.forall_lt_succ_right]

/-- One more digit makes the first prefix smaller exactly when it was smaller
already, or equal so far with a smaller digit. -/
theorem prefixValue_lt_succ_iff (hx : ∀ k, x k < base) (hy : ∀ k, y k < base) (k : Nat) :
    prefixValue base x (k + 1) < prefixValue base y (k + 1) ↔
      prefixValue base x k < prefixValue base y k ∨
        prefixValue base x k = prefixValue base y k ∧ x k < y k := by
  have hxk := hx k
  have hyk := hy k
  rw [prefixValue_succ, prefixValue_succ]
  rcases Nat.lt_trichotomy (prefixValue base x k) (prefixValue base y k) with h | h | h
  · have hmul : (prefixValue base x k + 1) * base ≤ prefixValue base y k * base :=
      Nat.mul_le_mul_right base h
    rw [Nat.succ_mul] at hmul
    exact iff_of_true (by omega) (Or.inl h)
  · rw [h]
    simp
  · have hmul : (prefixValue base y k + 1) * base ≤ prefixValue base x k * base :=
      Nat.mul_le_mul_right base h
    rw [Nat.succ_mul] at hmul
    exact iff_of_false (by omega) (by omega)

/-- A decided prefix decides the comparison. -/
theorem prefixValue_lt_of_lt (hx : ∀ k, x k < base) (hy : ∀ k, y k < base) {k n : Nat}
    (hkn : k ≤ n) (h : prefixValue base x k < prefixValue base y k) :
    prefixValue base x n < prefixValue base y n := by
  induction n, hkn using Nat.le_induction with
  | base => exact h
  | succ n _ ih => exact (prefixValue_lt_succ_iff hx hy n).mpr (Or.inl ih)

end

/-- Dividing by the base drops the last digit. -/
theorem prefixValue_succ_div {base : Nat} {x : Nat → Nat} (hx : ∀ k, x k < base) (n : Nat) :
    prefixValue base x (n + 1) / base = prefixValue base x n := by
  have hbase : 0 < base := Nat.lt_of_le_of_lt (Nat.zero_le _) (hx 0)
  rw [prefixValue_succ, Nat.mul_comm, Nat.mul_add_div hbase, Nat.div_eq_of_lt (hx n),
    Nat.add_zero]

/-- The leading digits of a number, as a number. -/
theorem prefixValue_div {base : Nat} {x : Nat → Nat} (hx : ∀ k, x k < base) {k n : Nat}
    (hkn : k ≤ n) : prefixValue base x n / base ^ (n - k) = prefixValue base x k := by
  induction n, hkn using Nat.le_induction with
  | base => rw [Nat.sub_self, Nat.pow_zero, Nat.div_one]
  | succ n hkn ih =>
      rw [Nat.sub_add_comm hkn, Nat.pow_succ', ← Nat.div_div_eq_div_mul,
        prefixValue_succ_div hx, ih]

/-- A number whose leading digits are those of one number and whose last ones are those of
another. -/
theorem prefixValue_ite {base : Nat} {x y : Nat → Nat} (hx : ∀ k, x k < base)
    (hy : ∀ k, y k < base) {count n : Nat} (hle : count ≤ n) :
    prefixValue base (fun k => if k < count then x k else y k) n =
      prefixValue base x n / base ^ (n - count) * base ^ (n - count) +
        prefixValue base y n % base ^ (n - count) := by
  induction n, hle using Nat.le_induction with
  | base =>
      rw [Nat.sub_self, Nat.pow_zero, Nat.div_one, Nat.mul_one, Nat.mod_one, Nat.add_zero]
      exact prefixValue_congr fun k hk => if_pos hk
  | succ n hle ih =>
      -- the digit at `n` is one of the second number, and the last one so far
      have hlast : prefixValue base y (n + 1) % base = y n := by
        rw [prefixValue_succ, Nat.mul_comm, Nat.mul_add_mod, Nat.mod_eq_of_lt (hy n)]
      rw [prefixValue_succ, ih, if_neg (by omega), Nat.sub_add_comm hle, Nat.pow_succ',
        ← Nat.div_div_eq_div_mul, prefixValue_succ_div hx, Nat.mod_mul,
        prefixValue_succ_div hy, hlast]
      ring

/-- The same number without its last part. -/
theorem div_of_switched {a b : Nat} (ha : 0 < a) (x y : Nat) :
    (x / (a * b) * (a * b) + y % (a * b)) / a = x / a / b * b + y / a % b := by
  have hsum : x / (a * b) * (a * b) + y % (a * b) = a * (x / a / b * b + y / a % b) + y % a := by
    rw [Nat.mod_mul, ← Nat.div_div_eq_div_mul]
    ring
  rw [hsum, Nat.mul_add_div ha, Nat.div_eq_of_lt (Nat.mod_lt y ha), Nat.add_zero]

/-- The digits of a number, read back, give the number. -/
theorem prefixValue_digits (base v n k : Nat) (hkn : k ≤ n) :
    prefixValue base (fun j => v / base ^ (n - 1 - j) % base) k =
      v / base ^ (n - k) % base ^ k := by
  induction k with
  | zero => simp [prefixValue, Nat.mod_one]
  | succ k ih =>
      rw [prefixValue_succ, ih (by omega)]
      have hpow : base ^ (n - k) = base ^ (n - (k + 1)) * base := by
        rw [← pow_succ]
        congr 1
        omega
      have hexp : n - 1 - k = n - (k + 1) := by omega
      rw [hexp, hpow, ← Nat.div_div_eq_div_mul, pow_succ, Nat.mul_comm (base ^ k) base,
        Nat.mod_mul]
      ring

end Foundation
