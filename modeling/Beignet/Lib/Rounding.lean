/-
Binary floating-point rounding of positive rationals.

`roundTo p x` is the number with `p` significant bits nearest to `x`, the even one of
two; `float` values of C are the case `p = 24`.  Exponents are unbounded, so overflow
and subnormal numbers are not covered.

* `roundTo_natCast` — small naturals are exact;
* `abs_roundTo_sub_le` — the relative error is at most `2 ^ (-p)`;
* `lt_roundTo` — a lower bound below the next number up survives rounding.
-/
import Mathlib

namespace Rounding

/-- The nearest integer, the even one of two. -/
def roundEven (x : ℚ) : ℤ :=
  if x - ⌊x⌋ < 1 / 2 then ⌊x⌋
  else if 1 / 2 < x - ⌊x⌋ then ⌊x⌋ + 1
  else if ⌊x⌋ % 2 = 0 then ⌊x⌋
  else ⌊x⌋ + 1

theorem abs_roundEven_sub_le (x : ℚ) : |(roundEven x : ℚ) - x| ≤ 1 / 2 := by
  have hlow := Int.floor_le x
  have hhigh := Int.lt_floor_add_one x
  rw [abs_le]
  by_cases hlt : x - ⌊x⌋ < 1 / 2
  · rw [roundEven, if_pos hlt]
    exact ⟨by linarith, by linarith⟩
  · by_cases hgt : 1 / 2 < x - ⌊x⌋
    · rw [roundEven, if_neg hlt, if_pos hgt]
      push_cast
      exact ⟨by linarith, by linarith⟩
    · -- half way between two integers, both are as near
      rw [roundEven, if_neg hlt, if_neg hgt]
      split
      · exact ⟨by linarith, by linarith⟩
      · push_cast
        exact ⟨by linarith, by linarith⟩

theorem roundEven_intCast (n : ℤ) : roundEven n = n := by
  simp [roundEven]

/-- What is more than half above an integer is not rounded to it. -/
theorem lt_roundEven {n : ℤ} {x : ℚ} (h : (n : ℚ) + 1 / 2 < x) : n < roundEven x := by
  have hr := abs_le.mp (abs_roundEven_sub_le x)
  have : (n : ℚ) < roundEven x := by linarith [hr.1]
  exact_mod_cast this

/-- The distance between neighbours at `x`. -/
def ulp (p : ℕ) (x : ℚ) : ℚ := 2 ^ (Int.log 2 x - (p - 1))

theorem ulp_pos (p : ℕ) (x : ℚ) : 0 < ulp p x := by
  exact zpow_pos two_pos _

def roundTo (p : ℕ) (x : ℚ) : ℚ := roundEven (x / ulp p x) * ulp p x

theorem ulp_le {p : ℕ} {x : ℚ} (hx : 0 < x) : ulp p x ≤ x * 2 ^ (1 - p : ℤ) := by
  have h := Int.zpow_log_le_self (b := 2) one_lt_two hx
  push_cast at h
  calc ulp p x = 2 ^ Int.log 2 x * 2 ^ (1 - p : ℤ) := by
        unfold ulp
        rw [← zpow_add₀ (by norm_num)]
        congr 1
        ring
    _ ≤ x * 2 ^ (1 - p : ℤ) := mul_le_mul_of_nonneg_right h (zpow_pos two_pos _).le

/-- Rounding has a relative error of at most half a unit in the last place. -/
theorem abs_roundTo_sub_le {p : ℕ} {x : ℚ} (hx : 0 < x) :
    |roundTo p x - x| ≤ x * 2 ^ (-p : ℤ) := by
  have hu := ulp_pos p x
  have h := abs_roundEven_sub_le (x / ulp p x)
  have hsplit : roundTo p x - x = (roundEven (x / ulp p x) - x / ulp p x) * ulp p x := by
    unfold roundTo
    field_simp
  rw [hsplit, abs_mul, abs_of_pos hu]
  calc |(roundEven (x / ulp p x) : ℚ) - x / ulp p x| * ulp p x
      ≤ 1 / 2 * (x * 2 ^ (1 - p : ℤ)) := by
        gcongr
        exact ulp_le hx
    _ = x * 2 ^ (-p : ℤ) := by
        rw [show (1 - p : ℤ) = -p + 1 by ring, zpow_add₀ (by norm_num)]
        ring

theorem roundTo_of_log {p : ℕ} {x : ℚ} {k : ℤ} (h : Int.log 2 x = k) :
    roundTo p x = roundEven (x * 2 ^ ((p - 1 : ℤ) - k)) * 2 ^ (k - (p - 1 : ℤ)) := by
  unfold roundTo ulp
  rw [h, div_eq_mul_inv, ← zpow_neg, neg_sub]

theorem roundTo_natCast {p n : ℕ} (hn : 0 < n) (hlt : n < 2 ^ p) : roundTo p n = n := by
  have hlog : Nat.log 2 n ≤ p - 1 := by
    have := Nat.log_lt_of_lt_pow hn.ne' hlt
    omega
  have hp : 0 < p := by
    rcases p with _ | p
    · simp at hlt
      omega
    · omega
  rw [roundTo_of_log (Int.log_natCast 2 n)]
  -- the natural is a whole number of units
  have hint : (n : ℚ) * 2 ^ ((p - 1 : ℤ) - (Nat.log 2 n : ℤ)) =
      ((n * 2 ^ (p - 1 - Nat.log 2 n) : ℤ) : ℚ) := by
    push_cast
    rw [← zpow_natCast, Nat.cast_sub hlog, Nat.cast_sub hp]
    rfl
  rw [hint, roundEven_intCast, ← hint, mul_assoc, ← zpow_add₀ (by norm_num)]
  simp

/-- Above a number `n` units large, by more than half a unit. -/
theorem lt_roundTo {p : ℕ} {x : ℚ} {k n : ℤ} (hlog : Int.log 2 x = k)
    (h : ((n : ℚ) + 1 / 2) * 2 ^ (k - (p - 1 : ℤ)) < x) :
    n * 2 ^ (k - (p - 1 : ℤ)) < roundTo p x := by
  rw [roundTo_of_log hlog]
  have hu : (0 : ℚ) < 2 ^ (k - (p - 1 : ℤ)) := zpow_pos two_pos _
  have hlt : n < roundEven (x * 2 ^ ((p - 1 : ℤ) - k)) := by
    refine lt_roundEven ?_
    rw [show ((p - 1 : ℤ) - k) = -(k - (p - 1)) by ring, zpow_neg, ← div_eq_mul_inv, lt_div_iff₀ hu]
    exact h
  have : (n : ℚ) < roundEven (x * 2 ^ ((p - 1 : ℤ) - k)) := by exact_mod_cast hlt
  gcongr

end Rounding
