/-
Single precision: the pattern of an integer, rounded to nearest, ties to even.

The three fields are given on naturals: the exponent of a positive number is that of its leading
bit, and its significand is the number itself, shifted to 24 bits and rounded.

* `toNat_encode` — the pattern as a number: a significand that is rounded up to the next power of
  two carries into the exponent;
* `encode_neg` — the sign.
-/
import Beignet.Lib.Rounding

namespace SingleFloat

/-! ### Rounding -/

/-- `n / 2 ^ k` rounded to the nearest, the even one of two. -/
def roundShift (n k : ℕ) : ℕ :=
  if 2 ^ k < 2 * (n % 2 ^ k) ∨ 2 * (n % 2 ^ k) = 2 ^ k ∧ n / 2 ^ k % 2 = 1 then n / 2 ^ k + 1
  else n / 2 ^ k

/-- The 24 bits from the leading one on, or 2 ^ 24 where they are rounded up to it. -/
def significand (n : ℕ) : ℕ :=
  if n.log2 ≤ 23 then n * 2 ^ (23 - n.log2) else roundShift n (n.log2 - 23)

theorem le_roundShift (n k : ℕ) : n / 2 ^ k ≤ roundShift n k := by
  rw [roundShift]
  split
  · exact Nat.le_succ _
  · exact le_rfl

theorem roundShift_le (n k : ℕ) : roundShift n k ≤ n / 2 ^ k + 1 := by
  rw [roundShift]
  split
  · exact le_rfl
  · exact Nat.le_succ _

theorem significand_bounds {n : ℕ} (hn : n ≠ 0) :
    2 ^ 23 ≤ significand n ∧ significand n ≤ 2 ^ 24 := by
  have hlo := Nat.log2_self_le hn
  have hhi := @Nat.lt_log2_self n
  rw [significand]
  split
  · next hlog =>
    have hlow : 2 ^ 23 = 2 ^ n.log2 * 2 ^ (23 - n.log2) := by
      rw [← Nat.pow_add]
      congr 1
      omega
    have hhigh : 2 ^ 24 = 2 ^ (n.log2 + 1) * 2 ^ (23 - n.log2) := by
      rw [← Nat.pow_add]
      congr 1
      omega
    rw [hlow, hhigh]
    exact ⟨Nat.mul_le_mul_right _ hlo, Nat.mul_le_mul_right _ hhi.le⟩
  · next hlog =>
    have hlow : 2 ^ 23 ≤ n / 2 ^ (n.log2 - 23) := by
      rw [Nat.le_div_iff_mul_le (Nat.two_pow_pos _), ← Nat.pow_add]
      exact (Nat.pow_le_pow_right (by norm_num) (by omega)).trans hlo
    have hhigh : n / 2 ^ (n.log2 - 23) < 2 ^ 24 := by
      rw [Nat.div_lt_iff_lt_mul (Nat.two_pow_pos _), ← Nat.pow_add]
      exact hhi.trans_le (Nat.pow_le_pow_right (by norm_num) (by omega))
    exact ⟨hlow.trans (le_roundShift _ _), (roundShift_le _ _).trans hhigh⟩

/-! ### Patterns -/

structure Fields where
  sign : BitVec 1
  exponent : BitVec 8
  fraction : BitVec 23

def Fields.pattern (f : Fields) : BitVec 32 := f.sign ++ f.exponent ++ f.fraction

/-- The fields of an integer of less than 128 bits. -/
def fields (v : ℤ) : Fields :=
  let n := v.natAbs
  let sign := BitVec.ofBool (v < 0)
  if n = 0 then ⟨sign, 0, 0⟩
  else if significand n = 2 ^ 24 then ⟨sign, BitVec.ofNat 8 (n.log2 + 128), 0⟩
  else ⟨sign, BitVec.ofNat 8 (n.log2 + 127), BitVec.ofNat 23 (significand n - 2 ^ 23)⟩

def encode (v : ℤ) : BitVec 32 := (fields v).pattern

theorem toNat_pattern (f : Fields) :
    f.pattern.toNat = (f.sign.toNat * 2 ^ 8 + f.exponent.toNat) * 2 ^ 23 + f.fraction.toNat := by
  rw [Fields.pattern, BitVec.toNat_append, BitVec.toNat_append,
    ← Nat.shiftLeft_add_eq_or_of_lt f.exponent.isLt,
    ← Nat.shiftLeft_add_eq_or_of_lt f.fraction.isLt, Nat.shiftLeft_eq, Nat.shiftLeft_eq]

/-- A significand of 2 ^ 24 carries into the exponent. -/
theorem toNat_encode {n : ℕ} (hn : n ≠ 0) (hlog : n.log2 < 127) :
    (encode n).toNat = (n.log2 + 126) * 2 ^ 23 + significand n := by
  obtain ⟨hlo, hhi⟩ := significand_bounds hn
  have hsign : BitVec.ofBool (decide ((n : ℤ) < 0)) = 0 := by
    rw [decide_eq_false (by omega)]
    rfl
  have hzero : (0 : BitVec 1).toNat = 0 := rfl
  have hzero' : (0 : BitVec 23).toNat = 0 := rfl
  rw [encode, toNat_pattern, fields, Int.natAbs_natCast, hsign]
  simp only [hn, if_false]
  split
  · rw [BitVec.toNat_ofNat, hzero, hzero']
    omega
  · rw [BitVec.toNat_ofNat, BitVec.toNat_ofNat, hzero]
    omega

theorem encode_neg {n : ℕ} (hn : n ≠ 0) : encode (-n) = encode n ||| 0x80000000 := by
  have hpos : BitVec.ofBool (decide ((n : ℤ) < 0)) = 0 := by
    rw [decide_eq_false (by omega)]
    rfl
  have hneg : BitVec.ofBool (decide (-(n : ℤ) < 0)) = 1 := by
    rw [decide_eq_true (by omega)]
    rfl
  have hmask : (0x80000000 : BitVec 32) = (1 : BitVec 1) ++ (0 : BitVec 8) ++ (0 : BitVec 23) := rfl
  have hor : ∀ (e : BitVec 8) (f : BitVec 23),
      (⟨1, e, f⟩ : Fields).pattern = (⟨0, e, f⟩ : Fields).pattern ||| 0x80000000 := by
    intro e f
    rw [hmask, Fields.pattern, Fields.pattern, BitVec.or_append, BitVec.or_append]
    simp
  simp only [encode, fields, Int.natAbs_neg, Int.natAbs_natCast, hpos, hneg, hn, if_false]
  split
  · exact hor _ _
  · exact hor _ _

end SingleFloat
