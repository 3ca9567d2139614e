/-
The integers of a machine type, and saturation to them.

* `saturate_of_mem`, `saturate_of_lt`, `saturate_of_gt` — inside the range and on its two sides;
* `ofInt_value_add`, `ofInt_value_sub` — sums and differences of words;
* `toNat_abs` — absolute values.
-/
import Mathlib

namespace Saturate

variable {w : ℕ}

/-- The number that a word of a signed or an unsigned type is. -/
def value (signed : Bool) (x : BitVec w) : ℤ := if signed then x.toInt else x.toNat

def least (w : ℕ) (signed : Bool) : ℤ := if signed then -2 ^ (w - 1) else 0

def greatest (w : ℕ) (signed : Bool) : ℤ := if signed then 2 ^ (w - 1) - 1 else 2 ^ w - 1

/-- The number of the type closest to `n`. -/
def clamp (w : ℕ) (signed : Bool) (n : ℤ) : ℤ := max (least w signed) (min (greatest w signed) n)

def saturate (w : ℕ) (signed : Bool) (n : ℤ) : BitVec w := BitVec.ofInt w (clamp w signed n)

variable {signed : Bool} {n : ℤ}

theorem least_le_greatest (w : ℕ) (signed : Bool) : least w signed ≤ greatest w signed := by
  have h : (1 : ℤ) ≤ 2 ^ w := by exact_mod_cast Nat.one_le_two_pow
  have h' : (1 : ℤ) ≤ 2 ^ (w - 1) := by exact_mod_cast Nat.one_le_two_pow
  cases signed with
  | true =>
    simp only [least, greatest, if_true]
    omega
  | false =>
    simp only [least, greatest, Bool.false_eq_true, if_false]
    omega

theorem clamp_of_mem (hlo : least w signed ≤ n) (hhi : n ≤ greatest w signed) :
    clamp w signed n = n := by
  rw [clamp, min_eq_right hhi, max_eq_right hlo]

theorem clamp_of_lt (h : n < least w signed) : clamp w signed n = least w signed := by
  rw [clamp, max_eq_left]
  exact (min_le_right _ _).trans h.le

theorem clamp_of_gt (h : greatest w signed < n) : clamp w signed n = greatest w signed := by
  rw [clamp, min_eq_left h.le, max_eq_right (least_le_greatest w signed)]

theorem saturate_of_mem (hlo : least w signed ≤ n) (hhi : n ≤ greatest w signed) :
    saturate w signed n = BitVec.ofInt w n := by
  rw [saturate, clamp_of_mem hlo hhi]

theorem saturate_of_lt (h : n < least w signed) :
    saturate w signed n = BitVec.ofInt w (least w signed) := by
  rw [saturate, clamp_of_lt h]

theorem saturate_of_gt (h : greatest w signed < n) :
    saturate w signed n = BitVec.ofInt w (greatest w signed) := by
  rw [saturate, clamp_of_gt h]

/-! ### Words as numbers -/

/-- A signed number and its bits. -/
theorem toInt_cases (x : BitVec w) :
    (2 * (x.toNat : ℤ) < 2 ^ w ∧ x.toInt = x.toNat) ∨
      ((2 : ℤ) ^ w ≤ 2 * x.toNat ∧ x.toInt = x.toNat - 2 ^ w) := by
  rw [BitVec.toInt_eq_toNat_cond]
  split
  · next h => exact .inl ⟨by exact_mod_cast h, rfl⟩
  · next h => exact .inr ⟨by exact_mod_cast not_lt.mp h, by push_cast; rfl⟩

theorem ofInt_value (signed : Bool) (x : BitVec w) : BitVec.ofInt w (value signed x) = x := by
  cases signed with
  | true => exact BitVec.ofInt_toInt
  | false => exact BitVec.ofNat_toNat w x |>.trans (BitVec.setWidth_eq x)

theorem ofInt_value_add (signed : Bool) (x y : BitVec w) :
    BitVec.ofInt w (value signed x + value signed y) = x + y := by
  rw [BitVec.ofInt_add, ofInt_value, ofInt_value]

theorem ofInt_value_sub (signed : Bool) (x y : BitVec w) :
    BitVec.ofInt w (value signed x - value signed y) = x - y := by
  have h := BitVec.ofInt_add (n := w) (value signed x - value signed y) (value signed y)
  rw [Int.sub_add_cancel, ofInt_value, ofInt_value] at h
  rw [BitVec.eq_sub_iff_add_eq, ← h]

/-- The absolute value has room in the unsigned word. -/
theorem toNat_abs (x : BitVec w) : x.abs.toNat = x.toInt.natAbs := by
  have hlt := x.isLt
  rw [BitVec.toNat_abs, BitVec.toInt_eq_msb_cond]
  cases x.msb with
  | true =>
    have hneg : ((x.toNat : ℤ) - (2 ^ w : ℕ)).natAbs = 2 ^ w - x.toNat := by
      rw [← Int.natAbs_neg, neg_sub, ← Nat.cast_sub hlt.le, Int.natAbs_natCast]
    exact hneg.symm
  | false => rfl

end Saturate
