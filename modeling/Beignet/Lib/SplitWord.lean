/-
Words of `2 * w` bits in two halves of `w` bits.

* `shiftLeft_append`, `ushiftRight_append`, `sshiftRight_append` — shifts by less than the width of
  a half, and `shiftLeft_append_of_le` and so on — by more;
* `toNat_append`, `toInt_append` — the value;
* `ult_append`, `slt_append`, `ule_append`, `sle_append` — the order goes by the upper halves
  first;
* `append_add_append`, `append_sub_append` — sums and differences by halves.
-/
import Mathlib

namespace SplitWord

variable {w : ℕ}

/-! ### Shifts -/

theorem shiftLeft_append (v u : BitVec w) {n : ℕ} (hn : n < w) :
    (v ++ u) <<< n = (v <<< n ||| u >>> (w - n)) ++ (u <<< n) := by
  apply BitVec.eq_of_getLsbD_eq
  intro i hi
  simp only [BitVec.getLsbD_append, BitVec.getLsbD_shiftLeft, BitVec.getLsbD_or,
    BitVec.getLsbD_ushiftRight, hi, decide_true, Bool.true_and]
  by_cases hlow : i < w
  · -- a bit of the lower half
    simp only [hlow, show i - n < w by omega, decide_true, Bool.true_and, if_true]
  · have hw : i - w < w := by omega
    simp only [hlow, hw, if_false, decide_true, Bool.true_and, show ¬ i < n by omega,
      decide_false, Bool.not_false]
    by_cases hcross : i - w < n
    · simp [hcross, show i - n < w by omega, show w - n + (i - w) = i - n by omega]
    · simp [hcross, show ¬ i - n < w by omega, show i - w - n = i - n - w by omega,
        show w ≤ w - n + (i - w) by omega]

theorem shiftLeft_append_of_le (v u : BitVec w) {n : ℕ} (hn : w ≤ n) :
    (v ++ u) <<< n = (u <<< (n - w)) ++ 0#w := by
  apply BitVec.eq_of_getLsbD_eq
  intro i hi
  simp only [BitVec.getLsbD_append, BitVec.getLsbD_shiftLeft, hi, decide_true, Bool.true_and,
    BitVec.getLsbD_zero]
  by_cases hlow : i < w
  · simp [hlow, show i < n by omega]
  · have hw : i - w < w := by omega
    by_cases hzero : i < n
    · simp [hlow, hzero, show i - w < n - w by omega]
    · simp [hlow, hzero, hw, show ¬ i - w < n - w by omega, show i - n < w by omega,
        show i - w - (n - w) = i - n by omega]

theorem ushiftRight_append (v u : BitVec w) {n : ℕ} (hn : n < w) :
    (v ++ u) >>> n = (v >>> n) ++ (u >>> n ||| v <<< (w - n)) := by
  apply BitVec.eq_of_getLsbD_eq
  intro i hi
  simp only [BitVec.getLsbD_append, BitVec.getLsbD_shiftLeft, BitVec.getLsbD_or,
    BitVec.getLsbD_ushiftRight]
  by_cases hlow : i < w
  · by_cases hcross : n + i < w
    · simp [hlow, hcross, show i < w - n by omega]
    · simp [hlow, hcross, show ¬ i < w - n by omega, show n + i - w = i - (w - n) by omega,
        show w ≤ n + i by omega]
  · simp [hlow, show ¬ n + i < w by omega, show n + i - w = n + (i - w) by omega]

theorem ushiftRight_append_of_le (v u : BitVec w) {n : ℕ} (hn : w ≤ n) :
    (v ++ u) >>> n = 0#w ++ (v >>> (n - w)) := by
  apply BitVec.eq_of_getLsbD_eq
  intro i hi
  simp only [BitVec.getLsbD_append, BitVec.getLsbD_ushiftRight, BitVec.getLsbD_zero,
    show ¬ n + i < w by omega, if_false]
  by_cases hlow : i < w
  · simp [hlow, show n + i - w = n - w + i by omega]
  · simp [hlow, show w ≤ n + i - w by omega]

/-- The upper half decides the sign. -/
theorem msb_append (v u : BitVec w) (hw : 0 < w) : (v ++ u).msb = v.msb := by
  rw [BitVec.msb_append, if_neg hw.ne']

theorem sshiftRight_append (v u : BitVec w) {n : ℕ} (hn : n < w) :
    (v ++ u).sshiftRight n = v.sshiftRight n ++ (u >>> n ||| v <<< (w - n)) := by
  apply BitVec.eq_of_getLsbD_eq
  intro i hi
  simp only [BitVec.getLsbD_append, BitVec.getLsbD_shiftLeft, BitVec.getLsbD_or,
    BitVec.getLsbD_ushiftRight, BitVec.getLsbD_sshiftRight, msb_append v u (by omega)]
  by_cases hlow : i < w
  · by_cases hcross : n + i < w
    · simp [hlow, hcross, show ¬ w + w ≤ i by omega, show i < w - n by omega,
        show n + i < w + w by omega]
    · simp [hlow, hcross, show ¬ w + w ≤ i by omega, show ¬ i < w - n by omega,
        show n + i < w + w by omega, show n + i - w = i - (w - n) by omega,
        show w ≤ n + i by omega]
  · by_cases hfill : n + i < w + w
    · simp [hlow, hfill, show ¬ w + w ≤ i by omega, show ¬ n + i < w by omega,
        show n + (i - w) < w by omega, show ¬ w ≤ i - w by omega,
        show n + i - w = n + (i - w) by omega]
    · simp [hlow, hfill, show ¬ w + w ≤ i by omega, show ¬ n + (i - w) < w by omega,
        show ¬ w ≤ i - w by omega]

theorem sshiftRight_append_of_le (v u : BitVec w) {n : ℕ} (hn : w ≤ n) :
    (v ++ u).sshiftRight n = v.sshiftRight (w - 1) ++ v.sshiftRight (n - w) := by
  apply BitVec.eq_of_getLsbD_eq
  intro i hi
  simp only [BitVec.getLsbD_append, BitVec.getLsbD_sshiftRight, msb_append v u (by omega),
    show ¬ n + i < w by omega, if_false]
  by_cases hlow : i < w
  · by_cases hfill : n + i < w + w
    · simp [hlow, hfill, show ¬ w + w ≤ i by omega, show n - w + i < w by omega,
        show ¬ w ≤ i by omega, show n + i - w = n - w + i by omega]
    · simp [hlow, hfill, show ¬ w + w ≤ i by omega, show ¬ n - w + i < w by omega,
        show ¬ w ≤ i by omega]
  · -- the whole upper half is the sign
    have hsign : v.getLsbD (w - 1) = v.msb := (BitVec.msb_eq_getLsbD_last v).symm
    by_cases hlast : i = w
    · simp only [hlast, show ¬ w + w ≤ w by omega, show ¬ n + w < w + w by omega, Nat.lt_irrefl,
        show w - 1 + (w - w) = w - 1 by omega, show ¬ w ≤ w - w by omega,
        show w - 1 < w by omega, hsign, if_false, if_true, decide_false, Bool.not_false,
        Bool.true_and]
    · simp [hlow, show ¬ w + w ≤ i by omega, show ¬ n + i < w + w by omega,
        show ¬ w - 1 + (i - w) < w by omega, show ¬ w ≤ i - w by omega]

/-! ### Values and order -/

theorem toNat_append (v u : BitVec w) : (v ++ u).toNat = v.toNat * 2 ^ w + u.toNat := by
  rw [BitVec.toNat_append, ← Nat.shiftLeft_add_eq_or_of_lt u.isLt, Nat.shiftLeft_eq]

theorem append_inj {v u v' u' : BitVec w} : v ++ u = v' ++ u' ↔ v = v' ∧ u = u' := by
  constructor
  · intro h
    have hvalue := congrArg BitVec.toNat h
    rw [toNat_append, toNat_append] at hvalue
    have hu : u.toNat = u'.toNat := by
      have hmod := congrArg (· % 2 ^ w) hvalue
      simpa only [Nat.mul_add_mod_self_right, Nat.mod_eq_of_lt (BitVec.isLt _)] using hmod
    have hv : v.toNat * 2 ^ w = v'.toNat * 2 ^ w := by
      omega
    have hpos : 0 < 2 ^ w := Nat.two_pow_pos w
    exact ⟨BitVec.eq_of_toNat_eq (Nat.eq_of_mul_eq_mul_right hpos hv),
      BitVec.eq_of_toNat_eq hu⟩
  · rintro ⟨rfl, rfl⟩
    rfl

theorem toInt_append (v u : BitVec w) (hw : 0 < w) :
    (v ++ u).toInt = v.toInt * 2 ^ w + u.toNat := by
  rw [BitVec.toInt_eq_msb_cond, BitVec.toInt_eq_msb_cond, msb_append v u hw, toNat_append]
  split
  · push_cast
    ring
  · push_cast
    ring

/-- Numbers of two digits are compared by the first digit, then by the second. -/
theorem digits_lt {B : ℤ} {v v' u u' : ℤ} (hu : 0 ≤ u) (huB : u < B) (hu' : 0 ≤ u')
    (huB' : u' < B) : v * B + u < v' * B + u' ↔ v < v' ∨ v = v' ∧ u < u' := by
  constructor
  · intro h
    obtain hlt | heq | hgt := lt_trichotomy v v'
    · exact .inl hlt
    · subst heq
      exact .inr ⟨rfl, by omega⟩
    · -- a smaller first digit is less by at least the base
      have : (v' + 1) * B ≤ v * B := mul_le_mul_of_nonneg_right hgt (by omega)
      nlinarith
  · rintro (hlt | ⟨rfl, hlt⟩)
    · have : (v + 1) * B ≤ v' * B := mul_le_mul_of_nonneg_right hlt (by omega)
      nlinarith
    · omega

theorem ult_append (v u v' u' : BitVec w) :
    (v ++ u).ult (v' ++ u') = (v.ult v' || v == v' && u.ult u') := by
  have h := @digits_lt (2 ^ w) v.toNat v'.toNat u.toNat u'.toNat
    (Int.natCast_nonneg u.toNat) (by exact_mod_cast u.isLt)
    (Int.natCast_nonneg u'.toNat) (by exact_mod_cast u'.isLt)
  rw [Bool.eq_iff_iff]
  simp only [BitVec.ult, toNat_append, Bool.or_eq_true, Bool.and_eq_true, decide_eq_true_eq,
    beq_iff_eq, ← BitVec.toNat_inj]
  exact_mod_cast h

theorem slt_append (v u v' u' : BitVec w) (hw : 0 < w) :
    (v ++ u).slt (v' ++ u') = (v.slt v' || v == v' && u.ult u') := by
  have h := @digits_lt (2 ^ w) v.toInt v'.toInt u.toNat u'.toNat
    (Int.natCast_nonneg u.toNat) (by exact_mod_cast u.isLt)
    (Int.natCast_nonneg u'.toNat) (by exact_mod_cast u'.isLt)
  rw [Bool.eq_iff_iff]
  simp only [BitVec.slt, BitVec.ult, toInt_append _ _ hw, Bool.or_eq_true, Bool.and_eq_true,
    decide_eq_true_eq, beq_iff_eq, ← BitVec.toInt_inj]
  rw [h]
  norm_cast

theorem ule_append (v u v' u' : BitVec w) :
    (v ++ u).ule (v' ++ u') = (v.ult v' || v == v' && u.ule u') := by
  rw [BitVec.ule_eq_not_ult, ult_append, Bool.eq_iff_iff]
  simp [BitVec.ult, BitVec.ule, ← BitVec.toNat_inj]
  omega

theorem sle_append (v u v' u' : BitVec w) (hw : 0 < w) :
    (v ++ u).sle (v' ++ u') = (v.slt v' || v == v' && u.ule u') := by
  rw [BitVec.sle_eq_not_slt, slt_append _ _ _ _ hw, Bool.eq_iff_iff]
  simp [BitVec.slt, BitVec.ult, BitVec.ule, ← BitVec.toInt_inj]
  omega

/-! ### Sums -/

/-- The carry out of the lower halves goes into the upper ones. -/
theorem append_add_append (v u v' u' : BitVec w) :
    (v ++ u) + (v' ++ u') =
      (v + v' + BitVec.ofNat w ((u.toNat + u'.toNat) / 2 ^ w)) ++ (u + u') := by
  have hpos : 0 < 2 ^ w := Nat.two_pow_pos w
  have hsum : v.toNat * 2 ^ w + u.toNat + (v'.toNat * 2 ^ w + u'.toNat) =
      u.toNat + u'.toNat + 2 ^ w * (v.toNat + v'.toNat) := by
    ring
  apply BitVec.eq_of_toNat_eq
  rw [BitVec.toNat_add, toNat_append, toNat_append, toNat_append, hsum, Nat.pow_add,
    Nat.mod_mul, Nat.add_mul_mod_self_left, Nat.add_mul_div_left _ _ hpos]
  simp only [BitVec.toNat_add, BitVec.toNat_ofNat, Nat.mod_add_mod, Nat.add_mod_mod]
  rw [Nat.add_comm ((u.toNat + u'.toNat) / 2 ^ w)]
  ring

/-- The borrow out of the lower halves comes from the upper ones. -/
theorem append_sub_append (v u v' u' : BitVec w) :
    (v ++ u) - (v' ++ u') =
      (v - v' - if u.toNat < u'.toNat then 1 else 0) ++ (u - u') := by
  have hu := u.isLt
  have hu' := u'.isLt
  have hcarry : BitVec.ofNat w (((u - u').toNat + u'.toNat) / 2 ^ w) =
      if u.toNat < u'.toNat then 1 else 0 := by
    rw [BitVec.toNat_sub]
    split
    · have hmod : (2 ^ w - u'.toNat + u.toNat) % 2 ^ w = 2 ^ w - u'.toNat + u.toNat :=
        Nat.mod_eq_of_lt (by omega)
      have hdiv : (2 ^ w - u'.toNat + u.toNat + u'.toNat) / 2 ^ w = 1 := by
        rw [show 2 ^ w - u'.toNat + u.toNat + u'.toNat = u.toNat + 2 ^ w by omega,
          Nat.add_div_right _ (by omega), Nat.div_eq_of_lt hu]
      rw [hmod, hdiv]
      rfl
    · have hmod : (2 ^ w - u'.toNat + u.toNat) % 2 ^ w = u.toNat - u'.toNat := by
        rw [show 2 ^ w - u'.toNat + u.toNat = u.toNat - u'.toNat + 2 ^ w by omega,
          Nat.add_mod_right, Nat.mod_eq_of_lt (by omega)]
      rw [hmod, Nat.div_eq_of_lt (by omega)]
      rfl
  rw [BitVec.sub_eq_iff_eq_add, append_add_append, hcarry, BitVec.sub_add_cancel]
  congr 1
  rw [BitVec.sub_eq_add_neg, BitVec.sub_eq_add_neg]
  ring

end SplitWord
