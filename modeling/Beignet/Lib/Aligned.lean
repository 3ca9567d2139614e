/-
Addresses of a machine word and the dwords that hold them.

* `align_toNat` — the aligned address as a number;
* `align_add` — an address is that of its dword and a place in it;
* `dvd_add` — whole dwords keep an address aligned.
-/
import Mathlib

namespace Aligned

variable {w : ℕ}

/-- Without the two low bits. -/
def align (addr : BitVec w) : BitVec w := addr &&& ~~~3

theorem ofNat_add (addr : BitVec w) (a b : ℕ) :
    addr + BitVec.ofNat w a + BitVec.ofNat w b = addr + BitVec.ofNat w (a + b) := by
  rw [BitVec.add_assoc, ← BitVec.ofNat_add]

theorem align_eq_shift (addr : BitVec w) : align addr = addr >>> 2 <<< 2 := by
  apply BitVec.eq_of_getLsbD_eq
  intro i hi
  have hthree : (3 : ℕ).testBit i = decide (i < 2) := Nat.testBit_two_pow_sub_one 2 i
  have hlit : (3 : BitVec w) = BitVec.ofNat w 3 := rfl
  rw [align, BitVec.getLsbD_and, BitVec.getLsbD_not, hlit, BitVec.getLsbD_ofNat, hthree,
    BitVec.getLsbD_shiftLeft, BitVec.getLsbD_ushiftRight]
  by_cases h : i < 2
  · simp [h, hi]
  · rw [show 2 + (i - 2) = i by omega]
    simp [h, hi]

theorem align_toNat (addr : BitVec w) : (align addr).toNat = addr.toNat / 4 * 4 := by
  have hlt : addr.toNat / 4 * 4 < 2 ^ w := by have := addr.isLt; omega
  rw [align_eq_shift, BitVec.toNat_shiftLeft, BitVec.toNat_ushiftRight, Nat.shiftRight_eq_div_pow,
    Nat.shiftLeft_eq, Nat.mod_eq_of_lt hlt]

theorem align_add (addr : BitVec w) :
    addr = align addr + BitVec.ofNat w (addr.toNat % 4) := by
  refine BitVec.eq_of_toNat_eq ?_
  have hlt := addr.isLt
  rw [BitVec.toNat_add, align_toNat, BitVec.toNat_ofNat, Nat.add_mod_mod,
    Nat.div_add_mod', Nat.mod_eq_of_lt hlt]

theorem align_of_dvd {addr : BitVec w} (h : 4 ∣ addr.toNat) : align addr = addr := by
  refine BitVec.eq_of_toNat_eq ?_
  rw [align_toNat, Nat.div_mul_cancel h]

theorem dvd_add {addr : BitVec w} (hw : 2 ≤ w) (h : 4 ∣ addr.toNat) {n : ℕ} (hn : 4 ∣ n) :
    4 ∣ (addr + BitVec.ofNat w n).toNat := by
  have hpow : 4 ∣ 2 ^ w := pow_dvd_pow 2 hw
  rw [BitVec.toNat_add, BitVec.toNat_ofNat, Nat.add_mod_mod]
  exact (Nat.dvd_mod_iff hpow).mpr (Nat.dvd_add h hn)

theorem dvd_align (addr : BitVec w) : 4 ∣ (align addr).toNat := by
  rw [align_toNat]
  exact Nat.dvd_mul_left _ _

theorem ofNat_toNat {a : ℕ} (hw : 32 ≤ w) (ha : a < 2 ^ 32) : (BitVec.ofNat w a).toNat = a := by
  have hpow : 2 ^ 32 ≤ 2 ^ w := Nat.pow_le_pow_right (by decide) hw
  rw [BitVec.toNat_ofNat, Nat.mod_eq_of_lt (by omega)]

theorem align_ofNat {a : ℕ} (hw : 32 ≤ w) (ha : a < 2 ^ 32) :
    align (BitVec.ofNat w a) = BitVec.ofNat w (a / 4 * 4) := by
  refine BitVec.eq_of_toNat_eq ?_
  rw [align_toNat, ofNat_toNat hw ha, ofNat_toNat hw (by omega)]

theorem ofNat_inj {a b : ℕ} (hw : 32 ≤ w) (ha : a < 2 ^ 32) (hb : b < 2 ^ 32)
    (h : BitVec.ofNat w a = BitVec.ofNat w b) : a = b := by
  have := congrArg BitVec.toNat h
  rwa [ofNat_toNat hw ha, ofNat_toNat hw hb] at this

end Aligned
