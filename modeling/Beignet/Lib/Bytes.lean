/-
Words of four bytes and byte-addressed memory, little-endian.

`byte w k` is byte `k` of a word.  Bitwise operations act on every byte for itself, shifts by
whole bytes move bytes, and a mask of whole bytes selects between two words.

* `ext_byte` — a word is its four bytes.
* `byte_shiftRight`, `byte_shiftLeft` — shifts by whole bytes.
* `store_apply`, `byte_load` — memory by bytes.
-/
import Mathlib

namespace Bytes

/-- Byte `k` of a word. -/
def byte (w : BitVec 32) (k : ℕ) : BitVec 8 := w.extractLsb' (8 * k) 8

theorem getLsbD_byte (w : BitVec 32) (k i : ℕ) (hi : i < 8) :
    (byte w k).getLsbD i = w.getLsbD (8 * k + i) := by
  simp [byte, hi]

theorem ext_bits {a b : BitVec 8} (h : ∀ i < 8, a.getLsbD i = b.getLsbD i) : a = b := by
  apply BitVec.eq_of_getLsbD_eq
  exact h

theorem ext_byte {v w : BitVec 32} (h : ∀ k < 4, byte v k = byte w k) : v = w := by
  apply BitVec.eq_of_getLsbD_eq
  intro i hi
  have hk := congrArg (fun b => b.getLsbD (i % 8)) (h (i / 8) (by omega))
  simp only [getLsbD_byte _ _ _ (Nat.mod_lt i (by decide))] at hk
  rwa [Nat.div_add_mod] at hk

@[simp] theorem byte_and (v w : BitVec 32) (k : ℕ) : byte (v &&& w) k = byte v k &&& byte w k := by
  apply ext_bits
  intro i hi
  simp [getLsbD_byte _ _ _ hi]

@[simp] theorem byte_or (v w : BitVec 32) (k : ℕ) : byte (v ||| w) k = byte v k ||| byte w k := by
  apply ext_bits
  intro i hi
  simp [getLsbD_byte _ _ _ hi]

theorem byte_not (w : BitVec 32) {k : ℕ} (hk : k < 4) : byte (~~~w) k = ~~~byte w k := by
  apply ext_bits
  intro i hi
  have hlt : 8 * k + i < 32 := by omega
  rw [getLsbD_byte _ _ _ hi, BitVec.getLsbD_not, BitVec.getLsbD_not, getLsbD_byte _ _ _ hi]
  simp [hlt, hi]

theorem byte_shiftRight (w : BitVec 32) (d k : ℕ) : byte (w >>> (8 * d)) k = byte w (d + k) := by
  apply ext_bits
  intro i hi
  rw [getLsbD_byte _ _ _ hi, getLsbD_byte _ _ _ hi, BitVec.getLsbD_ushiftRight]
  congr 1
  omega

@[simp] theorem byte_zero (k : ℕ) : byte 0 k = 0#8 := by
  apply ext_bits
  intro i hi
  simp [getLsbD_byte _ _ _ hi]

theorem byte_eq_zero (w : BitVec 32) {k : ℕ} (hk : 4 ≤ k) : byte w k = 0#8 := by
  apply ext_bits
  intro i hi
  rw [getLsbD_byte _ _ _ hi, BitVec.getLsbD_of_ge _ _ (by omega)]
  simp

theorem byte_shiftLeft (w : BitVec 32) {d k : ℕ} (hk : k < 4) :
    byte (w <<< (8 * d)) k = if k < d then 0#8 else byte w (k - d) := by
  apply ext_bits
  intro i hi
  have hlt : 8 * k + i < 32 := by omega
  rw [getLsbD_byte _ _ _ hi, BitVec.getLsbD_shiftLeft]
  by_cases hkd : k < d
  · have : 8 * k + i < 8 * d := by omega
    simp [hkd, this]
  · have h1 : ¬ 8 * k + i < 8 * d := by omega
    have h2 : 8 * k + i - 8 * d = 8 * (k - d) + i := by omega
    rw [if_neg hkd, getLsbD_byte _ _ _ hi]
    simp [hlt, h1, h2]

/-- A mask of whole bytes chooses between two words. -/
theorem byte_select {v w mask : BitVec 32} {k : ℕ} (hk : k < 4) {c : Prop} [Decidable c]
    (hmask : byte mask k = if c then 255#8 else 0#8) :
    byte ((v &&& mask) ||| (w &&& ~~~mask)) k = if c then byte v k else byte w k := by
  rw [byte_or, byte_and, byte_and, byte_not _ hk, hmask]
  split
  · show byte v k &&& BitVec.allOnes 8 ||| byte w k &&& 0#8 = byte v k
    rw [BitVec.and_allOnes, BitVec.and_zero, BitVec.or_zero]
  · show byte v k &&& 0#8 ||| byte w k &&& BitVec.allOnes 8 = byte w k
    rw [BitVec.and_allOnes, BitVec.and_zero, BitVec.zero_or]

/-! ### Memory -/

abbrev Mem := ℕ → BitVec 8

/-- The word at an address. -/
def load (m : Mem) (a : ℕ) : BitVec 32 := m (a + 3) ++ m (a + 2) ++ m (a + 1) ++ m a

def store (m : Mem) (a : ℕ) (w : BitVec 32) : Mem :=
  fun x => if a ≤ x ∧ x < a + 4 then byte w (x - a) else m x

theorem byte_load (m : Mem) (a : ℕ) {k : ℕ} (hk : k < 4) : byte (load m a) k = m (a + k) := by
  apply ext_bits
  intro i hi
  rw [getLsbD_byte _ _ _ hi]
  simp only [load, BitVec.getLsbD_append]
  obtain rfl | rfl | rfl | rfl : k = 0 ∨ k = 1 ∨ k = 2 ∨ k = 3 := by omega
  · simp [hi]
  · have h1 : ¬ 8 * 1 + i < 8 := by omega
    have h2 : 8 * 1 + i - 8 = i := by omega
    simp [h1, h2, hi]
  · have h1 : ¬ 8 * 2 + i < 8 := by omega
    have h2 : ¬ 8 * 2 + i - 8 < 8 := by omega
    have h3 : 8 * 2 + i - 8 - 8 = i := by omega
    simp [h1, h2, h3, hi]
  · have h1 : ¬ 8 * 3 + i < 8 := by omega
    have h2 : ¬ 8 * 3 + i - 8 < 8 := by omega
    have h3 : ¬ 8 * 3 + i - 8 - 8 < 8 := by omega
    have h4 : 8 * 3 + i - 8 - 8 - 8 = i := by omega
    simp [h1, h2, h3, h4]

/-- A store changes the four bytes of its word. -/
theorem store_apply (m : Mem) (a : ℕ) (w : BitVec 32) (x : ℕ) :
    store m a w x = if a ≤ x ∧ x < a + 4 then byte w (x - a) else m x := rfl

end Bytes
