/-
Restoring division of `x` by `y`, one bit of the quotient in each round.

A round halves the divisor, which starts as `y * 2 ^ n`, subtracts it from the remainder if it
fits, and then sets its bit of the quotient.

* `Inv` — what holds with `k` rounds to go;
* `Inv.round` — a round keeps it;
* `Inv.quotient`, `Inv.remainder` — what it says behind the last round.
-/
import Mathlib

namespace RestoringDivision

/-- Remainder, divisor, quotient and bit of the division. -/
structure Numbers where
  rem : ℕ
  div : ℕ
  quot : ℕ
  bit : ℕ

def Numbers.round (s : Numbers) : Numbers :=
  if s.div / 2 ≤ s.rem then ⟨s.rem - s.div / 2, s.div / 2, s.quot ||| s.bit, s.bit / 2⟩
  else ⟨s.rem, s.div / 2, s.quot, s.bit / 2⟩

/-- What holds while `k` rounds are missing. -/
structure Inv (x y k : ℕ) (s : Numbers) : Prop where
  split : x = s.quot * y + s.rem
  rem_lt : s.rem < s.div
  div : s.div = y * 2 ^ k
  /-- the bits to come are 0 -/
  dvd : 2 ^ k ∣ s.quot
  /-- the bit of the next round, 0 behind the last one -/
  bit : s.bit = 2 ^ k / 2

variable {x y k : ℕ} {s : Numbers}

theorem Inv.start (n : ℕ) (hx : x < y * 2 ^ n) : Inv x y n ⟨x, y * 2 ^ n, 0, 2 ^ n / 2⟩ :=
  ⟨by rw [Nat.zero_mul, Nat.zero_add], hx, rfl, dvd_zero _, rfl⟩

/-- A bit that is 0 is set by an addition. -/
theorem or_bit {q k : ℕ} (hq : 2 ^ (k + 1) ∣ q) : q ||| 2 ^ k = q + 2 ^ k := by
  obtain ⟨c, rfl⟩ := hq
  exact (Nat.two_pow_add_eq_or_of_lt (Nat.pow_lt_pow_right (by omega) (by omega)) c).symm

theorem Inv.round (h : Inv x y (k + 1) s) : Inv x y k s.round := by
  have hdiv : s.div / 2 = y * 2 ^ k := by
    rw [h.div, Nat.pow_succ, ← Nat.mul_assoc, Nat.mul_div_cancel _ (by omega)]
  have hbit : s.bit = 2 ^ k := by
    rw [h.bit, Nat.pow_succ, Nat.mul_div_cancel _ (by omega)]
  have hdvd : 2 ^ k ∣ s.quot := (Nat.pow_dvd_pow 2 (Nat.le_succ k)).trans h.dvd
  have hlt : s.rem < 2 * (s.div / 2) := by
    have := h.rem_lt
    rw [h.div] at this
    rw [hdiv]
    calc s.rem < y * 2 ^ (k + 1) := this
      _ = 2 * (y * 2 ^ k) := by ring
  unfold Numbers.round
  split
  · next hle =>
    refine ⟨?_, ?_, hdiv, ?_, ?_⟩
    · show x = (s.quot ||| s.bit) * y + (s.rem - s.div / 2)
      rw [hbit, or_bit h.dvd, Nat.add_mul, Nat.mul_comm (2 ^ k) y, ← hdiv, Nat.add_assoc,
        Nat.add_sub_cancel' hle]
      exact h.split
    · show s.rem - s.div / 2 < s.div / 2
      omega
    · show 2 ^ k ∣ s.quot ||| s.bit
      rw [hbit, or_bit h.dvd]
      exact Nat.dvd_add hdvd dvd_rfl
    · show s.bit / 2 = _
      rw [hbit]
  · next hgt => exact ⟨h.split, not_le.mp hgt, hdiv, hdvd, by show s.bit / 2 = _; rw [hbit]⟩

theorem Inv.remainder (h : Inv x y 0 s) : s.rem = x % y := by
  have hlt : s.rem < y := by
    have := h.rem_lt
    rwa [h.div, Nat.pow_zero, Nat.mul_one] at this
  rw [h.split, Nat.add_comm, Nat.add_mul_mod_self_right, Nat.mod_eq_of_lt hlt]

theorem Inv.quotient (h : Inv x y 0 s) : s.quot = x / y := by
  have hlt : s.rem < y := by
    have := h.rem_lt
    rwa [h.div, Nat.pow_zero, Nat.mul_one] at this
  rw [h.split, Nat.add_comm, Nat.add_mul_div_right _ _ (by omega), Nat.div_eq_of_lt hlt,
    Nat.zero_add]

end RestoringDivision
