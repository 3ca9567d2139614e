/-
Loops `for (i = 0; i < n; i++)` whose counter has `w` bits and whose bound may have more.

The counter wraps around, so a bound that it cannot reach is never passed.  A run is given one test
more than the counter has values.

* `loop_eq` — below `2 ^ w` the body is done `n` times;
* `loop_eq_none` — from `2 ^ w` on the loop does not end.
-/
import Mathlib

namespace CountedLoop

variable {σ : Type*} {w : ℕ}

/-- At most `fuel` tests of the loop, from the counter `i` on. -/
def run (n : ℕ) (body : σ → Option σ) : ℕ → BitVec w → σ → Option σ
  | 0, _, _ => none
  | fuel + 1, i, s => if i.toNat < n then (body s).bind (run n body fuel (i + 1)) else some s

/-- The state behind the loop, if it ends. -/
def loop (w n : ℕ) (body : σ → Option σ) (s : σ) : Option σ :=
  run n body (2 ^ w + 1) (0 : BitVec w) s

theorem run_eq {n : ℕ} (hn : n < 2 ^ w) (f : σ → σ) (fuel : ℕ) (i : BitVec w) (s : σ)
    (hi : i.toNat ≤ n) (hfuel : n - i.toNat < fuel) :
    run n (fun s => some (f s)) fuel i s = some (f^[n - i.toNat] s) := by
  induction fuel generalizing i s with
  | zero => omega
  | succ fuel ih =>
    rw [run]
    split_ifs with hlt
    · -- the counter does not wrap below the bound
      have hstep : (i + 1).toNat = i.toNat + 1 := by
        have hone : (1 : BitVec w).toNat = 1 % 2 ^ w := rfl
        rw [BitVec.toNat_add, hone, Nat.add_mod_mod, Nat.mod_eq_of_lt (by omega)]
      show run n _ fuel (i + 1) (f s) = _
      rw [ih (i + 1) (f s) (by omega) (by omega), ← Function.iterate_succ_apply, hstep]
      congr 2
      omega
    · rw [Nat.sub_eq_zero_of_le (by omega)]
      rfl

theorem loop_eq {n : ℕ} (hn : n < 2 ^ w) (f : σ → σ) (s : σ) :
    loop w n (fun s => some (f s)) s = some (f^[n] s) := by
  have hzero : (0 : BitVec w).toNat = 0 := rfl
  have h := run_eq hn f (2 ^ w + 1) 0 s (by omega) (by omega)
  rwa [hzero, Nat.sub_zero] at h

theorem run_eq_none {n : ℕ} (hn : 2 ^ w ≤ n) (body : σ → Option σ) (fuel : ℕ) (i : BitVec w)
    (s : σ) : run n body fuel i s = none := by
  induction fuel generalizing i s with
  | zero => rfl
  | succ fuel ih =>
    rw [run, if_pos (i.isLt.trans_le hn)]
    cases body s with
    | none => rfl
    | some s' => exact ih (i + 1) s'

theorem loop_eq_none {n : ℕ} (hn : 2 ^ w ≤ n) (body : σ → Option σ) (s : σ) :
    loop w n body s = none := run_eq_none hn body _ _ s

/-- A loop that is entered does not end if its body does not. -/
theorem loop_of_body_none {n : ℕ} (hn : 0 < n) (s : σ) :
    loop w n (fun _ => none) s = none := if_pos hn

end CountedLoop
