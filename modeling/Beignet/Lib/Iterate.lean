/-
Loops of the form `do { changed = false; … } while (changed)`.

One round is a function `step : σ → σ × Bool` that returns the new state and
whether it changed anything; `untilStable step` repeats it, with an amount of
fuel, until a round reports no change.

* `untilStable_spec` — when a measure drops in every round that reports a change,
  enough fuel is enough, and the result comes from a round without a change;
* `untilStable_iterate` — the result when the number of rounds is known.

`whileDo` is the loop `while (cond) body` in the same way.

* `whileDo_eq` — the result when the number of turns is known;
* `whileDo_some` — the number of turns, from the result;
* `whileDo_eq_none` — no amount of fuel is enough when the condition goes on to hold.
-/
import Mathlib

namespace Iterate

variable {σ : Type*}

/-- Repeat `step` until it reports no change; `none` when the fuel runs out. -/
def untilStable (step : σ → σ × Bool) : ℕ → σ → Option σ
  | 0, _ => none
  | n + 1, s => if (step s).2 then untilStable step n (step s).1 else some (step s).1

theorem untilStable_spec {step : σ → σ × Bool} {I : σ → Prop} (μ : σ → ℕ)
    (hI : ∀ s, I s → I (step s).1)
    (hμ : ∀ s, I s → (step s).2 = true → μ (step s).1 < μ s) :
    ∀ (k : ℕ) (s : σ), μ s ≤ k → I s →
      ∃ t, I t ∧ (step t).2 = false ∧ ∀ n, k < n → untilStable step n s = some (step t).1 := by
  intro k
  induction k with
  | zero =>
    intro s hk hs
    have hstop : (step s).2 = false := by
      by_contra hgo
      have := hμ s hs (by simpa using hgo)
      omega
    refine ⟨s, hs, hstop, fun n hn => ?_⟩
    obtain ⟨m, rfl⟩ := Nat.exists_eq_succ_of_ne_zero (by omega : n ≠ 0)
    simp [untilStable, hstop]
  | succ k ih =>
    intro s hk hs
    by_cases hgo : (step s).2 = true
    · have hdrop := hμ s hs hgo
      obtain ⟨t, ht, hstop, hn⟩ := ih (step s).1 (by omega) (hI s hs)
      refine ⟨t, ht, hstop, fun n hlt => ?_⟩
      obtain ⟨m, rfl⟩ := Nat.exists_eq_succ_of_ne_zero (by omega : n ≠ 0)
      rw [untilStable, if_pos hgo, hn m (by omega)]
    · refine ⟨s, hs, by simpa using hgo, fun n hlt => ?_⟩
      obtain ⟨m, rfl⟩ := Nat.exists_eq_succ_of_ne_zero (by omega : n ≠ 0)
      rw [untilStable, if_neg hgo]

theorem untilStable_iterate {step : σ → σ × Bool} {n : ℕ} {s : σ}
    (hgo : ∀ k < n, (step ((fun s => (step s).1)^[k] s)).2 = true)
    (hstop : (step ((fun s => (step s).1)^[n] s)).2 = false) {fuel : ℕ} (hfuel : n < fuel) :
    untilStable step fuel s = some ((fun s => (step s).1)^[n + 1] s) := by
  induction n generalizing s fuel with
  | zero =>
    obtain ⟨m, rfl⟩ := Nat.exists_eq_succ_of_ne_zero (by omega : fuel ≠ 0)
    have hstop' : (step s).2 = false := hstop
    simp [untilStable, hstop']
  | succ n ih =>
    obtain ⟨m, rfl⟩ := Nat.exists_eq_succ_of_ne_zero (by omega : fuel ≠ 0)
    have hfirst : (step s).2 = true := hgo 0 (by omega)
    rw [untilStable, if_pos hfirst]
    exact ih (fun k hk => hgo (k + 1) (by omega)) hstop (by omega)

/-! ### Loops of the form `while (cond) body` -/

/-- At most `fuel` tests. -/
def whileDo (cond : σ → Bool) (body : σ → σ) : ℕ → σ → Option σ
  | 0, _ => none
  | fuel + 1, s => if cond s then whileDo cond body fuel (body s) else some s

variable {cond : σ → Bool} {body : σ → σ} {s : σ} {fuel : ℕ}

theorem whileDo_eq {n : ℕ} (hgo : ∀ k < n, cond (body^[k] s) = true)
    (hstop : cond (body^[n] s) = false) (hfuel : n < fuel) :
    whileDo cond body fuel s = some (body^[n] s) := by
  induction n generalizing s fuel with
  | zero =>
    obtain ⟨m, rfl⟩ := Nat.exists_eq_succ_of_ne_zero (by omega : fuel ≠ 0)
    have hstop' : cond s = false := hstop
    simp [whileDo, hstop']
  | succ n ih =>
    obtain ⟨m, rfl⟩ := Nat.exists_eq_succ_of_ne_zero (by omega : fuel ≠ 0)
    have hfirst : cond s = true := hgo 0 (by omega)
    rw [whileDo, if_pos hfirst]
    exact ih (fun k hk => hgo (k + 1) (by omega)) hstop (by omega)

/-- What the loop ends with. -/
theorem whileDo_some {t : σ}
    (h : whileDo cond body fuel s = some t) :
    ∃ n, t = body^[n] s ∧ (∀ k < n, cond (body^[k] s) = true) ∧ cond (body^[n] s) = false := by
  induction fuel generalizing s with
  | zero => cases h
  | succ fuel ih =>
    rw [whileDo] at h
    split_ifs at h with hgo
    · obtain ⟨n, ht, hbefore, hstop⟩ := ih h
      refine ⟨n + 1, ht, fun k hk => ?_, hstop⟩
      cases k with
      | zero => exact hgo
      | succ k => exact hbefore k (Nat.lt_of_succ_lt_succ hk)
    · exact ⟨0, (Option.some_inj.mp h).symm, fun k hk => absurd hk (Nat.not_lt_zero k),
        Bool.eq_false_of_not_eq_true hgo⟩

/-- A loop whose condition goes on to hold does not end. -/
theorem whileDo_eq_none (hgo : ∀ k, cond (body^[k] s) = true) :
    whileDo cond body fuel s = none := by
  induction fuel generalizing s with
  | zero => rfl
  | succ fuel ih =>
    have hfirst : cond s = true := hgo 0
    rw [whileDo, if_pos hfirst]
    exact ih fun k => hgo (k + 1)

end Iterate
