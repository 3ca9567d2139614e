/-
Loops that write one place after another.

The `i`-th turn writes the place `dst i` with a value that may depend on the memory by then.  The
places may be of any kind; those that are written are different.  A copy takes what another place
`src i` holds when its turn comes.

* `run_of_lt` — each place keeps what it got in its turn;
* `written_run` — the result when the values do not depend on the memory;
* **`copied_run_iff`** — the loop is a copy in every memory exactly when no place is read after it
  has been written with something else.
-/
import Mathlib

namespace CopyLoop

variable {X V : Type*} {dst src : ℕ → X} {n : ℕ}

/-- The places that are written are different. -/
def Distinct (dst : ℕ → X) (n : ℕ) : Prop := ∀ i j, i < n → j < n → dst i = dst j → i = j

theorem Distinct.mono {k : ℕ} (h : Distinct dst n) (hk : k ≤ n) : Distinct dst k :=
  fun i j hi hj => h i j (hi.trans_le hk) (hj.trans_le hk)

variable [DecidableEq X]

/-- The memory after the first `n` turns. -/
def run (dst : ℕ → X) (value : (X → V) → ℕ → V) (m : X → V) : ℕ → X → V
  | 0 => m
  | n + 1 => Function.update (run dst value m n) (dst n) (value (run dst value m n) n)

variable {value : (X → V) → ℕ → V} {m : X → V}

theorem run_succ : run dst value m (n + 1) =
    Function.update (run dst value m n) (dst n) (value (run dst value m n) n) := rfl

theorem run_of_ne {x : X} (h : ∀ i < n, x ≠ dst i) : run dst value m n x = m x := by
  induction n with
  | zero => rfl
  | succ n ih =>
    rw [run_succ, Function.update_of_ne (h n n.lt_succ_self)]
    exact ih fun i hi => h i (hi.trans n.lt_succ_self)

theorem run_congr {value' : (X → V) → ℕ → V}
    (h : ∀ i < n, value (run dst value' m i) i = value' (run dst value' m i) i) :
    run dst value m n = run dst value' m n := by
  induction n with
  | zero => rfl
  | succ n ih =>
    rw [run_succ, run_succ, ih fun i hi => h i (hi.trans n.lt_succ_self), h n n.lt_succ_self]

/-- Each place keeps what it got in its turn. -/
theorem run_of_lt (hd : Distinct dst n) {i : ℕ} (hi : i < n) :
    run dst value m n (dst i) = value (run dst value m i) i := by
  induction n with
  | zero => exact absurd hi i.not_lt_zero
  | succ n ih =>
    rw [run_succ]
    rcases Nat.lt_succ_iff_lt_or_eq.mp hi with hlt | rfl
    · have hne : dst i ≠ dst n := fun heq => hlt.ne (hd i n hi n.lt_succ_self heq)
      rw [Function.update_of_ne hne, ih (hd.mono n.le_succ) hlt]
    · exact Function.update_self _ _ _

/-- `m'` has the values at the places and is `m` elsewhere. -/
structure Written (dst : ℕ → X) (v : ℕ → V) (n : ℕ) (m m' : X → V) : Prop where
  value : ∀ i < n, m' (dst i) = v i
  frame : ∀ x, (∀ i < n, x ≠ dst i) → m' x = m x

/-- Values that do not depend on the memory. -/
theorem written_run (hd : Distinct dst n) (v : ℕ → V) :
    Written dst v n m (run dst (fun _ i => v i) m n) :=
  ⟨fun _ hi => run_of_lt hd hi, fun _ => run_of_ne⟩

/-! ### Copies -/

/-- `m'` has the old contents at the new places and is `m` elsewhere. -/
structure Copied (dst src : ℕ → X) (n : ℕ) (m m' : X → V) : Prop where
  value : ∀ i < n, m' (dst i) = m (src i)
  frame : ∀ x, (∀ i < n, x ≠ dst i) → m' x = m x

/-- The value of a turn of a copy. -/
def load (src : ℕ → X) (m : X → V) (i : ℕ) : V := m (src i)

/-- What is read has not been written with something else. -/
def Safe (dst src : ℕ → X) (n : ℕ) : Prop := ∀ j < n, ∀ i < j, dst i = src j → src i = src j

theorem copied_run (hd : Distinct dst n) (h : Safe dst src n) :
    Copied dst src n m (run dst (load src) m n) := by
  refine ⟨fun i hi => ?_, fun x => run_of_ne⟩
  rw [run_of_lt hd hi, load]
  induction i using Nat.strongRecOn with
  | ind i ih =>
    by_cases hread : ∃ k < i, dst k = src i
    · obtain ⟨k, hk, heq⟩ := hread
      rw [← heq, run_of_lt (hd.mono hi.le) hk, load, ih k hk (hk.trans hi), h i hi k hk heq, heq]
    · exact run_of_ne fun k hk heq => hread ⟨k, hk, heq.symm⟩

omit [DecidableEq X] in
/-- Two places that hold the same in every memory are one. -/
theorem eq_of_forall [Nontrivial V] {x y : X} (h : ∀ m : X → V, m x = m y) : x = y := by
  classical
  by_contra hne
  obtain ⟨u, v, huv⟩ := exists_pair_ne V
  have hm := h (Function.update (fun _ => u) y v)
  rw [Function.update_self, Function.update_of_ne hne] at hm
  exact huv hm

theorem copied_run_iff [Nontrivial V] (hd : Distinct dst n) :
    (∀ m : X → V, Copied dst src n m (run dst (load src) m n)) ↔ Safe dst src n := by
  refine ⟨fun h j hj i hi hclash => ?_, fun h m => copied_run hd h⟩
  refine eq_of_forall (V := V) fun m => ?_
  -- the place has been written in turn `i` and keeps it up to turn `j`
  have hgot : run dst (load src) m j (src j) = m (src j) := by
    have hturn : run dst (load src) m n (dst j) = run dst (load src) m j (src j) :=
      run_of_lt hd hj
    rw [← hturn, (h m).value j hj]
  have hkept : run dst (load src) m n (dst i) = run dst (load src) m j (dst i) := by
    rw [run_of_lt hd (hi.trans hj), run_of_lt (hd.mono hj.le) hi]
  rw [← (h m).value i (hi.trans hj), hkept, hclash, hgot]

end CopyLoop
