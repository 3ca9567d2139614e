/-
Copies within one memory, byte after byte.

Byte `i` behind `dst` gets the byte that `source i` holds when its turn comes.  The copy is exact
when it leaves what the old bytes say; it fails to be only where a byte that is still to be read
has been overwritten with another one.

* `run_of_lt` — each byte keeps what it got in its turn;
* `run_eq_of_safe` — the copy is exact when no byte is lost;
* **`exact_iff`** — and only then;
* `displaced`, `source_zero` — what an exact copy says about the addresses it used.
-/
import Mathlib

namespace InPlace

variable {β : Type*}

abbrev Memory (β : Type*) := ℕ → β

/-- The memory after the first `n` bytes. -/
def run (dst : ℕ) (source : ℕ → ℕ) (m : Memory β) : ℕ → Memory β
  | 0 => m
  | n + 1 => Function.update (run dst source m n) (dst + n) (run dst source m n (source n))

/-- The old bytes at their new places. -/
def copied (dst : ℕ) (source : ℕ → ℕ) (m : Memory β) (n : ℕ) : Memory β :=
  fun x => if dst ≤ x ∧ x < dst + n then m (source (x - dst)) else m x

/-- A byte is read before it is overwritten, or overwritten with itself. -/
def Safe (dst : ℕ) (source : ℕ → ℕ) (n : ℕ) : Prop :=
  ∀ j < n, ∀ i < j, dst + i = source j → source i = source j

variable {dst : ℕ} {source : ℕ → ℕ}

theorem run_succ (m : Memory β) (n : ℕ) : run dst source m (n + 1) =
    Function.update (run dst source m n) (dst + n) (run dst source m n (source n)) := rfl

theorem copied_of_lt (m : Memory β) {n i : ℕ} (hi : i < n) :
    copied dst source m n (dst + i) = m (source i) := by
  rw [copied, if_pos (by omega), Nat.add_sub_cancel_left]

theorem copied_of_notMem (m : Memory β) {n x : ℕ} (hx : x < dst ∨ dst + n ≤ x) :
    copied dst source m n x = m x := if_neg (by omega)

theorem run_of_notMem (m : Memory β) {n x : ℕ} (hx : x < dst ∨ dst + n ≤ x) :
    run dst source m n x = m x := by
  induction n with
  | zero => rfl
  | succ n ih =>
    rw [run_succ, Function.update_of_ne (by omega)]
    exact ih (by omega)

/-- Each byte keeps what it got in its turn. -/
theorem run_of_lt (m : Memory β) {n i : ℕ} (hi : i < n) :
    run dst source m n (dst + i) = run dst source m i (source i) := by
  induction n with
  | zero => omega
  | succ n ih =>
    rw [run_succ]
    obtain rfl | hlt : i = n ∨ i < n := by omega
    · rw [Function.update_self]
    · rw [Function.update_of_ne (by omega), ih hlt]

/-- The copy is right up to byte `n` if no byte before it is lost. -/
theorem run_eq_of_safe {n : ℕ} (h : Safe dst source n) (m : Memory β) :
    run dst source m n = copied dst source m n := by
  induction n with
  | zero =>
    funext x
    exact (copied_of_notMem m (by omega)).symm
  | succ n ih =>
    have ih := ih fun j hj => h j (by omega)
    have hread : run dst source m n (source n) = m (source n) := by
      rw [ih]
      by_cases hin : dst ≤ source n ∧ source n < dst + n
      · -- the byte read was written before, with its own value
        have hsame := h n n.lt_succ_self (source n - dst) (by omega) (by omega)
        rw [copied, if_pos hin, hsame]
      · exact copied_of_notMem m (by omega)
    rw [run_succ, hread, ih]
    funext x
    by_cases hx : x = dst + n
    · rw [hx, Function.update_self, copied_of_lt m n.lt_succ_self]
    · rw [Function.update_of_ne hx]
      by_cases hin : dst ≤ x ∧ x < dst + n
      · rw [copied, if_pos hin, copied, if_pos (by omega)]
      · rw [copied_of_notMem m (by omega), copied_of_notMem m (by omega)]

/-- Two places that hold the same in every memory are one. -/
theorem eq_of_forall [Nontrivial β] {a b : ℕ} (h : ∀ m : Memory β, m a = m b) : a = b := by
  by_contra hne
  obtain ⟨u, v, huv⟩ := exists_pair_ne β
  have hm := h (Function.update (fun _ => u) b v)
  rw [Function.update_self, Function.update_of_ne hne] at hm
  exact huv hm

/-- **Exact copies.**  The copy leaves the old bytes at their new places in every memory exactly
when no byte is lost before it is read. -/
theorem exact_iff [Nontrivial β] {n : ℕ} :
    (∀ m : Memory β, run dst source m n = copied dst source m n) ↔ Safe dst source n := by
  refine ⟨fun h => ?_, run_eq_of_safe⟩
  -- by induction on the byte read: the bytes before it are known to be right
  intro j
  induction j using Nat.strongRecOn with
  | ind j ih =>
    intro hj i hi hclash
    refine eq_of_forall (β := β) fun m => ?_
    have hsafe : Safe dst source j := fun k hk => ih k hk (by omega)
    have hgot : m (source j) = run dst source m j (source j) := by
      rw [← run_of_lt m hj, h m, copied_of_lt m hj]
    rw [hgot, ← hclash, run_eq_of_safe hsafe m, copied_of_lt m hi]

/-- A copy to a lower address is exact only if both its ends stay as they are. -/
theorem displaced [Nontrivial β] {dst' : ℕ} {source' : ℕ → ℕ} {n : ℕ} (hn : 0 < n)
    (hlt : dst' < dst)
    (h : ∀ m : Memory β, run dst' source' m n = copied dst source m n) :
    source' 0 = dst' ∧ source (n - 1) = dst + (n - 1) := by
  constructor
  · refine eq_of_forall (β := β) fun m => ?_
    have hfirst : run dst' source' m n dst' = m (source' 0) := run_of_lt m hn
    rw [← hfirst, h m, copied_of_notMem m (.inl hlt)]
  · refine eq_of_forall (β := β) fun m => ?_
    rw [← copied_of_lt m (Nat.sub_lt hn Nat.one_pos), ← h m, run_of_notMem m (by omega)]

/-- An exact copy to the right address starts at the right source. -/
theorem source_zero [Nontrivial β] {source' : ℕ → ℕ} {n : ℕ} (hn : 0 < n)
    (h : ∀ m : Memory β, run dst source' m n = copied dst source m n) :
    source' 0 = source 0 := by
  refine eq_of_forall (β := β) fun m => ?_
  have hfirst : run dst source' m n (dst + 0) = m (source' 0) := run_of_lt m hn
  rw [← hfirst, h m, copied_of_lt m hn]

end InPlace
