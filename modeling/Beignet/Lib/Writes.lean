/-
Lists of writes to a store.

* `write_of_mem` — where all writes to a place agree, it holds what they write;
* `exists_write` — a place that is written holds what one of the writes to it writes;
* `write_of_notMem` — a place that is not written keeps its content.
-/
import Mathlib

namespace Writes

variable {X V : Type*} [DecidableEq X]

/-- The store after the writes, one after another. -/
def write (l : List (X × V)) (s : X → V) : X → V :=
  l.foldl (fun s p => Function.update s p.1 p.2) s

variable {l : List (X × V)} {s : X → V} {x : X} {v : V}

theorem write_append (l l' : List (X × V)) (s : X → V) :
    write (l ++ l') s = write l' (write l s) := List.foldl_append

theorem write_of_notMem (h : ∀ p ∈ l, p.1 ≠ x) : write l s x = s x := by
  induction l generalizing s with
  | nil => rfl
  | cons p l ih =>
    show write l (Function.update s p.1 p.2) x = s x
    rw [ih fun q hq => h q (List.mem_cons_of_mem _ hq),
      Function.update_of_ne (h p List.mem_cons_self).symm]

/-- The last write to a place. -/
theorem exists_write (hmem : ∃ p ∈ l, p.1 = x) : ∃ p ∈ l, p.1 = x ∧ write l s x = p.2 := by
  induction l generalizing s with
  | nil => simp at hmem
  | cons p l ih =>
    by_cases hrest : ∃ q ∈ l, q.1 = x
    · obtain ⟨q, hq, hqx, hwrite⟩ := ih hrest
      exact ⟨q, List.mem_cons_of_mem _ hq, hqx, hwrite⟩
    · -- the first write is the last one to this place
      have hp : p.1 = x := by
        obtain ⟨q, hq, hqx⟩ := hmem
        rcases List.mem_cons.mp hq with rfl | hq
        · exact hqx
        · exact absurd ⟨q, hq, hqx⟩ hrest
      refine ⟨p, List.mem_cons_self, hp, ?_⟩
      show write l (Function.update s p.1 p.2) x = p.2
      rw [write_of_notMem fun q hq hqx => hrest ⟨q, hq, hqx⟩, ← hp, Function.update_self]

theorem write_of_mem (hmem : ∃ p ∈ l, p.1 = x) (h : ∀ p ∈ l, p.1 = x → p.2 = v) :
    write l s x = v := by
  obtain ⟨p, hp, hpx, hwrite⟩ := @exists_write _ _ _ l s x hmem
  rw [hwrite, h p hp hpx]

theorem write_of_forall (hs : s x = v) (h : ∀ p ∈ l, p.1 = x → p.2 = v) : write l s x = v := by
  by_cases hmem : ∃ p ∈ l, p.1 = x
  · exact write_of_mem hmem h
  · rw [write_of_notMem fun p hp hpx => hmem ⟨p, hp, hpx⟩, hs]

end Writes
