/-
Tables with free and occupied slots.

A table is a list, and `occ` tells its occupied entries.  The slots are filled and cleared in any
order, so the entries of a table are taken up to their order.

* `fill_perm` — filling a free slot adds one entry;
* `clear_perm` — clearing an occupied slot takes one entry away;
* `entries_grow`, `entries_compact` — a table keeps its entries when it grows and when it is
  compacted.
-/
import Mathlib

namespace Slots

variable {α : Type*} {occ : α → Bool} {t : List α} {i : ℕ} {x e : α} {f : α → α}

/-- The entries of a table. -/
def entries (occ : α → Bool) (t : List α) : List α := t.filter occ

theorem mem_entries : x ∈ entries occ t ↔ x ∈ t ∧ occ x = true := List.mem_filter

theorem fill_perm (h : t[i]? = some x) (hfree : occ x = false) (hfill : occ (f x) = true) :
    (entries occ (t.modify i f)).Perm (f x :: entries occ t) := by
  induction t generalizing i with
  | nil => exact absurd h (by simp)
  | cons y t ih =>
    rcases i with _ | i
    · obtain rfl : y = x := Option.some_inj.mp h
      simp [entries, List.modify_cons, hfree, hfill]
    · have hrest : (entries occ (t.modify i f)).Perm (f x :: entries occ t) := ih h
      rw [List.modify_succ_cons]
      unfold entries at hrest ⊢
      rcases hy : occ y
      · simpa [hy] using hrest
      · simpa [hy] using (hrest.cons y).trans (List.Perm.swap _ _ _)

theorem clear_perm (h : t[i]? = some x) (hocc : occ x = true) (hclear : occ (f x) = false) :
    (entries occ t).Perm (x :: entries occ (t.modify i f)) := by
  induction t generalizing i with
  | nil => exact absurd h (by simp)
  | cons y t ih =>
    rcases i with _ | i
    · obtain rfl : y = x := Option.some_inj.mp h
      simp [entries, List.modify_cons, hocc, hclear]
    · have hrest : (entries occ t).Perm (x :: entries occ (t.modify i f)) := ih h
      rw [List.modify_succ_cons]
      unfold entries at hrest ⊢
      rcases hy : occ y
      · simpa [hy] using hrest
      · simpa [hy] using (hrest.cons y).trans (List.Perm.swap _ _ _)

/-- Free slots behind the table. -/
theorem entries_grow (he : occ e = false) (t : List α) (n : ℕ) :
    entries occ (t ++ List.replicate n e) = entries occ t := by
  simp [entries, he]

/-- The entries at the front of a new table. -/
theorem entries_compact (he : occ e = false) (t : List α) (n : ℕ) :
    entries occ (entries occ t ++ List.replicate n e) = entries occ t := by
  rw [entries_grow he]
  simp [entries]

/-- A search that fails. -/
theorem findIdx?_none {p : α → Bool} (h : t.findIdx? p = none) : ∀ y ∈ t, p y = false := by
  simpa using h

/-- A search that succeeds. -/
theorem findIdx?_some {p : α → Bool} (h : t.findIdx? p = some i) :
    ∃ y, t[i]? = some y ∧ p y = true := by
  obtain ⟨hlt, hp, -⟩ := List.findIdx?_eq_some_iff_getElem.mp h
  exact ⟨t[i], List.getElem?_eq_getElem hlt, hp⟩

end Slots
