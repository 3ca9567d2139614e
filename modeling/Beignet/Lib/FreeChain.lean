/-
Lists that are threaded through their own cells.

A cell `a` holds the address `link a` of the next one, and `null` ends the list.

* `Chain.push` — a cell that gets the old head as its link becomes the head;
* `Chain.pop` — the link of the head is the head of the rest;
* `Chain.congr` — cells of other lists may change.
-/
import Mathlib

namespace FreeChain

variable {α : Type*} {link link' : α → α} {null p a : α} {l : List α}

/-- The cells from the head `p` on. -/
def Chain (link : α → α) (null : α) : α → List α → Prop
  | p, [] => p = null
  | p, a :: l => p = a ∧ a ≠ null ∧ Chain link null (link a) l

theorem Chain.congr (h : Chain link null p l) (hlink : ∀ a ∈ l, link' a = link a) :
    Chain link' null p l := by
  induction l generalizing p with
  | nil => exact h
  | cons a l ih =>
    obtain ⟨rfl, ha, hrest⟩ := h
    refine ⟨rfl, ha, ?_⟩
    rw [hlink p List.mem_cons_self]
    exact ih hrest fun b hb => hlink b (List.mem_cons_of_mem _ hb)

theorem Chain.push (h : Chain link null p l) (ha : a ≠ null) (hhead : link' a = p)
    (hlink : ∀ b ∈ l, link' b = link b) : Chain link' null a (a :: l) :=
  ⟨rfl, ha, hhead.symm ▸ h.congr hlink⟩

theorem Chain.pop (h : Chain link null p l) (hp : p ≠ null) :
    ∃ rest, l = p :: rest ∧ Chain link null (link p) rest := by
  cases l with
  | nil => exact absurd h hp
  | cons a rest =>
    obtain ⟨rfl, -, hrest⟩ := h
    exact ⟨rest, rfl, hrest⟩

/-- A list without cells ends at once. -/
theorem Chain.mem_of_ne (h : Chain link null p l) (hp : p ≠ null) : p ∈ l := by
  obtain ⟨rest, rfl, -⟩ := h.pop hp
  exact List.mem_cons_self

end FreeChain
