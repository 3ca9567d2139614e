/-
The sorted interval storage of the register allocator (`gen_reg_allocation_intervals.hpp`)
beside the sorted pointers that it replaces (`gen_reg_allocation.cpp`).

Both sort with `std::sort`, which leaves open in which order elements come that compare
alike.  The pointers are compared by both ends of the intervals, the indices of the storage
by one end only.

* `starts_agree_iff`, `ends_agree_iff` — when the two orders show the same intervals.
* **`orders_agree_iff`** — both at once, as the validation compares them.
-/
import Beignet.Lib.Sorting

namespace Backend

namespace IntervalStore

open Sorting

/-- The fields that the orders and their validation read. -/
structure GenRegInterval where
  reg : ℕ
  minID : ℤ
  maxID : ℤ
  deriving DecidableEq

/-- `cmp`, on the intervals behind the pointers -/
def cmp (sortStartingPoint : Bool) (i0 i1 : GenRegInterval) : Bool :=
  if sortStartingPoint then
    if i0.minID = i1.minID then decide (i0.maxID < i1.maxID) else decide (i0.minID < i1.minID)
  else
    if i0.maxID = i1.maxID then decide (i0.minID < i1.minID) else decide (i0.maxID < i1.maxID)

section Store

variable (intervals : List GenRegInterval)

/-- `sortByStart` leaves some order of the indices in `startingSorted_`. -/
def SortByStart (order : List (Fin intervals.length)) : Prop :=
  SortsTo (fun a b => decide ((intervals.get a).minID < (intervals.get b).minID))
    (List.finRange intervals.length) order

/-- `sortByEnd` leaves some order of the indices in `endingSorted_`. -/
def SortByEnd (order : List (Fin intervals.length)) : Prop :=
  SortsTo (fun a b => decide ((intervals.get a).maxID < (intervals.get b).maxID))
    (List.finRange intervals.length) order

/-- `starting` or `ending`, sorted with `cmp`; a pointer is the index it points to -/
def SortPointers (sortStartingPoint : Bool) (pointers : List (Fin intervals.length)) : Prop :=
  SortsTo (fun a b => cmp sortStartingPoint (intervals.get a) (intervals.get b))
    (List.finRange intervals.length) pointers

/-- The intervals in some order, `byStart` and `byEnd` position by position. -/
def inOrder (order : List (Fin intervals.length)) : List GenRegInterval :=
  order.map intervals.get

end Store

/-! ### The keys -/

/-- What `cmp` compares. -/
def cmpKey (sortStartingPoint : Bool) (i : GenRegInterval) : ℤ ×ₗ ℤ :=
  if sortStartingPoint then toLex (i.minID, i.maxID) else toLex (i.maxID, i.minID)

theorem cmp_iff (sortStartingPoint : Bool) (i0 i1 : GenRegInterval) :
    cmp sortStartingPoint i0 i1 = true ↔
      cmpKey sortStartingPoint i0 < cmpKey sortStartingPoint i1 := by
  cases sortStartingPoint with
  | false =>
    simp only [cmp, cmpKey, Bool.false_eq_true, if_false, Prod.Lex.toLex_lt_toLex]
    split_ifs with h
    · simp [h]
    · simp [h]
  | true =>
    simp only [cmp, cmpKey, if_true, Prod.Lex.toLex_lt_toLex]
    split_ifs with h
    · simp [h]
    · simp [h]

variable {intervals : List GenRegInterval}

theorem pointers_compare (sortStartingPoint : Bool) :
    ComparesBy (fun a b => cmp sortStartingPoint (intervals.get a) (intervals.get b))
      fun a => cmpKey sortStartingPoint (intervals.get a) :=
  fun a b => cmp_iff sortStartingPoint (intervals.get a) (intervals.get b)

theorem starts_compare :
    ComparesBy (fun a b => decide ((intervals.get a).minID < (intervals.get b).minID))
      fun a => (intervals.get a).minID :=
  fun _ _ => decide_eq_true_iff

theorem ends_compare :
    ComparesBy (fun a b => decide ((intervals.get a).maxID < (intervals.get b).maxID))
      fun a => (intervals.get a).maxID :=
  fun _ _ => decide_eq_true_iff

/-- A key is compared before all else. -/
theorem fst_le_of_cmpKey_le {x y x' y' : ℤ} (h : toLex (x, y) ≤ toLex (x', y')) : x ≤ x' := by
  rcases Prod.Lex.toLex_le_toLex.mp h with hlt | ⟨heq, -⟩
  · exact hlt.le
  · exact heq.le

/-- Indices show what their intervals are. -/
theorem forall_index_iff {key : GenRegInterval → ℤ} :
    (∀ a ∈ List.finRange intervals.length, ∀ b ∈ List.finRange intervals.length,
      key (intervals.get a) = key (intervals.get b) → intervals.get a = intervals.get b) ↔
        ∀ i ∈ intervals, ∀ j ∈ intervals, key i = key j → i = j := by
  constructor
  · intro h i hi j hj hkey
    obtain ⟨a, rfl⟩ := List.get_of_mem hi
    obtain ⟨b, rfl⟩ := List.get_of_mem hj
    exact h a (List.mem_finRange a) b (List.mem_finRange b) hkey
  · intro h a _ b _ hkey
    exact h _ (List.get_mem intervals a) _ (List.get_mem intervals b) hkey

/-! ### The orders -/

theorem starts_agree_iff :
    (∀ order pointers, SortByStart intervals order → SortPointers intervals true pointers →
      inOrder intervals order = inOrder intervals pointers) ↔
        ∀ i ∈ intervals, ∀ j ∈ intervals, i.minID = j.minID → i = j := by
  rw [← forall_index_iff]
  refine map_eq_iff starts_compare (pointers_compare true) ?_ _
  intro a b h
  exact fst_le_of_cmpKey_le h

theorem ends_agree_iff :
    (∀ order pointers, SortByEnd intervals order → SortPointers intervals false pointers →
      inOrder intervals order = inOrder intervals pointers) ↔
        ∀ i ∈ intervals, ∀ j ∈ intervals, i.maxID = j.maxID → i = j := by
  rw [← forall_index_iff]
  refine map_eq_iff ends_compare (pointers_compare false) ?_ _
  intro a b h
  exact fst_le_of_cmpKey_le h

/-- Whatever `std::sort` does with ties, the storage and the pointers give the same
intervals in the same places, exactly when no two different intervals start or end at one
place. -/
theorem orders_agree_iff (intervals : List GenRegInterval) :
    ((∀ order pointers, SortByStart intervals order → SortPointers intervals true pointers →
        inOrder intervals order = inOrder intervals pointers) ∧
      ∀ order pointers, SortByEnd intervals order → SortPointers intervals false pointers →
        inOrder intervals order = inOrder intervals pointers) ↔
      (∀ i ∈ intervals, ∀ j ∈ intervals, i.minID = j.minID → i = j) ∧
        ∀ i ∈ intervals, ∀ j ∈ intervals, i.maxID = j.maxID → i = j :=
  and_congr starts_agree_iff ends_agree_iff

/-- Two registers that start together, the longer first.  By their starts they can stay as
they are, and so they do under insertion; by both ends they cannot. -/
theorem tie_not_agreed :
    let intervals : List GenRegInterval := [⟨0, 5, 9⟩, ⟨1, 5, 7⟩]
    SortByStart intervals [0, 1] ∧ SortPointers intervals true [1, 0] ∧
      ¬ SortPointers intervals true [0, 1] ∧
      inOrder intervals [0, 1] ≠ inOrder intervals [1, 0] := by
  refine ⟨⟨List.Perm.refl _, by decide⟩, ⟨List.Perm.swap _ _ _, by decide⟩, ?_, by decide⟩
  rintro ⟨-, hsorted⟩
  revert hsorted
  decide

end IntervalStore

end Backend
