/-
Sorting that leaves ties open, as `std::sort` does.

A result of sorting has the elements of the list, and no element stands before one that
compares smaller.  Which of two that compare alike comes first is not said, so statements
are about every result.

* `exists_sortsTo` — a comparison of keys has a result.
* `SortsTo.map_eq` — what the keys determine is the same in every result.
* `map_eq_iff` — a coarse and a fine comparison show the same exactly when the coarse keys
  determine what is shown.
-/
import Mathlib

namespace Sorting

variable {α β κ κ' : Type*} [LinearOrder κ] [LinearOrder κ']

def SortsTo (comp : α → α → Bool) (l l' : List α) : Prop :=
  l'.Perm l ∧ l'.Pairwise fun a b => comp b a = false

/-- The comparison is the one of the keys. -/
def ComparesBy (comp : α → α → Bool) (key : α → κ) : Prop :=
  ∀ a b, comp a b = true ↔ key a < key b

variable {comp comp' : α → α → Bool} {key : α → κ} {key' : α → κ'} {l l' l'' : List α}

theorem SortsTo.perm (h : SortsTo comp l l') : l'.Perm l := h.1

theorem sortsTo_iff (hcomp : ComparesBy comp key) :
    SortsTo comp l l' ↔ l'.Perm l ∧ l'.Pairwise fun a b => key a ≤ key b := by
  have hle : ∀ a b, comp b a = false ↔ key a ≤ key b := by
    intro a b
    rw [← not_lt, ← hcomp b a, Bool.not_eq_true]
  simp only [SortsTo, hle]

theorem SortsTo.sorted (h : SortsTo comp l l') (hcomp : ComparesBy comp key) :
    l'.Pairwise fun a b => key a ≤ key b :=
  ((sortsTo_iff hcomp).mp h).2

theorem exists_sortsTo (hcomp : ComparesBy comp key) (l : List α) : ∃ l', SortsTo comp l l' := by
  have htotal : Std.Total fun a b => key a ≤ key b := ⟨fun a b => le_total (key a) (key b)⟩
  have htrans : IsTrans α fun a b => key a ≤ key b := ⟨fun _ _ _ h h' => le_trans h h'⟩
  refine ⟨l.insertionSort fun a b => key a ≤ key b, (sortsTo_iff hcomp).mpr ⟨?_, ?_⟩⟩
  · exact List.perm_insertionSort _ l
  · exact List.pairwise_insertionSort _ l

/-- A result of a finer comparison is one of a coarser. -/
theorem SortsTo.coarsen (h : SortsTo comp' l l') (hcomp' : ComparesBy comp' key')
    (hcomp : ComparesBy comp key) (hfine : ∀ a b, key' a ≤ key' b → key a ≤ key b) :
    SortsTo comp l l' :=
  (sortsTo_iff hcomp).mpr ⟨h.perm, (h.sorted hcomp').imp fun hab => hfine _ _ hab⟩

/-- What the keys determine is the same in every result. -/
theorem SortsTo.map_eq {f : α → β} (h : SortsTo comp l l') (h' : SortsTo comp l l'')
    (hcomp : ComparesBy comp key)
    (hkey : ∀ a ∈ l, ∀ b ∈ l, key a = key b → f a = f b) : l'.map f = l''.map f := by
  have hs : (l'.map fun a => (key a, f a)).Pairwise fun p q => p.1 ≤ q.1 :=
    List.pairwise_map.mpr (h.sorted hcomp)
  have hs' : (l''.map fun a => (key a, f a)).Pairwise fun p q => p.1 ≤ q.1 :=
    List.pairwise_map.mpr (h'.sorted hcomp)
  -- sorted lists of keys with what is shown are equal, since the keys determine the rest
  have hpairs : l'.map (fun a => (key a, f a)) = l''.map fun a => (key a, f a) := by
    refine List.Perm.eq_of_pairwise ?_ hs hs' ((h.perm.trans h'.perm.symm).map _)
    intro p q hp hq hpq hqp
    obtain ⟨a, ha, rfl⟩ := List.mem_map.mp hp
    obtain ⟨b, hb, rfl⟩ := List.mem_map.mp hq
    have hab : key a = key b := le_antisymm hpq hqp
    rw [hab, hkey a (h.perm.mem_iff.mp ha) b (h'.perm.mem_iff.mp hb) hab]
  have := congrArg (List.map Prod.snd) hpairs
  rwa [List.map_map, List.map_map] at this

/-- Two elements with one key can be exchanged. -/
theorem SortsTo.exists_swap {f : α → β} (h : SortsTo comp l l') (hcomp : ComparesBy comp key)
    {a b : α} (ha : a ∈ l) (hb : b ∈ l) (hkey : key a = key b) (hne : f a ≠ f b) :
    ∃ l'', SortsTo comp l l'' ∧ l''.map f ≠ l'.map f := by
  obtain ⟨i, hi, rfl⟩ := List.getElem_of_mem (h.perm.mem_iff.mpr ha)
  obtain ⟨j, hj, rfl⟩ := List.getElem_of_mem (h.perm.mem_iff.mpr hb)
  have hij : i ≠ j := by
    rintro rfl
    exact hne rfl
  refine ⟨(l'.set i l'[j]).set j l'[i], (sortsTo_iff hcomp).mpr ⟨?_, ?_⟩, ?_⟩
  · exact (List.set_set_perm hi hj).trans h.perm
  · -- the keys stand where they stood
    have hkeys : ((l'.set i l'[j]).set j l'[i]).map key = l'.map key := by
      rw [List.map_set, List.map_set, ← hkey]
      apply List.ext_getElem
      · simp
      · intro k hk hk'
        simp only [List.getElem_set, List.getElem_map]
        split_ifs with hjk hik
        · subst hjk
          exact hkey
        · subst hik
          rfl
        · rfl
    have hsorted := List.pairwise_map.mpr (h.sorted hcomp)
    rw [← hkeys] at hsorted
    exact List.pairwise_map.mp hsorted
  · intro heq
    have hat := congrArg (fun m => m[i]?) heq
    simp only [List.getElem?_map, List.getElem?_set_ne (Ne.symm hij), List.getElem?_set_self hi,
      List.getElem?_eq_getElem hi, Option.map_some, Option.some.injEq] at hat
    exact hne hat.symm

/-- Two comparisons, the second finer, show the same in all their results exactly when the
keys of the first determine what is shown. -/
theorem map_eq_iff {f : α → β} (hcomp : ComparesBy comp key) (hcomp' : ComparesBy comp' key')
    (hfine : ∀ a b, key' a ≤ key' b → key a ≤ key b) (l : List α) :
    (∀ s t, SortsTo comp l s → SortsTo comp' l t → s.map f = t.map f) ↔
      ∀ a ∈ l, ∀ b ∈ l, key a = key b → f a = f b := by
  constructor
  · intro h a ha b hb hkey
    by_contra hne
    obtain ⟨t, ht⟩ := exists_sortsTo hcomp' l
    obtain ⟨s, hs, hst⟩ := (ht.coarsen hcomp' hcomp hfine).exists_swap hcomp ha hb hkey hne
    exact hst (h s t hs ht)
  · intro hkey s t hs ht
    exact hs.map_eq (ht.coarsen hcomp' hcomp hfine) hcomp hkey

end Sorting
