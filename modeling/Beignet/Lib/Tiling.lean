/-
Tilings: a family of cells that covers a region with no overlap.

`Tiles c S I` says that the cells `c i` for `i ∈ S` are non-empty, pairwise disjoint
and together exactly `I`.  An allocator that cuts, releases, merges or splits
blocks always does the same thing to its tiling, stated once as `Tiles.replace`:
some cells are exchanged for a tiling of the region they covered.
-/
import Mathlib

namespace Tiling

variable {ι β : Type*}

/-- The blocks cover the range without overlap. -/
structure Tiles (c : ι → Set β) (S : Set ι) (I : Set β) : Prop where
  nonempty : ∀ i ∈ S, (c i).Nonempty
  disjoint : S.PairwiseDisjoint c
  cover : ⋃ i ∈ S, c i = I

variable {c : ι → Set β} {S T T' : Set ι} {I : Set β}

theorem Tiles.subset (h : Tiles c S I) {i : ι} (hi : i ∈ S) : c i ⊆ I :=
  h.cover ▸ Set.subset_biUnion_of_mem hi

theorem Tiles.eq_of_mem (h : Tiles c S I) {i j : ι} (hi : i ∈ S) (hj : j ∈ S) {x : β}
    (hxi : x ∈ c i) (hxj : x ∈ c j) : i = j := by
  by_contra hne
  exact Set.disjoint_left.mp (h.disjoint hi hj hne) hxi hxj

theorem Tiles.singleton {i : ι} (h : (c i).Nonempty) : Tiles c {i} (c i) :=
  ⟨by simpa using h, Set.pairwiseDisjoint_singleton _ _, by simp⟩

theorem Tiles.empty : Tiles c ∅ ∅ := ⟨by simp, by simp, by simp⟩

/-- Tilings of two regions that do not meet. -/
theorem Tiles.union {J : Set β} (h : Tiles c S I) (h' : Tiles c T J) (hIJ : Disjoint I J) :
    Tiles c (S ∪ T) (I ∪ J) := by
  refine ⟨?_, ?_, ?_⟩
  · rintro i (hi | hi)
    · exact h.nonempty i hi
    · exact h'.nonempty i hi
  · rintro i (hi | hi) j (hj | hj) hne
    · exact h.disjoint hi hj hne
    · exact hIJ.mono (h.subset hi) (h'.subset hj)
    · exact (hIJ.mono (h.subset hj) (h'.subset hi)).symm
    · exact h'.disjoint hi hj hne
  · rw [Set.biUnion_union, h.cover, h'.cover]

/-- Some cells are exchanged for a tiling of what they covered. -/
theorem Tiles.replace (h : Tiles c S I) (hT : T ⊆ S) (h' : Tiles c T' (⋃ i ∈ T, c i)) :
    Tiles c ((S \ T) ∪ T') I := by
  -- The cells that stay tile what is left of the region.
  have hrest : Tiles c (S \ T) (⋃ i ∈ S \ T, c i) :=
    ⟨fun i hi => h.nonempty i hi.1, h.disjoint.subset Set.sdiff_subset, rfl⟩
  have hdisj : Disjoint (⋃ i ∈ S \ T, c i) (⋃ i ∈ T, c i) := by
    simp only [Set.disjoint_iUnion_left, Set.disjoint_iUnion_right]
    intro i hi k hk
    exact h.disjoint hk.1 (hT hi) fun hik => hk.2 (hik ▸ hi)
  have := hrest.union h' hdisj
  rwa [← Set.biUnion_union, Set.sdiff_union_of_subset hT, h.cover] at this

end Tiling
