/-
The work-items of a buffer copy.

A work-item owns the part of the destination range that is in its word (in its four words for
`align16`).  Whatever the others have done, as long as nothing outside the destination range has
changed it copies its part and leaves everything else alone (`Copies`).  From that any order of
work-items is a `memcpy`.

* **`Copy.foldl_eq_memcpy`** — any order of work-items.
-/
import Beignet.Runtime.CopyBuffer
import Beignet.Lib.Footprint

open Bytes

namespace Runtime

namespace CopyBuffer

/-- A copy of some bytes between two ranges that do not overlap. -/
structure Copy where
  src : ℕ
  dst : ℕ
  src_offset : ℕ
  dst_offset : ℕ
  cb : ℕ
  cb_pos : 0 < cb
  src_lt : src_offset + cb < 2 ^ 31
  dst_lt : dst_offset + cb < 2 ^ 31
  disjoint : src + src_offset + cb ≤ dst + dst_offset ∨ dst + dst_offset + cb ≤ src + src_offset

namespace Copy

variable (c : Copy)

/-- The first word of the source and of the destination. -/
def srcWord : ℕ := c.src + 4 * (c.src_offset / 4)
def dstWord : ℕ := c.dst + 4 * (c.dst_offset / 4)

/-- The address is in the destination range. -/
def InDst (x : ℕ) : Prop := c.dst + c.dst_offset ≤ x ∧ x < c.dst + c.dst_offset + c.cb

instance (x : ℕ) : Decidable (c.InDst x) := inferInstanceAs (Decidable (_ ∧ _))

/-- The byte that belongs to an address of the destination range. -/
def source (m0 : Mem) (x : ℕ) : BitVec 8 := m0 (x - (c.dst + c.dst_offset) + (c.src + c.src_offset))

/-- Only the destination range has changed. -/
def Keeps (m0 m : Mem) : Prop := ∀ x, ¬ c.InDst x → m x = m0 x

/-- The part of the destination range that is in `w` words from word `w * gid` on. -/
def part (w gid : ℕ) : Set ℕ :=
  {x | c.InDst x ∧ c.dstWord + 4 * w * gid ≤ x ∧ x < c.dstWord + 4 * w * (gid + 1)}

instance (w gid x : ℕ) : Decidable (x ∈ c.part w gid) := inferInstanceAs (Decidable (_ ∧ _))

/-- The work-item copies its part. -/
def Copies (m0 : Mem) (w gid : ℕ) (item : Mem → Mem) : Prop :=
  ∀ m, c.Keeps m0 m → ∀ x, item m x = if x ∈ c.part w gid then c.source m0 x else m x

variable {c} {m0 : Mem}

theorem Copies.keeps {w gid : ℕ} {item : Mem → Mem} (h : c.Copies m0 w gid item) {m : Mem}
    (hm : c.Keeps m0 m) : c.Keeps m0 (item m) := by
  intro x hx
  rw [h m hm x, if_neg fun hpart => hx hpart.1]
  exact hm x hx

theorem part_disjoint {w gid gid' : ℕ} (h : gid ≠ gid') :
    Disjoint (c.part w gid) (c.part w gid') := by
  rw [Set.disjoint_left]
  rintro x ⟨-, hlo, hhi⟩ ⟨-, hlo', hhi'⟩
  rcases Nat.lt_or_gt_of_ne h with hlt | hlt
  · have := Nat.mul_le_mul_left (4 * w) (Nat.succ_le_of_lt hlt)
    simp only [Nat.succ_eq_add_one] at this
    omega
  · have := Nat.mul_le_mul_left (4 * w) (Nat.succ_le_of_lt hlt)
    simp only [Nat.succ_eq_add_one] at this
    omega

/-- Work-items that copy their parts and cover the range copy it, in any order. -/
theorem foldl_eq_memcpy {w n : ℕ} {item : ℕ → Mem → Mem} (hw : 0 < w)
    (hitem : ∀ gid < n, c.Copies m0 w gid (item gid))
    (hcover : c.dst + c.dst_offset + c.cb ≤ c.dstWord + 4 * w * n) {order : List ℕ}
    (horder : order.Perm (List.range n)) :
    order.foldl (fun m gid => item gid m) m0 =
      memcpy (c.src + c.src_offset) (c.dst + c.dst_offset) c.cb m0 := by
  have hmem : ∀ gid, gid ∈ order ↔ gid < n := by
    intro gid
    rw [horder.mem_iff, List.mem_range]
  have hlocal : Footprint.Local (fun m gid => item gid m) m0 (c.Keeps m0) (c.part w) order := by
    refine ⟨?_, ?_, ?_⟩
    · intro m gid hgid hm _ x hx
      exact (hitem gid ((hmem gid).mp hgid) m hm x).trans (if_neg hx)
    · intro m gid hgid hm _ x hx
      have hcopies := hitem gid ((hmem gid).mp hgid)
      exact ((hcopies m hm x).trans (if_pos hx)).trans
        ((hcopies m0 (fun _ _ => rfl) x).trans (if_pos hx)).symm
    · intro m gid hgid hm _
      exact (hitem gid ((hmem gid).mp hgid)).keeps hm
  have hdis : order.Pairwise fun gid gid' => Disjoint (c.part w gid) (c.part w gid') :=
    (horder.nodup_iff.mpr List.nodup_range).imp part_disjoint
  obtain ⟨hval, hout, -⟩ := Footprint.foldl_footprint hlocal hdis (fun _ _ => rfl)
    fun _ _ _ _ => rfl
  funext x
  by_cases hx : c.InDst x
  · -- the word of `x` has a work-item of its own
    have hlo : c.dstWord ≤ x := by
      have := hx.1
      have := Nat.div_mul_le_self c.dst_offset 4
      simp only [dstWord]
      omega
    have hpos : 0 < 4 * w := by omega
    have hpart : x ∈ c.part w ((x - c.dstWord) / (4 * w)) := by
      refine ⟨hx, ?_, ?_⟩
      · have := Nat.mul_div_le (x - c.dstWord) (4 * w)
        omega
      · have := Nat.lt_mul_div_succ (x - c.dstWord) hpos
        omega
    have hgid : (x - c.dstWord) / (4 * w) < n := by
      rw [Nat.div_lt_iff_lt_mul hpos, Nat.mul_comm]
      have := hx.2
      omega
    rw [hval _ ((hmem _).mpr hgid) x hpart, hitem _ hgid m0 (fun _ _ => rfl) x, if_pos hpart]
    exact (if_pos hx).symm
  · rw [hout x fun gid _ hpart => hx hpart.1]
    exact (if_neg hx).symm

end Copy

end CopyBuffer

end Runtime
