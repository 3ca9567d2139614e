/-
The five copy kernels.

A word is written byte by byte: the bytes of the destination range get their source, the others
what they had.  The masks of the host mark exactly the bytes of the first and the last word that
are outside the range (`byte_firstMask`, `byte_lastMask`), and the shifts of the kernels bring
every byte from its place in one or two words of the source.

* `copies_align16`, `copies_align4`, `copies_same_offset`, `copies_dst_offset`,
  `copies_src_offset` — every work-item copies its part.
* **`cl_mem_copy_eq_memcpy`** — a launch in any order is a `memcpy`.
-/
import Beignet.Runtime.CopyItems

open Bytes

namespace Runtime

namespace CopyBuffer

namespace Copy

variable {c : Copy} {m0 m : Mem}

/-! ### Words of the two ranges -/

/-- The arguments of a launch. -/
def args (c : Copy) (size : ℕ) : Args :=
  ⟨BitVec.ofNat 32 (c.src_offset / 4), BitVec.ofNat 32 (c.dst_offset / 4), BitVec.ofNat 32 size⟩

theorem toNat_ofNat_add {a b : ℕ} (h : a + b < 2 ^ 32) :
    (BitVec.ofNat 32 a + BitVec.ofNat 32 b).toNat = a + b := by
  rw [← BitVec.ofNat_add, BitVec.toNat_ofNat, Nat.mod_eq_of_lt h]

theorem byte_srcAt {size j k : ℕ} (hj : j < 2 ^ 31) (hk : k < 4) :
    byte (srcAt c.src (c.args size) m (BitVec.ofNat 32 j)) k = m (c.srcWord + 4 * j + k) := by
  have hlt := c.src_lt
  rw [srcAt, byte_load _ _ hk, args, toNat_ofNat_add (by omega), srcWord]
  congr 1
  omega

theorem byte_dstAt {size j k : ℕ} (hj : j < 2 ^ 31) (hk : k < 4) :
    byte (dstAt c.dst (c.args size) m (BitVec.ofNat 32 j)) k = m (c.dstWord + 4 * j + k) := by
  have hlt := c.dst_lt
  rw [dstAt, byte_load _ _ hk, args, toNat_ofNat_add (by omega), dstWord]
  congr 1
  omega

theorem setDst_eq {size j : ℕ} (hj : j < 2 ^ 31) (w : BitVec 32) :
    setDst c.dst (c.args size) m (BitVec.ofNat 32 j) w = store m (c.dstWord + 4 * j) w := by
  have hlt := c.dst_lt
  rw [setDst, args, toNat_ofNat_add (by omega), dstWord]
  congr 1
  omega

/-- The byte at place `p` of the words of the destination is in the range. -/
theorem inDst_iff {p : ℕ} :
    c.InDst (c.dstWord + p) ↔ c.dst_offset % 4 ≤ p ∧ p < c.dst_offset % 4 + c.cb := by
  simp only [InDst, dstWord]
  omega

/-- The source of such a byte, in the words of the source. -/
theorem source_eq {p : ℕ} (hp : c.dst_offset % 4 ≤ p) :
    c.source m0 (c.dstWord + p) = m0 (c.srcWord + (p - c.dst_offset % 4 + c.src_offset % 4)) := by
  simp only [source, dstWord, srcWord]
  congr 1
  omega

/-- The source range has not changed. -/
theorem Keeps.source (h : c.Keeps m0 m) {p : ℕ} (hlo : c.dst_offset % 4 ≤ p)
    (hhi : p < c.dst_offset % 4 + c.cb) :
    m (c.srcWord + (p - c.dst_offset % 4 + c.src_offset % 4)) = c.source m0 (c.dstWord + p) := by
  rw [source_eq hlo]
  apply h
  have hdis := c.disjoint
  simp only [InDst, srcWord]
  omega

/-- A word that has the source bytes in the range and the old bytes outside is the part of its
work-item. -/
theorem store_copies {gid : ℕ} {w : BitVec 32}
    (hw : ∀ k < 4, byte w k =
      if c.dst_offset % 4 ≤ 4 * gid + k ∧ 4 * gid + k < c.dst_offset % 4 + c.cb then
        c.source m0 (c.dstWord + (4 * gid + k))
      else m (c.dstWord + (4 * gid + k))) (x : ℕ) :
    store m (c.dstWord + 4 * gid) w x = if x ∈ c.part 1 gid then c.source m0 x else m x := by
  rw [store_apply]
  by_cases hx : c.dstWord + 4 * gid ≤ x ∧ x < c.dstWord + 4 * gid + 4
  · obtain ⟨k, hk, rfl⟩ : ∃ k < 4, x = c.dstWord + (4 * gid + k) :=
      ⟨x - (c.dstWord + 4 * gid), by omega, by omega⟩
    have hmem : c.dstWord + (4 * gid + k) ∈ c.part 1 gid ↔
        c.dst_offset % 4 ≤ 4 * gid + k ∧ 4 * gid + k < c.dst_offset % 4 + c.cb := by
      rw [← inDst_iff]
      refine and_iff_left ⟨by omega, by omega⟩
    rw [if_pos hx, show c.dstWord + (4 * gid + k) - (c.dstWord + 4 * gid) = k by omega, hw k hk]
    exact if_congr hmem.symm rfl rfl
  · rw [if_neg hx, if_neg]
    rintro ⟨-, hlo, hhi⟩
    omega

/-! ### Aligned copies -/

theorem ofNat_lt_iff {a b : ℕ} (ha : a < 2 ^ 32) (hb : b < 2 ^ 32) :
    BitVec.ofNat 32 a < BitVec.ofNat 32 b ↔ a < b := by
  rw [BitVec.lt_def, BitVec.toNat_ofNat, BitVec.toNat_ofNat, Nat.mod_eq_of_lt ha,
    Nat.mod_eq_of_lt hb]

/-- One word of an aligned copy. -/
theorem byte_srcAt_aligned (hm : c.Keeps m0 m) (hsrc : c.src_offset % 4 = 0)
    (hdst : c.dst_offset % 4 = 0) {size j k : ℕ} (hj : 4 * j + 4 ≤ c.cb) (hk : k < 4) :
    byte (srcAt c.src (c.args size) m (BitVec.ofNat 32 j)) k =
      c.source m0 (c.dstWord + (4 * j + k)) := by
  have hlt := c.dst_lt
  rw [byte_srcAt (by omega) hk, ← hm.source (by omega) (by omega), hsrc, hdst]
  congr 1
  omega

/-- A work-item behind the range has nothing to copy. -/
theorem part_empty {w gid : ℕ} (h : c.dst_offset % 4 + c.cb ≤ 4 * w * gid) (x : ℕ) :
    x ∉ c.part w gid := by
  rintro ⟨⟨-, hhi⟩, hlo, -⟩
  simp only [dstWord] at hlo
  omega

theorem copies_word (hsrc : c.src_offset % 4 = 0) (hdst : c.dst_offset % 4 = 0) (size : ℕ) {j : ℕ}
    (hj : 4 * j + 4 ≤ c.cb) :
    c.Copies m0 1 j fun m => setDst c.dst (c.args size) m (BitVec.ofNat 32 j)
      (srcAt c.src (c.args size) m (BitVec.ofNat 32 j)) := by
  intro m hm x
  have hlt := c.dst_lt
  show setDst _ _ m _ _ x = _
  rw [setDst_eq (by omega)]
  apply store_copies
  intro k hk
  rw [if_pos (by omega)]
  exact byte_srcAt_aligned hm hsrc hdst hj hk

theorem copies_align4 (hcb : c.cb % 4 = 0) (hsrc : c.src_offset % 4 = 0)
    (hdst : c.dst_offset % 4 = 0) {gid : ℕ} (hgid : gid < 2 ^ 31) :
    c.Copies m0 1 gid
      (cl_copy_region_align4 c.src c.dst (c.args (c.cb / 4)) (BitVec.ofNat 32 gid)) := by
  intro m hm x
  have hlt := c.dst_lt
  have hiff : BitVec.ofNat 32 gid < (c.args (c.cb / 4)).size ↔ gid < c.cb / 4 :=
    ofNat_lt_iff (by omega) (by omega)
  rw [cl_copy_region_align4]
  by_cases hactive : gid < c.cb / 4
  · rw [if_pos (hiff.mpr hactive)]
    exact copies_word hsrc hdst _ (by omega) m hm x
  · rw [if_neg fun h => hactive (hiff.mp h), if_neg (part_empty (by omega) x)]

/-- Four words one after another. -/
theorem copies_four {gid : ℕ} {f0 f1 f2 f3 : Mem → Mem} (h₀ : c.Copies m0 1 (4 * gid) f0)
    (h₁ : c.Copies m0 1 (4 * gid + 1) f1) (h₂ : c.Copies m0 1 (4 * gid + 2) f2)
    (h₃ : c.Copies m0 1 (4 * gid + 3) f3) :
    c.Copies m0 4 gid fun m => f3 (f2 (f1 (f0 m))) := by
  intro m hm x
  have hm0 := h₀.keeps hm
  have hm1 := h₁.keeps hm0
  show f3 (f2 (f1 (f0 m))) x = _
  rw [h₃ _ (h₂.keeps hm1) x, h₂ _ hm1 x, h₁ _ hm0 x, h₀ _ hm x]
  simp only [part, Set.mem_ofPred_eq]
  by_cases hin : c.InDst x
  · simp only [hin, true_and]
    split_ifs <;> first | rfl | omega
  · simp only [hin, false_and, if_false]

theorem copies_align16 (hcb : c.cb % 16 = 0) (hsrc : c.src_offset % 4 = 0)
    (hdst : c.dst_offset % 4 = 0) {gid : ℕ} (hgid : gid < 2 ^ 29) :
    c.Copies m0 4 gid
      (cl_copy_region_align16 c.src c.dst (c.args (c.cb / 16)) (BitVec.ofNat 32 gid)) := by
  intro m hm x
  have hlt := c.dst_lt
  have hmul : ∀ a, BitVec.ofNat 32 a * 4 = BitVec.ofNat 32 (4 * a) := by
    intro a
    rw [Nat.mul_comm, BitVec.ofNat_mul]
    rfl
  have hadd : ∀ b, BitVec.ofNat 32 (4 * gid) + BitVec.ofNat 32 b = BitVec.ofNat 32 (4 * gid + b) :=
    fun b => (BitVec.ofNat_add _ _).symm
  have hiff : BitVec.ofNat 32 gid * 4 < (c.args (c.cb / 16)).size * 4 ↔ gid < c.cb / 16 := by
    rw [args, hmul, hmul, ofNat_lt_iff (by omega) (by omega)]
    omega
  rw [cl_copy_region_align16]
  by_cases hactive : gid < c.cb / 16
  · rw [if_pos (hiff.mpr hactive)]
    have hword : ∀ r < 4, c.Copies m0 1 (4 * gid + r) _ :=
      fun r hr => copies_word hsrc hdst (c.cb / 16) (by omega)
    have hfour := copies_four (hword 0 (by decide)) (hword 1 (by decide)) (hword 2 (by decide))
      (hword 3 (by decide)) m hm x
    rw [hmul, show (1 : BitVec 32) = BitVec.ofNat 32 1 from rfl,
      show (2 : BitVec 32) = BitVec.ofNat 32 2 from rfl,
      show (3 : BitVec 32) = BitVec.ofNat 32 3 from rfl, hadd, hadd, hadd]
    exact hfour
  · rw [if_neg fun h => hactive (hiff.mp h), if_neg (part_empty (by omega) x)]

/-! ### Masks -/

theorem byte_masks {e k : ℕ} (he : e < 4) (hk : k < 4) :
    byte (masks e) k = if e = 0 ∨ k < e then 255#8 else 0#8 := by
  interval_cases e <;> interval_cases k <;> rfl

/-- The number of words that the range touches. -/
def words (c : Copy) : ℕ := ((c.dst_offset % 4 + c.cb) + 3) / 4

/-- The mask of the last word marks the bytes inside the range. -/
def lastMask (c : Copy) : BitVec 32 := masks ((c.dst_offset + c.cb) % 4)

/-- The mask of the first word marks the bytes outside the range. -/
def firstMask (c : Copy) : BitVec 32 :=
  if c.cb < 4 ∧ c.words = 1 then
    (if c.dst_offset % 4 = 0 then 0 else masks (c.dst_offset % 4)) ||| ~~~c.lastMask
  else if c.dst_offset % 4 = 0 then 0 else masks (c.dst_offset % 4)

theorem words_pos (c : Copy) : 0 < c.words := by
  have := c.cb_pos
  rw [words]
  omega

theorem words_lt (c : Copy) : c.words < 2 ^ 31 := by
  have := c.dst_lt
  rw [words]
  omega

theorem byte_lastMask {k : ℕ} (hk : k < 4) : byte c.lastMask k =
    if 4 * (c.words - 1) + k < c.dst_offset % 4 + c.cb then 255#8 else 0#8 := by
  have hpos := c.cb_pos
  rw [lastMask, byte_masks (Nat.mod_lt _ (by decide)) hk]
  refine if_congr ?_ rfl rfl
  rw [words]
  omega

/-- The mask of the first byte in the word, without the end of the range. -/
theorem byte_headMask {k : ℕ} (hk : k < 4) :
    byte (if c.dst_offset % 4 = 0 then 0 else masks (c.dst_offset % 4)) k =
      if k < c.dst_offset % 4 then 255#8 else 0#8 := by
  by_cases h : c.dst_offset % 4 = 0
  · rw [if_pos h, if_neg (by omega), byte_zero]
  · rw [if_neg h, byte_masks (Nat.mod_lt _ (by decide)) hk]
    exact if_congr (by omega) rfl rfl

theorem byte_firstMask {k : ℕ} (hk : k < 4) : byte c.firstMask k =
    if ¬ (c.dst_offset % 4 ≤ k ∧ k < c.dst_offset % 4 + c.cb) then 255#8 else 0#8 := by
  have hpos := c.cb_pos
  rw [firstMask]
  by_cases hsmall : c.cb < 4 ∧ c.words = 1
  · have hlast : byte (~~~c.lastMask) k =
        if k < c.dst_offset % 4 + c.cb then 0#8 else 255#8 := by
      rw [byte_not _ hk, byte_lastMask hk, hsmall.2]
      simp only [Nat.sub_self, Nat.mul_zero, Nat.zero_add]
      split <;> rfl
    rw [if_pos hsmall, byte_or, byte_headMask hk, hlast]
    by_cases hlo : k < c.dst_offset % 4 <;> by_cases hhi : k < c.dst_offset % 4 + c.cb
    · rw [if_pos hlo, if_pos hhi, if_pos (by omega)]
      rfl
    · rw [if_pos hlo, if_neg hhi, if_pos (by omega)]
      rfl
    · rw [if_neg hlo, if_pos hhi, if_neg (by omega)]
      rfl
    · rw [if_neg hlo, if_neg hhi, if_pos (by omega)]
      rfl
  · rw [if_neg hsmall, byte_headMask hk]
    refine if_congr ?_ rfl rfl
    rw [words] at hsmall
    omega

/-! ### Unaligned copies -/

/-- What the three kernels merge is the source, wherever the range is. -/
def IsSource (c : Copy) (m0 : Mem) (gid : ℕ) (tmp : BitVec 32) : Prop :=
  ∀ k < 4, c.dst_offset % 4 ≤ 4 * gid + k → 4 * gid + k < c.dst_offset % 4 + c.cb →
    byte tmp k = c.source m0 (c.dstWord + (4 * gid + k))

theorem ofNat_eq_zero_iff {a : ℕ} (ha : a < 2 ^ 32) : BitVec.ofNat 32 a = 0 ↔ a = 0 := by
  rw [BitVec.toNat_eq, BitVec.toNat_ofNat, Nat.mod_eq_of_lt ha]
  rfl

theorem size_sub_one (c : Copy) : (c.args c.words).size - 1 = BitVec.ofNat 32 (c.words - 1) := by
  have hpos := c.words_pos
  have hlt := c.words_lt
  rw [args]
  bv_omega

theorem ofNat_eq_last_iff {a : ℕ} (ha : a < 2 ^ 32) :
    BitVec.ofNat 32 a = (c.args c.words).size - 1 ↔ a = c.words - 1 := by
  have hlt := c.words_lt
  rw [size_sub_one, BitVec.toNat_eq, BitVec.toNat_ofNat, BitVec.toNat_ofNat, Nat.mod_eq_of_lt ha,
    Nat.mod_eq_of_lt (by omega)]

theorem merge_copies {gid : ℕ} (hgid : gid < c.words) {tmp : BitVec 32}
    (htmp : c.IsSource m0 gid tmp) (x : ℕ) :
    merge c.dst (c.args c.words) c.firstMask c.lastMask (BitVec.ofNat 32 gid) tmp m x =
      if x ∈ c.part 1 gid then c.source m0 x else m x := by
  have hlt := c.words_lt
  have hwords : c.words = ((c.dst_offset % 4 + c.cb) + 3) / 4 := rfl
  rw [merge]
  by_cases h0 : gid = 0
  · -- the first word
    rw [if_pos ((ofNat_eq_zero_iff (by omega)).mpr h0)]
    subst h0
    rw [show (0 : BitVec 32) = BitVec.ofNat 32 0 from rfl, setDst_eq (by omega)]
    apply store_copies
    intro k hk
    rw [byte_select hk (byte_firstMask hk), byte_dstAt (by omega) hk]
    by_cases hin : c.dst_offset % 4 ≤ k ∧ k < c.dst_offset % 4 + c.cb
    · rw [if_neg (not_not.mpr hin), if_pos (by omega)]
      exact htmp k hk (by omega) (by omega)
    · rw [if_pos hin, if_neg (by omega), Nat.add_assoc]
  · rw [if_neg fun h => h0 ((ofNat_eq_zero_iff (by omega)).mp h)]
    by_cases hlast : gid = c.words - 1
    · -- the last word
      rw [if_pos ((ofNat_eq_last_iff (by omega)).mpr hlast), setDst_eq (by omega)]
      apply store_copies
      intro k hk
      rw [byte_select hk (byte_lastMask hk), byte_dstAt (by omega) hk, ← hlast]
      by_cases hin : 4 * gid + k < c.dst_offset % 4 + c.cb
      · rw [if_pos hin, if_pos (by omega)]
        exact htmp k hk (by omega) hin
      · rw [if_neg hin, if_neg (by omega), Nat.add_assoc]
    · rw [if_neg fun h => hlast ((ofNat_eq_last_iff (by omega)).mp h), setDst_eq (by omega)]
      apply store_copies
      intro k hk
      rw [if_pos (by omega)]
      exact htmp k hk (by omega) (by omega)

/-- The test at the beginning of the three kernels. -/
theorem guard_iff {gid : ℕ} (hgid : gid < 2 ^ 31) :
    BitVec.ofNat 32 gid > (c.args c.words).size - 1 ↔ ¬ gid < c.words := by
  have hpos := c.words_pos
  have hlt := c.words_lt
  rw [size_sub_one, gt_iff_lt, ofNat_lt_iff (by omega) (by omega)]
  omega

/-- A kernel that merges the source copies its parts. -/
theorem copies_merge {gid : ℕ} (hgid : gid < 2 ^ 31) {tmp : Mem → BitVec 32}
    (htmp : gid < c.words → ∀ m, c.Keeps m0 m → c.IsSource m0 gid (tmp m)) :
    c.Copies m0 1 gid fun m =>
      if BitVec.ofNat 32 gid > (c.args c.words).size - 1 then m
      else merge c.dst (c.args c.words) c.firstMask c.lastMask (BitVec.ofNat 32 gid) (tmp m) m := by
  intro m hm x
  by_cases hactive : gid < c.words
  · simp only [if_neg fun h => (guard_iff hgid).mp h hactive]
    exact merge_copies hactive (htmp hactive m hm) x
  · have hbehind : c.dst_offset % 4 + c.cb ≤ 4 * 1 * gid := by
      rw [words] at hactive
      omega
    simp only [if_pos ((guard_iff hgid).mpr hactive)]
    rw [if_neg (part_empty hbehind x)]

theorem copies_same_offset (hsame : c.src_offset % 4 = c.dst_offset % 4) {gid : ℕ}
    (hgid : gid < 2 ^ 31) :
    c.Copies m0 1 gid (cl_copy_region_unalign_same_offset c.src c.dst (c.args c.words)
      c.firstMask c.lastMask (BitVec.ofNat 32 gid)) := by
  refine copies_merge hgid ?_
  intro _ m hm k hk hlo hhi
  rw [byte_srcAt hgid hk, ← hm.source hlo hhi, hsame]
  congr 1
  omega

section Shift

variable {d : ℕ}

/-- The bytes behind the first `d`, moved to the front. -/
theorem byte_tail (w : BitVec 32) (hd : 0 < d) (hd4 : d < 4) {k : ℕ} (hk : k < 4) :
    byte ((w &&& ~~~masks d) >>> (d * 8)) k = if d + k < 4 then byte w (d + k) else 0#8 := by
  rw [Nat.mul_comm, byte_shiftRight]
  by_cases h : d + k < 4
  · rw [if_pos h, byte_and, byte_not _ h, byte_masks hd4 h, if_neg (by omega)]
    show byte w (d + k) &&& BitVec.allOnes 8 = _
    rw [BitVec.and_allOnes]
  · rw [if_neg h, byte_eq_zero _ (by omega)]

/-- The first `d` bytes, moved to the end. -/
theorem byte_head (w : BitVec 32) (hd : 0 < d) (hd4 : d < 4) {k : ℕ} (hk : k < 4) :
    byte ((w &&& masks d) <<< (32 - d * 8)) k = if d + k < 4 then 0#8 else byte w (d + k - 4) := by
  rw [show 32 - d * 8 = 8 * (4 - d) by omega, byte_shiftLeft _ hk]
  by_cases h : d + k < 4
  · rw [if_pos h, if_pos (by omega)]
  · rw [if_neg h, if_neg (by omega), show k - (4 - d) = d + k - 4 by omega, byte_and,
      byte_masks hd4 (by omega), if_pos (by omega)]
    show byte w (d + k - 4) &&& BitVec.allOnes 8 = _
    rw [BitVec.and_allOnes]

end Shift

/-- The last word needs no second word of the source. -/
theorem last_needs_one {d k : ℕ} (hk : k < 4)
    (h : c.lastMask &&& ~~~(~~~masks d >>> (d * 8)) = 0) (hdk : ¬ d + k < 4) :
    ¬ 4 * (c.words - 1) + k < c.dst_offset % 4 + c.cb := by
  intro hin
  have hbyte := congrArg (fun w => byte w k) h
  simp only [byte_and] at hbyte
  rw [byte_lastMask hk, if_pos hin, byte_not _ hk, Nat.mul_comm d 8, byte_shiftRight,
    byte_eq_zero _ (by omega), byte_zero] at hbyte
  exact absurd hbyte (by decide)

theorem copies_dst_offset (hdst : c.dst_offset % 4 < c.src_offset % 4) {gid : ℕ}
    (hgid : gid < 2 ^ 31 - 1) :
    c.Copies m0 1 gid (cl_copy_region_unalign_dst_offset c.src c.dst (c.args c.words)
      c.firstMask c.lastMask ((c.src_offset % 4 - c.dst_offset % 4) * 8)
      (masks (c.src_offset % 4 - c.dst_offset % 4)) (BitVec.ofNat 32 gid)) := by
  refine copies_merge (by omega) ?_
  intro hactive m hm k hk hlo hhi
  obtain ⟨d, hd⟩ : ∃ d, c.src_offset % 4 = c.dst_offset % 4 + d := 
    ⟨c.src_offset % 4 - c.dst_offset % 4, by omega⟩
  have hd0 : 0 < d := by omega
  have hd4 : d < 4 := by omega
  have hdiff : c.src_offset % 4 - c.dst_offset % 4 = d := by omega
  have hnext : BitVec.ofNat 32 gid + 1 = BitVec.ofNat 32 (gid + 1) := (BitVec.ofNat_add _ _).symm
  rw [hdiff, ← hm.source hlo hhi, hd, show 4 * gid + k - c.dst_offset % 4 + (c.dst_offset % 4 + d) =
    4 * gid + (d + k) by omega]
  split
  · rename_i hshort
    rw [ofNat_eq_last_iff (by omega)] at hshort
    have hdk : d + k < 4 := by
      by_contra hdk
      exact last_needs_one hk hshort.2 hdk (by omega)
    rw [byte_tail _ hd0 hd4 hk, if_pos hdk, byte_srcAt (by omega) hdk, Nat.add_assoc]
  · rw [byte_or, byte_tail _ hd0 hd4 hk, byte_head _ hd0 hd4 hk, hnext]
    by_cases hdk : d + k < 4
    · rw [if_pos hdk, if_pos hdk, byte_srcAt (by omega) hdk, BitVec.or_zero, Nat.add_assoc]
    · rw [if_neg hdk, if_neg hdk, byte_srcAt (by omega) (by omega), BitVec.zero_or]
      congr 1
      omega

theorem copies_src_offset (hsrc : c.src_offset % 4 < c.dst_offset % 4) {gid : ℕ}
    (hgid : gid < 2 ^ 31) :
    c.Copies m0 1 gid (cl_copy_region_unalign_src_offset c.src c.dst (c.args c.words)
      c.firstMask c.lastMask ((c.dst_offset % 4 - c.src_offset % 4) * 8)
      (masks (4 - (c.dst_offset % 4 - c.src_offset % 4)))
      (decide (c.src_offset % 4 = 0 ∧ (c.src_offset + c.cb) % 4 = 0)) (BitVec.ofNat 32 gid)) := by
  refine copies_merge hgid ?_
  intro hactive m hm k hk hlo hhi
  -- with `e` bytes of one word and `4 - e` bytes of the next
  obtain ⟨e, he⟩ : ∃ e, c.dst_offset % 4 + e = c.src_offset % 4 + 4 :=
    ⟨c.src_offset % 4 + 4 - c.dst_offset % 4, by omega⟩
  have he0 : 0 < e := by omega
  have he4 : e < 4 := by omega
  have hdiff : 4 - (c.dst_offset % 4 - c.src_offset % 4) = e := by omega
  have hshift : (c.dst_offset % 4 - c.src_offset % 4) * 8 = 32 - e * 8 := by omega
  have hback : 32 - (32 - e * 8) = e * 8 := by omega
  rw [hdiff, hshift, hback, ← hm.source hlo hhi]
  split
  · rename_i h0
    rw [ofNat_eq_zero_iff (by omega)] at h0
    rw [byte_head _ he0 he4 hk, if_neg (by omega), byte_srcAt hgid (by omega)]
    congr 1
    omega
  · rename_i h0
    rw [ofNat_eq_zero_iff (by omega)] at h0
    have hprev : BitVec.ofNat 32 gid - 1 = BitVec.ofNat 32 (gid - 1) := by bv_omega
    rw [hprev]
    split
    · rename_i hless
      rw [decide_eq_true_iff, ofNat_eq_last_iff (by omega)] at hless
      have hek : e + k < 4 := by
        obtain ⟨⟨h1, h2⟩, h3⟩ := hless
        rw [words] at h3
        omega
      rw [byte_tail _ he0 he4 hk, if_pos hek, byte_srcAt (by omega) hek]
      congr 1
      omega
    · rw [byte_or, byte_tail _ he0 he4 hk, byte_head _ he0 he4 hk]
      by_cases hek : e + k < 4
      · rw [if_pos hek, if_pos hek, byte_srcAt (by omega) hek, BitVec.or_zero]
        congr 1
        omega
      · rw [if_neg hek, if_neg hek, byte_srcAt hgid (by omega), BitVec.zero_or]
        congr 1
        omega

/-! ### The launch -/

theorem globalSize_ge (n : ℕ) : n ≤ globalSize n := by
  simp only [globalSize, LOCAL_SZ_0]
  omega

theorem globalSize_lt (n : ℕ) : globalSize n < n + 16 := by
  simp only [globalSize, LOCAL_SZ_0]
  omega

/-- A launch of work-items that copy their parts. -/
theorem run_eq_memcpy {w n : ℕ} {launch : Launch} (hw : 0 < w)
    (hsize : launch.global_sz = globalSize n)
    (hitem : ∀ gid < globalSize n, c.Copies m0 w gid
      (launch.kernel.item c.src c.dst launch.args (BitVec.ofNat 32 gid)))
    (hcover : c.dst_offset % 4 + c.cb ≤ 4 * w * n) {order : List ℕ}
    (horder : order.Perm (List.range launch.global_sz)) :
    launch.run c.src c.dst order m0 =
      memcpy (c.src + c.src_offset) (c.dst + c.dst_offset) c.cb m0 := by
  rw [hsize] at horder
  refine foldl_eq_memcpy hw hitem ?_ horder
  have := Nat.mul_le_mul_left (4 * w) (globalSize_ge n)
  simp only [dstWord]
  omega

/-- The device copies like `memcpy`, whatever the order of the work-items. -/
theorem cl_mem_copy_eq_memcpy (c : Copy) (m : Mem) :
    ∃ launch, cl_mem_copy c.src_offset c.dst_offset c.cb = some launch ∧
      ∀ order : List ℕ, order.Perm (List.range launch.global_sz) →
        launch.run c.src c.dst order m =
          memcpy (c.src + c.src_offset) (c.dst + c.dst_offset) c.cb m := by
  have hpos := c.cb_pos
  have hlt := c.dst_lt
  rw [cl_mem_copy, if_neg (by omega)]
  by_cases h16 : c.cb % 16 = 0 ∧ c.src_offset % 16 = 0 ∧ c.dst_offset % 16 = 0
  · rw [if_pos h16]
    refine ⟨_, rfl, fun order horder => ?_⟩
    refine run_eq_memcpy (Nat.succ_pos 3) rfl (fun gid hgid => ?_) (by omega) horder
    have hgid' : gid < 2 ^ 29 := by
      have := globalSize_lt (c.cb / 16)
      omega
    exact copies_align16 h16.1 (by omega) (by omega) hgid'
  rw [if_neg h16]
  by_cases h4 : c.cb % 4 = 0 ∧ c.src_offset % 4 = 0 ∧ c.dst_offset % 4 = 0
  · rw [if_pos h4]
    refine ⟨_, rfl, fun order horder => ?_⟩
    refine run_eq_memcpy Nat.one_pos rfl (fun gid hgid => ?_) (by omega) horder
    have hgid' : gid < 2 ^ 31 := by
      have := globalSize_lt (c.cb / 4)
      omega
    exact copies_align4 h4.1 h4.2.1 h4.2.2 hgid'
  rw [if_neg h4]
  have hcover : c.dst_offset % 4 + c.cb ≤ 4 * 1 * c.words := by
    rw [words]
    omega
  have hwords : c.words + 16 < 2 ^ 31 - 1 := by
    rw [words]
    omega
  have hgid : ∀ gid < globalSize c.words, gid < 2 ^ 31 - 1 := by
    intro gid hgid
    have := globalSize_lt c.words
    omega
  by_cases hsame : c.src_offset % 4 = c.dst_offset % 4
  · rw [if_pos hsame]
    refine ⟨_, rfl, fun order horder => ?_⟩
    refine run_eq_memcpy Nat.one_pos rfl (fun gid h => ?_) hcover horder
    exact copies_same_offset hsame (Nat.lt_of_lt_of_le (hgid gid h) (by decide))
  rw [if_neg hsame]
  by_cases hdst : c.dst_offset % 4 < c.src_offset % 4
  · rw [if_pos hdst]
    refine ⟨_, rfl, fun order horder => ?_⟩
    refine run_eq_memcpy Nat.one_pos rfl (fun gid h => ?_) hcover horder
    exact copies_dst_offset hdst (hgid gid h)
  · rw [if_neg hdst, if_pos (by omega)]
    refine ⟨_, rfl, fun order horder => ?_⟩
    refine run_eq_memcpy Nat.one_pos rfl (fun gid h => ?_) hcover horder
    exact copies_src_offset (by omega) (Nat.lt_of_lt_of_le (hgid gid h) (by decide))

/-- Six bytes inside one buffer, the last work-item first. -/
theorem cl_mem_copy_eq_memcpy_backward :
    ((cl_mem_copy 1 10 6).map fun launch =>
      ((launch.run 0 0 (List.range launch.global_sz).reverse fun x => BitVec.ofNat 8 x) 15)) =
        some 6#8 := by
  obtain ⟨launch, hlaunch, hrun⟩ := cl_mem_copy_eq_memcpy
    ⟨0, 0, 1, 10, 6, by decide, by decide, by decide, by decide⟩ fun x => BitVec.ofNat 8 x
  have hcopy := congrFun (hrun _ (List.reverse_perm _)) 15
  simp only [hlaunch, Option.map_some, hcopy]
  rfl

end Copy

end CopyBuffer

end Runtime
