/-
The overlap tests of the copies between buffers (`clEnqueueCopyBuffer`, `check_copy_overlap` and
`clEnqueueCopyBufferRect` of `cl_api_mem.c`).

The test of the linear copy asks that both ranges start in each other.  It finds the ranges that
start together and no other ones; of two empty ranges it refuses those at address zero, where
`start + cb - 1` wraps around.

The test of the rectangles compares the boxes, then rows that run over their end into the next
row, and then columns that run over the end of a slice into the next one.  This last test is only
made for several slices, but one slice is enough to reach into the next.

* `rangesOverlap_iff` — what the test of the linear copy finds;
* **`clEnqueueCopyBuffer_overlap_iff`** — when it is exact;
* `shared_cases` — two rectangles share a byte in one of three ways;
* **`checkCopyOverlap_sound_iff`** — when the test of the rectangles finds the shared bytes.
-/
import Beignet.Runtime.BufferBounds

namespace Runtime

namespace Buffer

/-- The guards in front pass. -/
theorem firstError_append {gs hs : List Guard} (h : ∀ g ∈ gs, g.fails = false) :
    firstError (gs ++ hs) = firstError hs := by
  induction gs with
  | nil => rfl
  | cons g gs ih =>
    have hg : ¬ g.fails = true := by simp [h g List.mem_cons_self]
    rw [List.cons_append, firstError, if_neg hg]
    exact ih fun g' hg' => h g' (List.mem_cons_of_mem _ hg')

/-! ### Linear copies -/

section Linear

/-- What `cl_event_check_waitlist` answers. -/
def waitlistCodes : List ℤ := [CL_SUCCESS, -57, CL_INVALID_CONTEXT]

/-- Where a buffer starts in the address space of its parent. -/
def Mem.base (m : Mem) : ℕ := if m.type = .subbuffer then m.sub_offset.toNat else 0

/-- One buffer, or two sub-buffers of one parent. -/
def OneSpace (src dst : Mem) : Prop :=
  src = dst ∨ src.id ≠ dst.id ∧ src.type = .subbuffer ∧ dst.type = .subbuffer

/-- The range lies in the buffer, and the buffer in its parent, whose size is a `size_t`. -/
def InBuffer (m : Mem) (offset cb : UInt64) : Prop :=
  offset.toNat + cb.toNat ≤ m.size.toNat ∧ m.base + m.size.toNat < 2 ^ 64

/-- The two ranges intersect in the address space of the parent. -/
def Intersect (src dst : Mem) (src_offset dst_offset cb : UInt64) : Prop :=
  ∃ i, (src.base + src_offset.toNat ≤ i ∧ i < src.base + src_offset.toNat + cb.toNat) ∧
    dst.base + dst_offset.toNat ≤ i ∧ i < dst.base + dst_offset.toNat + cb.toNat

/-- The arguments in front of the ranges pass. -/
def CopyArgsOk (queue : Queue) (src dst : Mem) : Prop :=
  ∀ g ∈ [queueGuard queue, memGuard src, memGuard dst, contextGuard queue src,
    contextGuard queue dst], g.fails = false

/-- The call answers `CL_MEM_COPY_OVERLAP` exactly for ranges that intersect. -/
def OverlapExact (queue : Queue) (src dst : Mem) (src_offset dst_offset cb : UInt64)
    (waitlist : ℤ) : Prop :=
  CopyArgsOk queue src dst → waitlist ∈ waitlistCodes → OneSpace src dst →
    InBuffer src src_offset cb → InBuffer dst dst_offset cb →
      (firstError (clEnqueueCopyBuffer queue src dst src_offset dst_offset cb waitlist) =
        CL_MEM_COPY_OVERLAP ↔ Intersect src dst src_offset dst_offset cb)

/-- The ranges that the test tells apart: they start together or do not meet, and they are not two
empty ranges at address zero. -/
def Separable (src dst : Mem) (src_offset dst_offset cb : UInt64) : Prop :=
  (cb ≠ 0 → src.base + src_offset.toNat = dst.base + dst_offset.toNat ∨
    src.base + src_offset.toNat + cb.toNat ≤ dst.base + dst_offset.toNat ∨
    dst.base + dst_offset.toNat + cb.toNat ≤ src.base + src_offset.toNat) ∧
  (cb = 0 → src.id = dst.id → ¬ (src_offset = 0 ∧ dst_offset = 0)) ∧
  (cb = 0 → src.id ≠ dst.id →
    ¬ (src.base + src_offset.toNat = 0 ∧ dst.base + dst_offset.toNat = 0))

/-- The test finds ranges that start together. -/
theorem rangesOverlap_iff {src dst cb : UInt64} (hdst : dst.toNat + cb.toNat < 2 ^ 64) :
    rangesOverlap src dst cb = true ↔ src = dst ∧ (cb ≠ 0 ∨ src = 0) := by
  have hone : (1 : UInt64).toNat = 1 := rfl
  simp only [rangesOverlap, startsIn, Bool.and_eq_true, decide_eq_true_eq, UInt64.le_iff_toNat_le,
    UInt64.toNat_sub, UInt64.toNat_add, hone, Ne, ← UInt64.toNat_inj, UInt64.toNat_zero]
  omega

/-- The tests decide, since the wait list has other codes. -/
theorem firstError_overlap {waitlist : ℤ} (hwait : waitlist ∈ waitlistCodes) (b1 b2 : Bool) :
    firstError [.arg b1 CL_MEM_COPY_OVERLAP, .arg b2 CL_MEM_COPY_OVERLAP, waitlistGuard waitlist] =
      CL_MEM_COPY_OVERLAP ↔ b1 = true ∨ b2 = true := by
  have hne : firstError [waitlistGuard waitlist] ≠ CL_MEM_COPY_OVERLAP := by
    simp only [waitlistCodes, List.mem_cons, List.not_mem_nil, or_false] at hwait
    obtain rfl | rfl | rfl := hwait
    · decide
    · decide
    · decide
  cases b1
  · cases b2
    · simpa [firstError, Guard.fails] using hne
    · simp [firstError, Guard.fails, Guard.err]
  · simp [firstError, Guard.fails, Guard.err]

theorem InBuffer.bounds {m : Mem} {offset cb : UInt64} (h : InBuffer m offset cb) :
    Guard.fails (.bounds (offset + cb) m) = false := by
  have hle := h.1
  have hlt := m.size.toNat_lt
  simp only [Guard.fails, gt_iff_lt, decide_eq_false_iff_not, UInt64.lt_iff_toNat_lt,
    UInt64.toNat_add]
  omega

/-- What the two tests of the call find. -/
theorem clEnqueueCopyBuffer_eq {queue : Queue} {src dst : Mem} {src_offset dst_offset cb : UInt64}
    {waitlist : ℤ} (hargs : CopyArgsOk queue src dst) (hwait : waitlist ∈ waitlistCodes)
    (hsrc : InBuffer src src_offset cb) (hdst : InBuffer dst dst_offset cb) :
    firstError (clEnqueueCopyBuffer queue src dst src_offset dst_offset cb waitlist) =
        CL_MEM_COPY_OVERLAP ↔
      src.id = dst.id ∧ rangesOverlap src_offset dst_offset cb = true ∨
      (src.type = .subbuffer ∧ dst.type = .subbuffer) ∧
        rangesOverlap (src_offset + src.sub_offset) (dst_offset + dst.sub_offset) cb = true := by
  have hrest := firstError_overlap hwait
    (src.id = dst.id && rangesOverlap src_offset dst_offset cb)
    (src.type = .subbuffer && dst.type = .subbuffer &&
      rangesOverlap (src_offset + src.sub_offset) (dst_offset + dst.sub_offset) cb)
  have hbounds : ∀ g ∈ [Guard.bounds (src_offset + cb) src, .bounds (dst_offset + cb) dst],
      g.fails = false := by
    simp only [List.mem_cons, List.not_mem_nil, or_false]
    rintro g (rfl | rfl)
    · exact hsrc.bounds
    · exact hdst.bounds
  rw [← firstError_append hbounds, ← firstError_append hargs] at hrest
  refine Iff.trans hrest ?_
  simp only [Bool.and_eq_true, decide_eq_true_eq]

theorem intersect_iff {src dst : Mem} {src_offset dst_offset cb : UInt64} :
    Intersect src dst src_offset dst_offset cb ↔ 0 < cb.toNat ∧
      src.base + src_offset.toNat < dst.base + dst_offset.toNat + cb.toNat ∧
        dst.base + dst_offset.toNat < src.base + src_offset.toNat + cb.toNat := by
  constructor
  · rintro ⟨i, ⟨h1, h2⟩, h3, h4⟩
    omega
  · rintro ⟨h1, h2, h3⟩
    -- the start of the later range is in both
    exact ⟨max (src.base + src_offset.toNat) (dst.base + dst_offset.toNat), by omega, by omega,
      by omega⟩

/-- In the address space of the parent. -/
theorem toNat_add_sub_offset {m : Mem} {offset cb : UInt64} (h : InBuffer m offset cb)
    (hsub : m.type = .subbuffer) : (offset + m.sub_offset).toNat = m.base + offset.toNat := by
  obtain ⟨hle, hlt⟩ := h
  rw [Mem.base, if_pos hsub] at hlt ⊢
  rw [UInt64.toNat_add]
  omega

/-- The tests find ranges that start together. -/
theorem tests_iff {src dst : Mem} {src_offset dst_offset cb : UInt64} (hspace : OneSpace src dst)
    (hsrc : InBuffer src src_offset cb) (hdst : InBuffer dst dst_offset cb) :
    src.id = dst.id ∧ rangesOverlap src_offset dst_offset cb = true ∨
        (src.type = .subbuffer ∧ dst.type = .subbuffer) ∧
          rangesOverlap (src_offset + src.sub_offset) (dst_offset + dst.sub_offset) cb = true ↔
      src.base + src_offset.toNat = dst.base + dst_offset.toNat ∧ (0 < cb.toNat ∨
        if src.id = dst.id then src_offset.toNat = 0 else src.base + src_offset.toNat = 0) := by
  have hzero : ∀ n : UInt64, n = 0 ↔ n.toNat = 0 := fun n => by rw [← UInt64.toNat_inj]; rfl
  have hfits := hdst
  obtain ⟨hle, hlt⟩ := hfits
  have hoffsets : rangesOverlap src_offset dst_offset cb = true ↔
      src_offset.toNat = dst_offset.toNat ∧ (0 < cb.toNat ∨ src_offset.toNat = 0) := by
    rw [rangesOverlap_iff (by omega), Ne, hzero, hzero, ← UInt64.toNat_inj, Nat.pos_iff_ne_zero]
  have hparent : src.type = .subbuffer → dst.type = .subbuffer →
      (rangesOverlap (src_offset + src.sub_offset) (dst_offset + dst.sub_offset) cb = true ↔
        src.base + src_offset.toNat = dst.base + dst_offset.toNat ∧
          (0 < cb.toNat ∨ src.base + src_offset.toNat = 0)) := by
    intro hsub1 hsub2
    have h1 := toNat_add_sub_offset hsrc hsub1
    have h2 := toNat_add_sub_offset hdst hsub2
    rw [rangesOverlap_iff (by omega), Ne, hzero, hzero, ← UInt64.toNat_inj, h1, h2,
      Nat.pos_iff_ne_zero]
  rcases hspace with rfl | ⟨hne, hsub1, hsub2⟩
  · -- of one sub-buffer the second test finds nothing new
    rw [if_pos rfl, hoffsets]
    by_cases hsub : src.type = .subbuffer
    · rw [hparent hsub hsub]
      omega
    · simp only [hsub, false_and, or_false, true_and]
      omega
  · simp only [hne, false_and, false_or, if_false, hsub1, hsub2, true_and, hparent hsub1 hsub2]

/-- **Overlap of a linear copy.**  The call finds the overlap exactly when the ranges start
together or do not meet, except for two empty ranges at the start. -/
theorem clEnqueueCopyBuffer_overlap_iff (queue : Queue) (src dst : Mem)
    (src_offset dst_offset cb : UInt64) (waitlist : ℤ) :
    OverlapExact queue src dst src_offset dst_offset cb waitlist ↔
      (CopyArgsOk queue src dst → waitlist ∈ waitlistCodes → OneSpace src dst →
        InBuffer src src_offset cb → InBuffer dst dst_offset cb →
          Separable src dst src_offset dst_offset cb) := by
  refine forall₅_congr fun hargs hwait hspace hsrc hdst => ?_
  have hzero : ∀ n : UInt64, n = 0 ↔ n.toNat = 0 := fun n => by rw [← UInt64.toNat_inj]; rfl
  rw [clEnqueueCopyBuffer_eq hargs hwait hsrc hdst, tests_iff hspace hsrc hdst, intersect_iff]
  unfold Separable
  rw [Ne, hzero, hzero, hzero]
  by_cases hid : src.id = dst.id
  · have hbase : src.base = dst.base := by
      rcases hspace with rfl | ⟨hne, -⟩
      · rfl
      · exact absurd hid hne
    rw [if_pos hid]
    simp only [hid, ne_eq, not_true_eq_false, false_implies, forall_const, implies_true, and_true]
    omega
  · rw [if_neg hid]
    simp only [hid, ne_eq, not_false_eq_true, false_implies, forall_const, implies_true, true_and]
    omega

/-- Sixteen bytes copied from the start of a buffer to its eighth byte. -/
theorem shifted_wrong : ¬ OverlapExact ⟨true, 0⟩ ⟨0, true, .buffer, 0, 1, 64, 0, 1024⟩
    ⟨0, true, .buffer, 0, 1, 64, 0, 1024⟩ 0 8 16 CL_SUCCESS := by
  intro h
  have hargs : CopyArgsOk ⟨true, 0⟩ ⟨0, true, .buffer, 0, 1, 64, 0, 1024⟩
      ⟨0, true, .buffer, 0, 1, 64, 0, 1024⟩ := by
    simp [CopyArgsOk, Guard.fails, queueGuard, memGuard, contextGuard]
  have hexact := h hargs List.mem_cons_self (.inl rfl) ⟨by decide, by decide⟩
    ⟨by decide, by decide⟩
  exact absurd (hexact.mpr ⟨8, by decide, by decide⟩) (by decide)

end Linear

/-! ### Rectangles -/

section Rect

/-- Rows of `row` bytes, one `x` and row `y + height * z` each: what two bytes of one address have
in common. -/
theorem sameByte_cases {row height x1 y1 z1 x2 y2 z2 : ℕ}
    (h : z1 * (height * row) + y1 * row + x1 = z2 * (height * row) + y2 * row + x2) :
    x2 + row ≤ x1 ∨ x1 + row ≤ x2 ∨
      x1 = x2 ∧ (z1 = z2 ∧ y1 = y2 ∨ y2 + height ≤ y1 ∨ y1 + height ≤ y2) := by
  have hrows : x1 + row * (y1 + height * z1) = x2 + row * (y2 + height * z2) := by linarith
  rcases Nat.lt_trichotomy (y1 + height * z1) (y2 + height * z2) with hlt | heq | hgt
  · -- the first row starts before the second, so its column is further on
    have hmul : row * (y1 + height * z1 + 1) ≤ row * (y2 + height * z2) :=
      Nat.mul_le_mul_left row hlt
    rw [Nat.mul_add, Nat.mul_one] at hmul
    omega
  · rw [heq] at hrows
    rcases Nat.lt_trichotomy z1 z2 with hlt | rfl | hgt
    · have hmul : height * (z1 + 1) ≤ height * z2 := Nat.mul_le_mul_left height hlt
      rw [Nat.mul_add, Nat.mul_one] at hmul
      omega
    · omega
    · have hmul : height * (z2 + 1) ≤ height * z1 := Nat.mul_le_mul_left height hgt
      rw [Nat.mul_add, Nat.mul_one] at hmul
      omega
  · have hmul : row * (y2 + height * z2 + 1) ≤ row * (y1 + height * z1) :=
      Nat.mul_le_mul_left row hgt
    rw [Nat.mul_add, Nat.mul_one] at hmul
    omega

/-- A part of a row or of a slice reaches over its end, to the other rectangle. -/
theorem sticksOut_iff {offset extent limit other : UInt64}
    (h : offset.toNat + extent.toNat < 2 ^ 64) :
    sticksOut offset extent limit other = true ↔
      other.toNat + limit.toNat < offset.toNat + extent.toNat := by
  have hsum : (offset + extent).toNat = offset.toNat + extent.toNat := by
    rw [UInt64.toNat_add]
    omega
  have hzero : (0 : UInt64).toNat = 0 := rfl
  by_cases hlt : offset + extent > limit
  · have hlt' : limit.toNat < offset.toNat + extent.toNat := hsum ▸ hlt
    have hsub : (offset + extent - limit).toNat = offset.toNat + extent.toNat - limit.toNat := by
      rw [UInt64.toNat_sub_of_le _ _ (UInt64.le_of_lt hlt), hsum]
    have hdelta : sticksOut offset extent limit other =
        (decide (offset + extent - limit > 0) && decide (offset + extent - limit > other)) := by
      simp only [sticksOut, if_pos hlt]
    simp only [hdelta, gt_iff_lt, Bool.and_eq_true, decide_eq_true_eq, UInt64.lt_iff_toNat_lt,
      hsub, hzero]
    omega
  · have hle : offset.toNat + extent.toNat ≤ limit.toNat := hsum ▸ UInt64.not_lt.mp hlt
    simp only [sticksOut, if_neg hlt, gt_iff_lt, UInt64.lt_irrefl, decide_false, Bool.false_and,
      Bool.false_eq_true, false_iff]
    omega

/-- The first byte of a rectangle. -/
def start (origin : Vec3) (row slice : UInt64) : ℕ :=
  origin.z.toNat * slice.toNat + origin.y.toNat * row.toNat + origin.x.toNat

/-- The boxes meet in each dimension; the sums are those of the code. -/
def BoxesMeet (src dst region : Vec3) : Prop :=
  (src.x < dst.x + region.x ∧ dst.x < src.x + region.x) ∧
    (src.y < dst.y + region.y ∧ dst.y < src.y + region.y) ∧
      src.z < dst.z + region.z ∧ dst.z < src.z + region.z

/-- A row of one rectangle runs over its end into the columns of the other. -/
def RowReaches (src dst region : Vec3) (row : UInt64) : Prop :=
  dst.x.toNat + row.toNat < src.x.toNat + region.x.toNat ∨
    src.x.toNat + row.toNat < dst.x.toNat + region.x.toNat

/-- A column of one rectangle runs over the end of the slice into the rows of the other. -/
def SliceReaches (src dst region : Vec3) (height : ℕ) : Prop :=
  dst.y.toNat + height < src.y.toNat + region.y.toNat ∨
    src.y.toNat + height < dst.y.toNat + region.y.toNat

/-- The end of the rectangle that starts first lies behind the start of the other.  The code sets
the end a slice and a row too far, and it may wrap around. -/
def EndReaches (src dst region : Vec3) (row slice : UInt64) : Prop :=
  max (start src row slice) (start dst row slice) <
    (min (start src row slice) (start dst row slice) + (region.z.toNat * slice.toNat +
      region.y.toNat * row.toNat + region.x.toNat)) % 2 ^ 64

/-- The test finds the shared bytes of the two rectangles. -/
def Found (src dst region : Vec3) (row slice : UInt64) : Prop :=
  BoxesMeet src dst region ∨
    EndReaches src dst region row slice ∧ (1 < region.z.toNat ∨ RowReaches src dst region row)

/-- A rectangle of the call: it is not empty, its rows fit, and its end does not wrap. -/
structure Fits (origin region : Vec3) (row slice : UInt64) : Prop where
  x_pos : 0 < region.x.toNat
  y_pos : 0 < region.y.toNat
  z_pos : 0 < region.z.toNat
  row_ge : region.x.toNat ≤ row.toNat
  slice_dvd : row.toNat ∣ slice.toNat
  finish_lt : (origin.z.toNat + (region.z.toNat - 1)) * slice.toNat +
    (origin.y.toNat + (region.y.toNat - 1)) * row.toNat +
      (origin.x.toNat + region.x.toNat) < 2 ^ 64

section Rects

variable {src dst region : Vec3} {row slice : UInt64}

theorem Fits.x_lt (h : Fits src region row slice) : src.x.toNat + region.x.toNat < 2 ^ 64 := by
  have hfin := h.finish_lt
  omega

theorem Fits.y_lt (h : Fits src region row slice) : src.y.toNat + region.y.toNat < 2 ^ 64 := by
  have hfin := h.finish_lt
  have hx := h.x_pos
  have hy := h.y_pos
  have hrow := h.row_ge
  have hmul := Nat.mul_le_mul_left (src.y.toNat + (region.y.toNat - 1))
    (show 1 ≤ row.toNat by omega)
  omega

/-- Without a slice pitch the origin may lie anywhere. -/
theorem Fits.z_lt (h : Fits src region row slice) (hslice : 0 < slice.toNat) :
    src.z.toNat + region.z.toNat < 2 ^ 64 := by
  have hfin := h.finish_lt
  have hx := h.x_pos
  have hz := h.z_pos
  have hmul := Nat.mul_le_mul_left (src.z.toNat + (region.z.toNat - 1))
    (show 1 ≤ slice.toNat by omega)
  omega

theorem Fits.start_lt (h : Fits src region row slice) : start src row slice < 2 ^ 64 := by
  have hfin := h.finish_lt
  have hy := Nat.mul_le_mul_right row.toNat
    (show src.y.toNat ≤ src.y.toNat + (region.y.toNat - 1) by omega)
  have hz := Nat.mul_le_mul_right slice.toNat
    (show src.z.toNat ≤ src.z.toNat + (region.z.toNat - 1) by omega)
  unfold start
  omega

theorem boxesMeet_iff_toNat (hsrc : Fits src region row slice) (hdst : Fits dst region row slice)
    (hslice : 0 < slice.toNat) : BoxesMeet src dst region ↔
      (src.x.toNat < dst.x.toNat + region.x.toNat ∧ dst.x.toNat < src.x.toNat + region.x.toNat) ∧
      (src.y.toNat < dst.y.toNat + region.y.toNat ∧ dst.y.toNat < src.y.toNat + region.y.toNat) ∧
      src.z.toNat < dst.z.toNat + region.z.toNat ∧ dst.z.toNat < src.z.toNat + region.z.toNat := by
  simp only [BoxesMeet, UInt64.lt_iff_toNat_lt, UInt64.toNat_add, Nat.mod_eq_of_lt hsrc.x_lt,
    Nat.mod_eq_of_lt hdst.x_lt, Nat.mod_eq_of_lt hsrc.y_lt, Nat.mod_eq_of_lt hdst.y_lt,
    Nat.mod_eq_of_lt (hsrc.z_lt hslice), Nat.mod_eq_of_lt (hdst.z_lt hslice)]

/-- **Two rectangles share a byte** in one of three ways. -/
theorem shared_cases (hsrc : Fits src region row slice) (hdst : Fits dst region row slice)
    {b1 b2 : Mem} {i : ℕ} (h1 : (Access.rect b1 src region row slice).Addresses i)
    (h2 : (Access.rect b2 dst region row slice).Addresses i) :
    BoxesMeet src dst region ∨ RowReaches src dst region row ∨
      SliceReaches src dst region (slice.toNat / row.toNat) := by
  obtain ⟨x1, hx1, y1, hy1, z1, hz1, hi⟩ := h1
  obtain ⟨x2, hx2, y2, hy2, z2, hz2, rfl⟩ := h2
  have hheight := Nat.div_mul_cancel hsrc.slice_dvd
  rw [← hheight] at hi
  rcases sameByte_cases hi with h | h | ⟨hx, ⟨hz, hy⟩ | h | h⟩
  · exact .inr (.inl (.inr (by omega)))
  · exact .inr (.inl (.inl (by omega)))
  · -- without a slice pitch all slices are one
    rcases Nat.eq_zero_or_pos slice.toNat with hzero | hpos
    · rw [hzero, Nat.zero_div]
      exact .inr (.inr (.inl (by omega)))
    · rw [boxesMeet_iff_toNat hsrc hdst hpos]
      exact .inl ⟨by omega, by omega, by omega⟩
  · exact .inr (.inr (.inr (by omega)))
  · exact .inr (.inr (.inl (by omega)))

/-- The comparison of the linear ranges. -/
def linearOverlap (src dst region : Vec3) (row slice : UInt64) : Bool :=
  let first (o : Vec3) := o.z * slice + o.y * row + o.x
  let finish (o : Vec3) := first o + (region.z * slice + region.y * row + region.x)
  (first src ≤ first dst && first dst < finish src) ||
    (first dst ≤ first src && first src < finish dst)

theorem linearOverlap_iff (hsrc : Fits src region row slice) (hdst : Fits dst region row slice) :
    linearOverlap src dst region row slice = true ↔ EndReaches src dst region row slice := by
  let first (o : Vec3) := o.z * slice + o.y * row + o.x
  let finish (o : Vec3) := first o + (region.z * slice + region.y * row + region.x)
  have hfirst : ∀ o, Fits o region row slice → (first o).toNat = start o row slice := by
    intro o ho
    simp only [first, UInt64.toNat_add, UInt64.toNat_mul, Nat.mod_add_mod, Nat.add_mod_mod]
    exact Nat.mod_eq_of_lt ho.start_lt
  have hfinish : ∀ o, Fits o region row slice → (finish o).toNat = (start o row slice +
      (region.z.toNat * slice.toNat + region.y.toNat * row.toNat + region.x.toNat)) % 2 ^ 64 := by
    intro o ho
    simp only [finish, UInt64.toNat_add, hfirst o ho, UInt64.toNat_mul, Nat.mod_add_mod,
      Nat.add_mod_mod]
  show (decide (first src ≤ first dst) && decide (first dst < finish src) ||
    decide (first dst ≤ first src) && decide (first src < finish dst)) = true ↔ _
  simp only [Bool.or_eq_true, Bool.and_eq_true, decide_eq_true_eq, UInt64.le_iff_toNat_le,
    UInt64.lt_iff_toNat_lt, hfirst src hsrc, hfirst dst hdst, hfinish src hsrc, hfinish dst hdst,
    EndReaches]
  rcases Nat.le_total (start src row slice) (start dst row slice) with hle | hle
  · rw [max_eq_right hle, min_eq_left hle]
    constructor
    · rintro (⟨-, h⟩ | ⟨hge, h⟩)
      · exact h
      · rwa [le_antisymm hle hge] at h ⊢
    · exact fun h => .inl ⟨hle, h⟩
  · rw [max_eq_left hle, min_eq_right hle]
    constructor
    · rintro (⟨hge, h⟩ | ⟨-, h⟩)
      · rwa [le_antisymm hle hge] at h ⊢
      · exact h
    · exact fun h => .inr ⟨hle, h⟩

theorem checkCopyOverlap_eq : checkCopyOverlap src dst region row slice =
    ((src.x < dst.x + region.x && src.x + region.x > dst.x &&
      (src.y < dst.y + region.y && src.y + region.y > dst.y) &&
        (src.z < dst.z + region.z && src.z + region.z > dst.z) ||
    (sticksOut src.x region.x row dst.x || sticksOut dst.x region.x row src.x) &&
      linearOverlap src dst region row slice) ||
    region.z > 1 && (sticksOut src.y region.y (slice / row) dst.y ||
      sticksOut dst.y region.y (slice / row) src.y) &&
        linearOverlap src dst region row slice) := rfl

/-- The comparison of the boxes. -/
theorem boxes_iff : (src.x < dst.x + region.x && src.x + region.x > dst.x &&
    (src.y < dst.y + region.y && src.y + region.y > dst.y) &&
      (src.z < dst.z + region.z && src.z + region.z > dst.z)) = true ↔
        BoxesMeet src dst region := by
  simp only [Bool.and_eq_true, decide_eq_true_eq, gt_iff_lt, BoxesMeet, and_assoc]

/-- What the test finds of rectangles that share a byte. -/
theorem checkCopyOverlap_iff (hsrc : Fits src region row slice) (hdst : Fits dst region row slice)
    {b1 b2 : Mem} {i : ℕ} (h1 : (Access.rect b1 src region row slice).Addresses i)
    (h2 : (Access.rect b2 dst region row slice).Addresses i) :
    checkCopyOverlap src dst region row slice = true ↔ Found src dst region row slice := by
  have hrow : (sticksOut src.x region.x row dst.x || sticksOut dst.x region.x row src.x) = true ↔
      RowReaches src dst region row := by
    rw [Bool.or_eq_true, sticksOut_iff hsrc.x_lt, sticksOut_iff hdst.x_lt]
    rfl
  have hheight : (slice / row).toNat = slice.toNat / row.toNat := UInt64.toNat_div slice row
  have hslice : (sticksOut src.y region.y (slice / row) dst.y ||
      sticksOut dst.y region.y (slice / row) src.y) = true ↔
        SliceReaches src dst region (slice.toNat / row.toNat) := by
    rw [Bool.or_eq_true, sticksOut_iff hsrc.y_lt, sticksOut_iff hdst.y_lt, hheight]
    rfl
  have hdeep : region.z > 1 ↔ 1 < region.z.toNat := UInt64.lt_iff_toNat_lt
  have hcases := shared_cases hsrc hdst h1 h2
  rw [checkCopyOverlap_eq, Bool.or_eq_true, Bool.or_eq_true, boxes_iff,
    Bool.and_eq_true _ (linearOverlap ..), Bool.and_eq_true _ (linearOverlap ..), hrow,
    Bool.and_eq_true (decide (region.z > 1)), hslice, linearOverlap_iff hsrc hdst,
    decide_eq_true_eq, hdeep]
  constructor
  · rintro ((hboxes | ⟨hreach, hend⟩) | ⟨⟨hz, -⟩, hend⟩)
    · exact .inl hboxes
    · exact .inr ⟨hend, .inr hreach⟩
    · exact .inr ⟨hend, .inl hz⟩
  · rintro (hboxes | ⟨hend, hz | hreach⟩)
    · exact .inl (.inl hboxes)
    · -- with several slices each of the three ways is tested
      rcases hcases with hboxes | hreach | hcolumn
      · exact .inl (.inl hboxes)
      · exact .inl (.inr ⟨hreach, hend⟩)
      · exact .inr ⟨⟨hz, hcolumn⟩, hend⟩
    · exact .inl (.inr ⟨hreach, hend⟩)

end Rects

/-- The guards in front of the overlap test pass, for a copy within one buffer. -/
def RectArgsOk (queue : Queue) (buffer : Mem) (r : RectArgs) (region : Bool) : Prop :=
  ∀ g ∈ (clEnqueueCopyBufferRect queue buffer buffer r region CL_SUCCESS).take 10, g.fails = false

/-- When the rectangles lie in the buffer and share a byte, the test is true and the call is
refused. -/
def OverlapSound (queue : Queue) (buffer : Mem) (r : RectArgs) (region : Bool) (waitlist : ℤ) :
    Prop :=
  RectArgsOk queue buffer r region →
    (Access.rect buffer r.origin₁ r.region r.row₁ r.slice₁).InBounds →
    (Access.rect buffer r.origin₂ r.region r.row₂ r.slice₂).InBounds →
    ∀ i, (Access.rect buffer r.origin₁ r.region r.row₁ r.slice₁).Addresses i →
      (Access.rect buffer r.origin₂ r.region r.row₂ r.slice₂).Addresses i →
        checkCopyOverlap r.origin₁ r.origin₂ r.region r.row₁ r.slice₁ = true ∧
          firstError (clEnqueueCopyBufferRect queue buffer buffer r region waitlist) =
            CL_MEM_COPY_OVERLAP

theorem RectArgsOk.pitches {queue : Queue} {buffer : Mem} {r : RectArgs} {region : Bool}
    (h : RectArgsOk queue buffer r region) : r.row₁ = r.row₂ ∧ r.slice₁ = r.slice₂ := by
  have hg := h (.arg (buffer.id = buffer.id && (r.row₁ ≠ r.row₂ || r.slice₁ ≠ r.slice₂))
    CL_INVALID_VALUE) (by simp [clEnqueueCopyBufferRect])
  simpa [Guard.fails] using hg

/-- A rectangle that lies in the buffer. -/
theorem RectArgsOk.fits {queue : Queue} {buffer : Mem} {r : RectArgs} {region : Bool}
    (h : RectArgsOk queue buffer r region) {origin : Vec3}
    (hmem : Guard.bounds (totalSize origin r.region r.row₁ r.slice₁) buffer ∈
      (clEnqueueCopyBufferRect queue buffer buffer r region CL_SUCCESS).take 10)
    (hin : (Access.rect buffer origin r.region r.row₁ r.slice₁).InBounds) :
    Fits origin r.region r.row₁ r.slice₁ := by
  have hregion := h (regionGuard region r.region) (by simp [clEnqueueCopyBufferRect])
  have hrow := h (rowPitchGuard r.row₁ r.row₂ r.region) (by simp [clEnqueueCopyBufferRect])
  have hslice := h (slicePitchGuard r.row₁ r.slice₁ r.row₂ r.slice₂ r.region)
    (by simp [clEnqueueCopyBufferRect])
  have hbounds := h _ hmem
  simp only [Guard.fails, regionGuard, rowPitchGuard, slicePitchGuard, slicePitchBad,
    Bool.or_eq_false_iff, Bool.not_eq_false', beq_eq_false_iff_ne, decide_eq_false_iff_not,
    not_not, gt_iff_lt, UInt64.not_lt] at hregion hrow hslice hbounds
  obtain ⟨⟨⟨-, hx⟩, hy⟩, hz⟩ := hregion
  have hmod : r.slice₁.toNat % r.row₁.toNat = 0 := by
    rw [← UInt64.toNat_mod, hslice.1.2]
    rfl
  exact ⟨toNat_pos hx, toNat_pos hy, toNat_pos hz, hrow.1, Nat.dvd_of_mod_eq_zero hmod,
    (Access.inBounds_iff (a := .rect buffer origin r.region r.row₁ r.slice₁)
      ⟨toNat_pos hx, toNat_pos hy, toNat_pos hz⟩ hbounds).mp hin⟩

/-- **Overlap of rectangles.**  Shared bytes are found exactly when the boxes meet, or the end of
the first rectangle does not wrap and there are several slices or a row that runs over its end. -/
theorem checkCopyOverlap_sound_iff (queue : Queue) (buffer : Mem) (r : RectArgs) (region : Bool)
    (waitlist : ℤ) :
    OverlapSound queue buffer r region waitlist ↔
      (RectArgsOk queue buffer r region →
        (Access.rect buffer r.origin₁ r.region r.row₁ r.slice₁).InBounds →
        (Access.rect buffer r.origin₂ r.region r.row₂ r.slice₂).InBounds →
        ∀ i, (Access.rect buffer r.origin₁ r.region r.row₁ r.slice₁).Addresses i →
          (Access.rect buffer r.origin₂ r.region r.row₂ r.slice₂).Addresses i →
            Found r.origin₁ r.origin₂ r.region r.row₁ r.slice₁) := by
  refine forall₃_congr fun hargs hin1 hin2 => forall₃_congr fun i h1 h2 => ?_
  obtain ⟨hrow, hslice⟩ := hargs.pitches
  rw [← hrow, ← hslice] at hin2 h2
  have hsrc := hargs.fits (by simp [clEnqueueCopyBufferRect]) hin1
  have hdst : Fits r.origin₂ r.region r.row₁ r.slice₁ :=
    hargs.fits (by simp [clEnqueueCopyBufferRect, hrow, hslice]) hin2
  rw [checkCopyOverlap_iff hsrc hdst h1 h2]
  refine and_iff_left_of_imp fun hfound => ?_
  rw [← checkCopyOverlap_iff hsrc hdst h1 h2] at hfound
  have hfail : Guard.fails (.arg (buffer.id = buffer.id && checkCopyOverlap r.origin₁ r.origin₂
      r.region r.row₁ r.slice₁) CL_MEM_COPY_OVERLAP) = true := by
    simp [Guard.fails, hfound]
  refine (firstError_append hargs).trans ?_
  exact if_pos hfail

/-- A byte in the third row and the first byte of the second slice, with two rows to a slice. -/
theorem nextSlice_wrong : ¬ OverlapSound ⟨true, 0⟩ ⟨0, true, .buffer, 0, 1, 64, 0, 1024⟩
    ⟨⟨0, 2, 0⟩, ⟨0, 0, 1⟩, ⟨1, 1, 1⟩, 1, 2, 1, 2⟩ true CL_SUCCESS := by
  intro h
  have hargs : RectArgsOk ⟨true, 0⟩ ⟨0, true, .buffer, 0, 1, 64, 0, 1024⟩
      ⟨⟨0, 2, 0⟩, ⟨0, 0, 1⟩, ⟨1, 1, 1⟩, 1, 2, 1, 2⟩ true := by
    unfold RectArgsOk
    decide
  have hin : ∀ o : Vec3, totalSize o ⟨1, 1, 1⟩ 1 2 ≤ 64 →
      (Access.rect ⟨0, true, .buffer, 0, 1, 64, 0, 1024⟩ o ⟨1, 1, 1⟩ 1 2).finish < 2 ^ 64 →
        (Access.rect ⟨0, true, .buffer, 0, 1, 64, 0, 1024⟩ o ⟨1, 1, 1⟩ 1 2).InBounds := by
    intro o hle hlt
    have hsolid : (Access.rect ⟨0, true, .buffer, 0, 1, 64, 0, 1024⟩ o ⟨1, 1, 1⟩ 1 2).Solid :=
      ⟨by decide, by decide, by decide⟩
    exact (Access.inBounds_iff hsolid hle).mpr hlt
  have hshared := h hargs (hin ⟨0, 2, 0⟩ (by decide) (by decide))
    (hin ⟨0, 0, 1⟩ (by decide) (by decide)) 2
    ⟨0, by decide, 0, by decide, 0, by decide, by decide⟩
    ⟨0, by decide, 0, by decide, 0, by decide, by decide⟩
  exact absurd hshared.1 (by decide)

end Rect

end Buffer

end Runtime
