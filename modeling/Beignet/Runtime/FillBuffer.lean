/-
Buffer fills on the device: `cl_mem_fill` (`cl_mem.c`) and the kernels `cl_internal_fill_buf_*.cl`.

The host chooses a kernel by the size of the pattern, repeats small patterns in a word where offset
and size allow it, and halves the largest one.  The kernels compute their indices in 32 bits; a
`float` that is only moved is its bytes.  The failure to create a kernel is left out.

* `Launch.Fills` — what the work-items of a launch write;
* **`cl_mem_fill_eq_filled`** — the fill is exact, whatever the order of the work-items.
-/
import Beignet.Lib.Footprint
import Beignet.Runtime.CopyKernels

open Bytes

namespace Runtime.FillBuffer

open Runtime.CopyBuffer (LOCAL_SZ_0 globalSize)

/-- The bytes behind a pointer. -/
abbrev Pattern := ℕ → BitVec 8

/-! ### Kernels -/

section Items

variable (dst : ℕ)

/-- `dst[i] = pattern`, for elements of `w` bytes -/
def setDst (w : ℕ) (m : Mem) (i : BitVec 32) (pattern : Pattern) : Mem :=
  fun x => if dst + w * i.toNat ≤ x ∧ x < dst + w * i.toNat + w then
    pattern (x - (dst + w * i.toNat)) else m x

/-- The kernels that differ in their element only. -/
def fillRegion (w : ℕ) (pattern : Pattern) (offset size i : BitVec 32) (m : Mem) : Mem :=
  if i < size then setDst dst w m (i + offset) pattern else m

def cl_fill_region_unalign := fillRegion dst 1
def cl_fill_region_align2 := fillRegion dst 2
def cl_fill_region_align4 := fillRegion dst 4

/-- `COMPILER_ABS_FUNC_N` -/
def cl_fill_region_align8 (n : ℕ) := fillRegion dst (4 * n)

def cl_fill_region_align128 (pattern0 pattern1 : Pattern) (offset size i : BitVec 32) (m : Mem) :
    Mem :=
  if i < size then
    let m := setDst dst 64 m (i * 2 + offset) pattern0
    setDst dst 64 m (i * 2 + offset + 1) pattern1
  else m

end Items

/-! ### The host -/

/-- The kernels for patterns. -/
inductive Kernel where
  | unalign
  | align2
  | align4
  | align8 (n : ℕ)
  | align128 (pattern1 : Pattern)

/-- One launch. -/
structure Launch where
  kernel : Kernel
  pattern : Pattern
  offset : BitVec 32
  size : BitVec 32
  global_sz : ℕ

/-- One work-item. -/
def Launch.item (launch : Launch) (dst : ℕ) (gid : ℕ) (m : Mem) : Mem :=
  let i := BitVec.ofNat 32 gid
  match launch.kernel with
  | .unalign => cl_fill_region_unalign dst launch.pattern launch.offset launch.size i m
  | .align2 => cl_fill_region_align2 dst launch.pattern launch.offset launch.size i m
  | .align4 => cl_fill_region_align4 dst launch.pattern launch.offset launch.size i m
  | .align8 n => cl_fill_region_align8 dst n launch.pattern launch.offset launch.size i m
  | .align128 pattern1 =>
    cl_fill_region_align128 dst launch.pattern pattern1 launch.offset launch.size i m

/-- What a call comes to. -/
inductive Outcome where
  | nothing
  | launched (launch : Launch)
  /-- an assertion fails -/
  | aborted

def Outcome.global_sz : Outcome → ℕ
  | launched launch => launch.global_sz
  | nothing | aborted => 0

/-- The work-items of a call, in the order given. -/
def Outcome.run (dst : ℕ) (order : List ℕ) (m : Mem) : Outcome → Option Mem
  | nothing => some m
  | launched launch => some (order.foldl (fun m gid => launch.item dst gid m) m)
  | aborted => none

/-- The position of the first set bit, from 1 on. -/
def ffs (n : ℕ) : ℕ :=
  match (List.range 32).find? fun k => n.testBit k with
  | some k => k + 1
  | none => 0

/-- The vector of the kernel with the index `CL_ENQUEUE_FILL_BUFFER_ALIGN8_8 + order`. -/
def align8Vector : ℕ → ℕ
  | 0 => 2
  | 1 => 4
  | 2 => 8
  | _ => 16

/-- The pattern of one or two bytes, repeated in a word. -/
def pattern_comb (pattern_size : ℕ) (pattern : Pattern) : Pattern :=
  if pattern_size = 2 then fun k => if k < 2 then pattern k else pattern (k - 2)
  else fun _ => pattern 0

/-- The arguments behind the choice of a kernel. -/
def fillLaunch (kernel : Kernel) (pattern : Pattern) (pattern_size offset size : ℕ) : Launch where
  kernel := kernel
  pattern := pattern
  offset := BitVec.ofNat 32 (offset / pattern_size)
  size := BitVec.ofNat 32 (size / pattern_size)
  global_sz := globalSize (size / pattern_size)

def cl_mem_fill (pattern : Pattern) (pattern_size offset size : ℕ) : Outcome :=
  if offset % pattern_size ≠ 0 ∨ size % pattern_size ≠ 0 then .aborted
  else if size = 0 then .nothing
  else if pattern_size = 128 then
    let pattern_size := pattern_size / 2
    .launched (fillLaunch (.align128 fun k => pattern (pattern_size + k)) pattern pattern_size
      offset (size / 2))
  else if pattern_size % 8 = 0 then
    let order := ffs (pattern_size / 8) - 1
    .launched (fillLaunch (.align8 (align8Vector order)) pattern pattern_size offset size)
  else if pattern_size = 4 then .launched (fillLaunch .align4 pattern pattern_size offset size)
  else if size ≥ 4 ∧ size % 4 = 0 ∧ offset % 4 = 0 then
    if pattern_size = 1 ∨ pattern_size = 2 then
      .launched (fillLaunch .align4 (pattern_comb pattern_size pattern) 4 offset size)
    else .aborted
  else if pattern_size = 2 then .launched (fillLaunch .align2 pattern pattern_size offset size)
  else if pattern_size = 1 then .launched (fillLaunch .unalign pattern pattern_size offset size)
  else .aborted

/-! ### Fills -/

/-- The largest `max_mem_alloc_size` of the devices, above which no buffer is made. -/
def max_mem_alloc_size : ℕ := 4 * 1024 * 1024 * 1024

/-- A fill that `clEnqueueFillBuffer` lets pass, of bytes that the buffer has. -/
structure Fill where
  pattern : Pattern
  pattern_size : ℕ
  offset : ℕ
  size : ℕ
  buffer_size : ℕ
  valid : pattern_size ∈ [1, 2, 4, 8, 16, 32, 64, 128]
  offset_dvd : pattern_size ∣ offset
  size_dvd : pattern_size ∣ size
  fits : offset + size ≤ buffer_size
  buffer_le : buffer_size ≤ max_mem_alloc_size

namespace Fill

variable (f : Fill)

def call : Outcome := cl_mem_fill f.pattern f.pattern_size f.offset f.size

/-- The pattern repeated from the offset on. -/
def filled (dst : ℕ) (m : Mem) : Mem :=
  fun x => if dst + f.offset ≤ x ∧ x < dst + f.offset + f.size then
    f.pattern ((x - (dst + f.offset)) % f.pattern_size) else m x

end Fill

/-- The bytes of the filled range that are in its piece `gid` of `w` bytes. -/
def Fill.piece (f : Fill) (dst w gid : ℕ) : Set ℕ :=
  {x | gid < f.size / w ∧ dst + f.offset + w * gid ≤ x ∧ x < dst + f.offset + w * gid + w}

instance (f : Fill) (dst w gid : ℕ) : DecidablePred (· ∈ f.piece dst w gid) := fun x =>
  inferInstanceAs (Decidable (gid < f.size / w ∧ dst + f.offset + w * gid ≤ x ∧
    x < dst + f.offset + w * gid + w))

/-- The byte of the pattern that belongs to an address. -/
def Fill.byteAt (f : Fill) (dst x : ℕ) : BitVec 8 :=
  f.pattern ((x - (dst + f.offset)) % f.pattern_size)

/-- Each work-item fills its piece of `w` bytes. -/
def Launch.Fills (launch : Launch) (f : Fill) (dst w : ℕ) : Prop :=
  ∀ gid < launch.global_sz, ∀ m x,
    launch.item dst gid m x = if x ∈ f.piece dst w gid then f.byteAt dst x else m x

variable {f : Fill}

theorem Fill.pattern_size_pos (f : Fill) : 0 < f.pattern_size := by
  have h := f.valid
  simp only [List.mem_cons, List.not_mem_nil, or_false] at h
  omega

/-- The pieces cover the range. -/
theorem Fill.exists_piece_iff {w : ℕ} (hw : 0 < w) (hdvd : w ∣ f.size) (dst x : ℕ) :
    (∃ gid, x ∈ f.piece dst w gid) ↔ dst + f.offset ≤ x ∧ x < dst + f.offset + f.size := by
  constructor
  · rintro ⟨gid, hgid, hlo, hhi⟩
    have hend : w * (gid + 1) ≤ f.size := (Nat.mul_le_mul_left w hgid).trans (Nat.mul_div_le ..)
    rw [Nat.mul_succ] at hend
    omega
  · rintro ⟨hlo, hhi⟩
    have hdiv := Nat.div_add_mod (x - (dst + f.offset)) w
    have hmod := Nat.mod_lt (x - (dst + f.offset)) hw
    refine ⟨(x - (dst + f.offset)) / w, Nat.div_lt_div_of_lt_of_dvd hdvd (by omega), ?_, ?_⟩
    · omega
    · omega

/-- The items of a launch fill the range, in any order. -/
theorem Launch.Fills.foldl_eq {launch : Launch} {dst w : ℕ} (h : launch.Fills f dst w)
    (hw : 0 < w) (hdvd : w ∣ f.size) (hsize : f.size / w ≤ launch.global_sz) {order : List ℕ}
    (horder : order.Perm (List.range launch.global_sz)) (m : Mem) :
    order.foldl (fun m gid => launch.item dst gid m) m = f.filled dst m := by
  have hmem : ∀ gid, gid ∈ order ↔ gid < launch.global_sz := by
    intro gid
    rw [horder.mem_iff, List.mem_range]
  have hwrites : ∀ s : Mem, True → ∀ gid ∈ order, True ∧ ∀ x,
      launch.item dst gid s x = if x ∈ f.piece dst w gid then f.byteAt dst x else s x :=
    fun s _ gid hgid => ⟨trivial, h gid ((hmem gid).mp hgid) s⟩
  obtain ⟨hin, hout⟩ := Footprint.foldl_writes (f := fun m gid => launch.item dst gid m)
    (I := fun _ => True) (v := f.byteAt dst) hwrites (s := m) trivial
  funext x
  by_cases hx : dst + f.offset ≤ x ∧ x < dst + f.offset + f.size
  · obtain ⟨gid, hgid⟩ := (f.exists_piece_iff hw hdvd dst x).mpr hx
    rw [hin x ⟨gid, (hmem gid).mpr (hgid.1.trans_le hsize), hgid⟩]
    exact (if_pos hx).symm
  · rw [hout x fun gid _ hgid => hx ((f.exists_piece_iff hw hdvd dst x).mp ⟨gid, hgid⟩)]
    exact (if_neg hx).symm

/-! ### Items -/

theorem setDst_of_index {dst w a : ℕ} {i : BitVec 32} (h : w * i.toNat = a) (m : Mem)
    (pattern : Pattern) (x : ℕ) : setDst dst w m i pattern x =
      if dst + a ≤ x ∧ x < dst + a + w then pattern (x - (dst + a)) else m x := by
  rw [setDst, h]

/-- The byte of the pattern that belongs to byte `k` of a piece. -/
theorem Fill.byteAt_piece (f : Fill) {w : ℕ} (hpat : f.pattern_size ∣ w) (dst gid k : ℕ) :
    f.byteAt dst (dst + f.offset + w * gid + k) = f.pattern (k % f.pattern_size) := by
  have hmul : f.pattern_size ∣ w * gid := hpat.mul_right gid
  rw [Fill.byteAt, Nat.add_assoc, Nat.add_sub_cancel_left, Nat.add_mod,
    Nat.mod_eq_zero_of_dvd hmul, Nat.zero_add, Nat.mod_mod]

/-- A piece that has its work-item lies in the buffer. -/
theorem Fill.piece_end (f : Fill) {w gid : ℕ} (h : gid < f.size / w) :
    f.offset + w * gid + w ≤ 2 ^ 32 := by
  have hend : w * (gid + 1) ≤ f.size := (Nat.mul_le_mul_left w h).trans (Nat.mul_div_le ..)
  have hfits := f.fits
  have hbuf : f.buffer_size ≤ 2 ^ 32 := f.buffer_le
  rw [Nat.mul_succ] at hend
  omega

/-- An element that starts in the buffer has an index below `2 ^ 32`. -/
theorem index_lt {w i a : ℕ} (hw : 0 < w) (h : w * i = a) (ha : a < 2 ^ 32) : i < 2 ^ 32 := by
  have : 1 * i ≤ w * i := Nat.mul_le_mul_right i hw
  omega

theorem fillRegion_apply {dst w gid : ℕ} {pattern : Pattern} {m : Mem} {x : ℕ} (hw : 0 < w)
    (hpat : f.pattern_size ∣ w) (hbyte : ∀ k < w, pattern k = f.pattern (k % f.pattern_size))
    (hoff : w ∣ f.offset) (hgid : gid < 2 ^ 32) (hn : f.size / w < 2 ^ 32) :
    fillRegion dst w pattern (BitVec.ofNat 32 (f.offset / w)) (BitVec.ofNat 32 (f.size / w))
        (BitVec.ofNat 32 gid) m x =
      if x ∈ f.piece dst w gid then f.byteAt dst x else m x := by
  rw [fillRegion]
  by_cases hlt : gid < f.size / w
  · rw [if_pos ((CopyBuffer.Copy.ofNat_lt_iff hgid hn).mpr hlt)]
    have hend := f.piece_end hlt
    have hbase : w * (gid + f.offset / w) = f.offset + w * gid := by
      rw [Nat.mul_add, Nat.mul_div_cancel' hoff, Nat.add_comm]
    have hidx : (BitVec.ofNat 32 gid + BitVec.ofNat 32 (f.offset / w)).toNat =
        gid + f.offset / w :=
      CopyBuffer.Copy.toNat_ofNat_add (index_lt hw hbase (by omega))
    rw [setDst_of_index (by rw [hidx, hbase])]
    by_cases hx : x ∈ f.piece dst w gid
    · obtain ⟨-, hlo, hhi⟩ := hx
      obtain ⟨k, rfl⟩ : ∃ k, x = dst + f.offset + w * gid + k :=
        ⟨x - (dst + f.offset + w * gid), by omega⟩
      rw [if_pos (by omega), if_pos ⟨hlt, hlo, hhi⟩, f.byteAt_piece hpat, ← hbyte k (by omega)]
      congr 1
      omega
    · have hx' : ¬ (dst + (f.offset + w * gid) ≤ x ∧ x < dst + (f.offset + w * gid) + w) :=
        fun h => hx ⟨hlt, by omega, by omega⟩
      rw [if_neg hx', if_neg hx]
  · rw [if_neg (mt (CopyBuffer.Copy.ofNat_lt_iff hgid hn).mp hlt), if_neg fun h => hlt h.1]

/-- The two halves of a pattern of 128 bytes. -/
theorem align128_apply {dst gid : ℕ} {m : Mem} {x : ℕ} (hsize : f.pattern_size = 128)
    (hgid : gid < 2 ^ 32) :
    cl_fill_region_align128 dst f.pattern (fun k => f.pattern (64 + k))
        (BitVec.ofNat 32 (f.offset / 64)) (BitVec.ofNat 32 (f.size / 2 / 64))
        (BitVec.ofNat 32 gid) m x =
      if x ∈ f.piece dst 128 gid then f.byteAt dst x else m x := by
  have hpat : f.pattern_size ∣ 128 := hsize.dvd
  have hoff : 128 ∣ f.offset := hsize ▸ f.offset_dvd
  have hdiv : f.size / 2 / 64 = f.size / 128 := Nat.div_div_eq_div_mul ..
  have hn : f.size / 128 < 2 ^ 32 := by
    have := f.fits
    have hbuf : f.buffer_size ≤ 2 ^ 32 := f.buffer_le
    omega
  rw [cl_fill_region_align128, hdiv]
  by_cases hlt : gid < f.size / 128
  · rw [if_pos ((CopyBuffer.Copy.ofNat_lt_iff hgid hn).mpr hlt)]
    have hend := f.piece_end hlt
    have hidx : (BitVec.ofNat 32 gid * 2 + BitVec.ofNat 32 (f.offset / 64)).toNat =
        gid * 2 + f.offset / 64 := by
      rw [BitVec.toNat_add, BitVec.toNat_mul, BitVec.toNat_ofNat, BitVec.toNat_ofNat]
      show (gid % 2 ^ 32 * 2 % 2 ^ 32 + f.offset / 64 % 2 ^ 32) % 2 ^ 32 = gid * 2 + f.offset / 64
      omega
    have hnext : (BitVec.ofNat 32 gid * 2 + BitVec.ofNat 32 (f.offset / 64) + 1).toNat =
        gid * 2 + f.offset / 64 + 1 := by
      rw [BitVec.toNat_add, hidx]
      show (gid * 2 + f.offset / 64 + 1) % 2 ^ 32 = _
      omega
    have hfirst : 64 * (gid * 2 + f.offset / 64) = f.offset + 128 * gid := by omega
    have hsecond : 64 * (gid * 2 + f.offset / 64 + 1) = f.offset + 128 * gid + 64 := by omega
    show setDst dst 64 (setDst dst 64 m _ f.pattern) _ _ x = _
    rw [setDst_of_index (by rw [hnext, hsecond]), setDst_of_index (by rw [hidx, hfirst])]
    by_cases hx : x ∈ f.piece dst 128 gid
    · obtain ⟨-, hlo, hhi⟩ := hx
      obtain ⟨k, rfl⟩ : ∃ k, x = dst + f.offset + 128 * gid + k :=
        ⟨x - (dst + f.offset + 128 * gid), by omega⟩
      have hmod : k % f.pattern_size = k := by
        rw [hsize]
        omega
      rw [if_pos (show _ ∈ f.piece dst 128 gid from ⟨hlt, hlo, hhi⟩), f.byteAt_piece hpat, hmod]
      -- the half that the byte is in
      by_cases hhalf : k < 64
      · rw [if_neg (by omega), if_pos (by omega)]
        congr 1
        omega
      · rw [if_pos (by omega)]
        congr 1
        omega
    · have hout : ¬ (dst + f.offset + 128 * gid ≤ x ∧ x < dst + f.offset + 128 * gid + 128) :=
        fun h => hx ⟨hlt, h⟩
      rw [if_neg (by omega), if_neg (by omega), if_neg hx]
  · rw [if_neg (mt (CopyBuffer.Copy.ofNat_lt_iff hgid hn).mp hlt), if_neg fun h => hlt h.1]

/-! ### Launches -/

theorem globalSize_le {n : ℕ} (h : n < 2 ^ 32) : globalSize n ≤ 2 ^ 32 := by
  simp only [globalSize, LOCAL_SZ_0]
  omega

/-- A launch of a kernel with elements of `w` bytes that hold whole patterns. -/
theorem fillLaunch_fills {kernel : Kernel} {pattern : Pattern} {dst w : ℕ}
    (hkernel : ∀ gid m, (fillLaunch kernel pattern w f.offset f.size).item dst gid m =
      fillRegion dst w pattern (BitVec.ofNat 32 (f.offset / w)) (BitVec.ofNat 32 (f.size / w))
        (BitVec.ofNat 32 gid) m)
    (hw : 0 < w) (hpat : f.pattern_size ∣ w)
    (hbyte : ∀ k < w, pattern k = f.pattern (k % f.pattern_size)) (hoff : w ∣ f.offset)
    (hn : f.size / w < 2 ^ 32) : (fillLaunch kernel pattern w f.offset f.size).Fills f dst w := by
  intro gid hgid m x
  have hgid : gid < globalSize (f.size / w) := hgid
  rw [hkernel, fillRegion_apply hw hpat hbyte hoff (hgid.trans_le (globalSize_le hn)) hn]

/-- The pattern itself, as an element. -/
theorem Fill.byte_self (f : Fill) : ∀ k < f.pattern_size,
    f.pattern k = f.pattern (k % f.pattern_size) := by
  intro k hk
  rw [Nat.mod_eq_of_lt hk]

theorem Fill.div_lt (f : Fill) {w : ℕ} (hw : 2 ≤ w) : f.size / w < 2 ^ 32 := by
  have hle : f.size / w ≤ f.size / 2 := Nat.div_le_div_left hw Nat.two_pos
  have hfits := f.fits
  have hbuf : f.buffer_size ≤ 2 ^ 32 := f.buffer_le
  omega

/-- A launch that fills the range is the fill. -/
theorem run_eq_filled {launch : Launch} {dst w : ℕ} (h : launch.Fills f dst w) (hw : 0 < w)
    (hdvd : w ∣ f.size) (hsize : launch.global_sz = globalSize (f.size / w)) {order : List ℕ}
    (horder : order.Perm (List.range launch.global_sz)) (m : Mem) :
    (Outcome.launched launch).run dst order m = some (f.filled dst m) := by
  have hge : f.size / w ≤ launch.global_sz := hsize ▸ CopyBuffer.Copy.globalSize_ge _
  exact congrArg some (h.foldl_eq hw hdvd hge horder m)

/-- The vectors of the four kernels for multiples of eight bytes. -/
theorem align8_width (f : Fill) (h8 : f.pattern_size % 8 = 0) (h128 : f.pattern_size ≠ 128) :
    4 * align8Vector (ffs (f.pattern_size / 8) - 1) = f.pattern_size := by
  have hvalid := f.valid
  simp only [List.mem_cons, List.not_mem_nil, or_false] at hvalid
  obtain h | h | h | h | h | h | h | h := hvalid <;> rw [h] at h8 h128 ⊢
  · exact absurd h8 (by decide)
  · exact absurd h8 (by decide)
  · exact absurd h8 (by decide)
  · rfl
  · rfl
  · rfl
  · rfl
  · exact absurd rfl h128

theorem Fill.small (f : Fill) (h8 : f.pattern_size % 8 ≠ 0) (h4 : f.pattern_size ≠ 4) :
    f.pattern_size = 1 ∨ f.pattern_size = 2 := by
  have hvalid := f.valid
  simp only [List.mem_cons, List.not_mem_nil, or_false] at hvalid
  omega

/-- A word of small patterns. -/
theorem pattern_comb_eq {pattern_size k : ℕ} {pattern : Pattern}
    (hsmall : pattern_size = 1 ∨ pattern_size = 2) (hk : k < 4) :
    pattern_comb pattern_size pattern k = pattern (k % pattern_size) := by
  obtain rfl | rfl := hsmall
  · rw [pattern_comb, if_neg (by omega), Nat.mod_one]
  · rw [pattern_comb, if_pos rfl]
    by_cases hlow : k < 2
    · rw [if_pos hlow, Nat.mod_eq_of_lt hlow]
    · rw [if_neg hlow, Nat.mod_eq_sub_mod (by omega), Nat.mod_eq_of_lt (by omega)]

/-- **Buffer fills.**  The bytes from the offset on hold the repeated pattern and all others are
unchanged, whichever kernel is chosen and in whatever order its work-items run. -/
theorem cl_mem_fill_eq_filled (f : Fill) (dst : ℕ) (m : Mem) {order : List ℕ}
    (horder : order.Perm (List.range f.call.global_sz)) :
    f.call.run dst order m = some (f.filled dst m) := by
  have hpos := f.pattern_size_pos
  have hoff := f.offset_dvd
  have hsize := f.size_dvd
  rw [Fill.call, cl_mem_fill] at horder ⊢
  have hdvd : ¬ (f.offset % f.pattern_size ≠ 0 ∨ f.size % f.pattern_size ≠ 0) := by
    rintro (h | h)
    · exact h (Nat.mod_eq_zero_of_dvd hoff)
    · exact h (Nat.mod_eq_zero_of_dvd hsize)
  rw [if_neg hdvd] at horder ⊢
  by_cases hzero : f.size = 0
  · rw [if_pos hzero]
    refine congrArg some (funext fun x => (if_neg ?_).symm)
    omega
  rw [if_neg hzero] at horder ⊢
  by_cases h128 : f.pattern_size = 128
  · rw [if_pos h128, h128] at horder ⊢
    have hdiv : f.size / 2 / 64 = f.size / 128 := Nat.div_div_eq_div_mul ..
    have hfills : (fillLaunch (.align128 fun k => f.pattern (64 + k)) f.pattern 64 f.offset
        (f.size / 2)).Fills f dst 128 := by
      intro gid hgid m x
      have hgid : gid < globalSize (f.size / 2 / 64) := hgid
      rw [hdiv] at hgid
      exact align128_apply h128 (hgid.trans_le (globalSize_le (f.div_lt (by omega))))
    exact run_eq_filled hfills (by omega) (h128 ▸ hsize) (congrArg globalSize hdiv) horder m
  rw [if_neg h128] at horder ⊢
  by_cases h8 : f.pattern_size % 8 = 0
  · rw [if_pos h8] at horder ⊢
    refine run_eq_filled (fillLaunch_fills (fun gid m => ?_) hpos dvd_rfl f.byte_self hoff
      (f.div_lt (by omega))) hpos hsize rfl horder m
    show fillRegion dst (4 * align8Vector (ffs (f.pattern_size / 8) - 1)) _ _ _ _ m = _
    rw [align8_width f h8 h128]
    rfl
  rw [if_neg h8] at horder ⊢
  by_cases h4 : f.pattern_size = 4
  · rw [if_pos h4] at horder ⊢
    refine run_eq_filled (fillLaunch_fills (fun gid m => ?_) hpos dvd_rfl f.byte_self hoff
      (f.div_lt (by omega))) hpos hsize rfl horder m
    rw [h4]
    rfl
  rw [if_neg h4] at horder ⊢
  have hsmall : f.pattern_size = 1 ∨ f.pattern_size = 2 := f.small h8 h4
  by_cases hword : f.size ≥ 4 ∧ f.size % 4 = 0 ∧ f.offset % 4 = 0
  · rw [if_pos hword, if_pos hsmall] at horder ⊢
    have hpat : f.pattern_size ∣ 4 := by
      obtain h | h := hsmall
      · exact h ▸ one_dvd 4
      · exact h ▸ ⟨2, rfl⟩
    exact run_eq_filled (fillLaunch_fills (fun _ _ => rfl) (by omega) hpat
      (fun k hk => pattern_comb_eq hsmall hk) (Nat.dvd_of_mod_eq_zero hword.2.2)
      (f.div_lt (by omega))) (by omega) (Nat.dvd_of_mod_eq_zero hword.2.1) rfl horder m
  rw [if_neg hword] at horder ⊢
  by_cases h2 : f.pattern_size = 2
  · rw [if_pos h2] at horder ⊢
    refine run_eq_filled (fillLaunch_fills (fun gid m => ?_) hpos dvd_rfl f.byte_self hoff
      (f.div_lt h2.ge)) hpos hsize rfl horder m
    rw [h2]
    rfl
  · have h1 : f.pattern_size = 1 := hsmall.resolve_right h2
    rw [if_neg h2, if_pos h1] at horder ⊢
    -- only a buffer filled as a whole could have `2 ^ 32` bytes, and it is filled in words
    have hn : f.size / f.pattern_size < 2 ^ 32 := by
      have hfits := f.fits
      have hbuf : f.buffer_size ≤ 2 ^ 32 := f.buffer_le
      rw [h1, Nat.div_one]
      omega
    refine run_eq_filled (fillLaunch_fills (fun gid m => ?_) hpos dvd_rfl f.byte_self hoff hn)
      hpos hsize rfl horder m
    rw [h1]
    rfl

/-- Three bytes behind the first one of a buffer. -/
def threeBytes : Fill :=
  ⟨fun _ => 7, 1, 1, 3, 8, by decide, by decide, by decide, by decide, by decide⟩

/-- The last work-item may run first. -/
theorem threeBytes_backward :
    (threeBytes.call.run 0 (List.range threeBytes.call.global_sz).reverse fun _ => 0).map
        (fun m => (m 0, m 1, m 3, m 4)) = some (0, 7, 7, 0) := by
  rw [cl_mem_fill_eq_filled threeBytes 0 (fun _ => 0) (List.reverse_perm _)]
  rfl

end Runtime.FillBuffer
