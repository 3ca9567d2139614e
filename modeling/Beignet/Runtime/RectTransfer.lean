/-
Transfers of boxes between the host and buffers or images (`cl_enqueue_read_buffer_rect`,
`cl_enqueue_write_buffer_rect`, `cl_enqueue_read_image` and `cl_enqueue_write_image` of
`cl_enqueue.c`, `cl_mem_copy_image_region` of `cl_mem.c`, with the checks of `cl_api_mem.c`).

Each function copies with one `memcpy` when its test says that the box is contiguous, and row by row
otherwise.  The row loops count with `cl_uint`.  Source and destination are two memories; what
`cl_mem_map_auto` answers is an argument, and the events around a transfer are left out.

* `Transfer.byRows_eq` — the row loops move the rows of the box;
* `RectOk.regular_read`, `RectOk.regular_write` — what the checks of an accepted call say about
  its transfer;
* **`call_pathsAgree_iff`** — when the two paths leave the same bytes.
-/
import Beignet.Lib.CountedLoop
import Beignet.Lib.Strided
import Beignet.Runtime.BufferBounds
import Beignet.Runtime.ImageDescriptors

namespace Runtime.RectTransfer

open Runtime.Buffer
open Runtime.ImageDescriptors (ImageType)
open Strided (memcpy strided shifts box)

abbrev Bytes := Strided.Memory UInt8

/-! ### The two paths -/

structure Transfer where
  /-- the test for the single copy -/
  contiguous : Bool
  /-- the bytes of the single copy -/
  total : UInt64
  /-- the bytes of a row -/
  len : UInt64
  rows : UInt64
  slices : UInt64
  dst : ℕ
  dst_row : UInt64
  dst_slice : UInt64
  src : ℕ
  src_row : UInt64
  src_slice : UInt64

namespace Transfer

variable (t : Transfer)

def atOnce (src dst : Bytes) : Bytes := memcpy t.total.toNat src t.dst t.src dst

/-- `for (y = 0; y < region[1]; y++)`, from the two addresses of a slice. -/
def rowLoop (src : Bytes) (d s : ℕ) (dst : Bytes) : Option Bytes :=
  (CountedLoop.loop 32 t.rows.toNat (fun p : ℕ × ℕ × Bytes =>
    some (p.1 + t.dst_row.toNat, p.2.1 + t.src_row.toNat,
      memcpy t.len.toNat src p.1 p.2.1 p.2.2)) (d, s, dst)).map (·.2.2)

/-- `for (z = 0; z < region[2]; z++)` -/
def byRows (src dst : Bytes) : Option Bytes :=
  (CountedLoop.loop 32 t.slices.toNat (fun p : ℕ × ℕ × Bytes =>
    (t.rowLoop src p.1 p.2.1 p.2.2).map fun dst =>
      (p.1 + t.dst_slice.toNat, p.2.1 + t.src_slice.toNat, dst)) (t.dst, t.src, dst)).map (·.2.2)

/-- The destination behind the transfer, if it ends. -/
def run (src dst : Bytes) : Option Bytes :=
  if t.contiguous then some (t.atOnce src dst) else t.byRows src dst

/-- The rows of the region. -/
def InRows (x : ℕ) : Prop :=
  ∃ z < t.slices.toNat, ∃ y < t.rows.toNat, ∃ k < t.len.toNat,
    x = t.dst + (z * t.dst_slice.toNat + (y * t.dst_row.toNat + k))

/-- The path taken leaves what the row loops leave, and bytes outside the rows keep their value. -/
def PathsAgree : Prop :=
  ∀ src dst, ∃ dst', t.run src dst = some dst' ∧ t.byRows src dst = some dst' ∧
    ∀ x, ¬ t.InRows x → dst' x = dst x

/-- The counters reach their bounds, and a region copied at once has no padding. -/
def Unpadded : Prop :=
  t.rows.toNat < 2 ^ 32 ∧ t.slices.toNat < 2 ^ 32 ∧ (t.contiguous = true →
    Strided.Tight t.len.toNat t.rows.toNat t.dst_row.toNat t.slices.toNat t.dst_slice.toNat
      (2 ^ 64))

end Transfer

/-! ### Buffers -/

/-- The fields of `enqueue_data` that the transfers read. -/
structure EnqueueData where
  origin : Vec3
  host_origin : Vec3
  region : Vec3
  row_pitch : UInt64
  slice_pitch : UInt64
  host_row_pitch : UInt64
  host_slice_pitch : UInt64
  ptr : ℕ

/-- `origin[0] + row_pitch * origin[1] + slice_pitch * origin[2]` -/
def offsetOf (origin : Vec3) (row_pitch slice_pitch : UInt64) : UInt64 :=
  origin.x + row_pitch * origin.y + slice_pitch * origin.z

/-- The bytes of a contiguous box. -/
def totalOf (region : Vec3) (row_pitch slice_pitch : UInt64) : UInt64 :=
  if region.z = 1 then row_pitch * region.y else slice_pitch * region.z

/-- The test of the two rect functions. -/
def EnqueueData.rectContiguous (data : EnqueueData) : Bool :=
  data.row_pitch == data.region.x && data.row_pitch == data.host_row_pitch &&
    (data.region.z == 1 || (data.slice_pitch == data.region.x * data.region.y &&
      data.slice_pitch == data.host_slice_pitch))

def cl_enqueue_read_buffer_rect (data : EnqueueData) (sub_offset : UInt64) (src_ptr : ℕ) :
    Transfer where
  contiguous := data.rectContiguous
  total := totalOf data.region data.row_pitch data.slice_pitch
  len := data.region.x
  rows := data.region.y
  slices := data.region.z
  dst := data.ptr +
    (offsetOf data.host_origin data.host_row_pitch data.host_slice_pitch).toNat
  dst_row := data.host_row_pitch
  dst_slice := data.host_slice_pitch
  src := src_ptr + (offsetOf data.origin data.row_pitch data.slice_pitch).toNat + sub_offset.toNat
  src_row := data.row_pitch
  src_slice := data.slice_pitch

def cl_enqueue_write_buffer_rect (data : EnqueueData) (sub_offset : UInt64) (dst_ptr : ℕ) :
    Transfer where
  contiguous := data.rectContiguous
  total := totalOf data.region data.row_pitch data.slice_pitch
  len := data.region.x
  rows := data.region.y
  slices := data.region.z
  dst := dst_ptr + (offsetOf data.origin data.row_pitch data.slice_pitch).toNat + sub_offset.toNat
  dst_row := data.row_pitch
  dst_slice := data.slice_pitch
  src := data.ptr +
    (offsetOf data.host_origin data.host_row_pitch data.host_slice_pitch).toNat
  src_row := data.host_row_pitch
  src_slice := data.host_slice_pitch

/-! ### Images -/

/-- A row of an image holds its texels. -/
structure Image where
  image_type : ImageType
  bpp : UInt64
  w : UInt64
  h : UInt64
  depth : UInt64
  row_pitch : UInt64
  slice_pitch : UInt64
  offset : UInt64
  is_ker_copy : Bool
  bpp_pos : 0 < bpp.toNat
  texels : bpp.toNat * w.toNat ≤ row_pitch.toNat

/-- `image->bpp * origin[0] + row_pitch * origin[1] + slice_pitch * origin[2]` -/
def Image.offsetOf (image : Image) (origin : Vec3) (row_pitch slice_pitch : UInt64) : UInt64 :=
  image.bpp * origin.x + row_pitch * origin.y + slice_pitch * origin.z

/-- The test for whole rows, and whole slices when there are several. -/
def Image.contiguous (image : Image) (origin region : Vec3) (row₁ slice₁ row₂ slice₂ : UInt64) :
    Bool :=
  origin.x == 0 && region.x == image.w && row₁ == row₂ &&
    (region.z == 1 || (origin.y == 0 && region.y == image.h && slice₁ == slice₂))

def cl_enqueue_read_image (image : Image) (data : EnqueueData) (src_ptr : ℕ) : Transfer where
  contiguous := image.contiguous data.origin data.region data.row_pitch data.slice_pitch
    image.row_pitch image.slice_pitch
  total := totalOf data.region data.row_pitch data.slice_pitch
  len := image.bpp * data.region.x
  rows := data.region.y
  slices := data.region.z
  dst := data.ptr
  dst_row := data.row_pitch
  dst_slice := data.slice_pitch
  src := src_ptr +
    (image.offset + image.offsetOf data.origin image.row_pitch image.slice_pitch).toNat
  src_row := image.row_pitch
  src_slice := image.slice_pitch

def cl_mem_copy_image_region (origin region : Vec3) (dst : ℕ)
    (dst_row_pitch dst_slice_pitch : UInt64) (src : ℕ) (src_row_pitch src_slice_pitch : UInt64)
    (image : Image) (offset_dst offset_src : Bool) : Transfer where
  contiguous := image.contiguous origin region dst_row_pitch dst_slice_pitch src_row_pitch
    src_slice_pitch
  total := totalOf region src_row_pitch src_slice_pitch
  len := image.bpp * region.x
  rows := region.y
  slices := region.z
  dst := if offset_dst then dst + (image.offsetOf origin dst_row_pitch dst_slice_pitch).toNat
    else dst
  dst_row := dst_row_pitch
  dst_slice := dst_slice_pitch
  src := if offset_src then src + (image.offsetOf origin src_row_pitch src_slice_pitch).toNat
    else src
  src_row := src_row_pitch
  src_slice := src_slice_pitch

def cl_enqueue_write_image (image : Image) (data : EnqueueData) (dst_ptr : ℕ) : Transfer :=
  cl_mem_copy_image_region data.origin data.region (dst_ptr + image.offset.toNat) image.row_pitch
    image.slice_pitch data.ptr data.row_pitch data.slice_pitch image true false

/-- `check_image_region`, `check_image_origin`: the layers of an array of rows are slices. -/
def layers (image : Image) (v : Vec3) (y : UInt64) : Vec3 :=
  if image.image_type = .image1DArray then ⟨v.x, y, v.y⟩ else v

/-- The arguments of `clEnqueueReadImage` and `clEnqueueWriteImage`. -/
structure ImageArgs where
  origin : Vec3
  region : Vec3
  row_pitch : UInt64
  slice_pitch : UInt64
  ptr : ℕ

/-- What the entry points hand on to the transfer. -/
def ImageArgs.data (image : Image) (a : ImageArgs) : EnqueueData :=
  let region := layers image a.region 1
  let row := if a.row_pitch = 0 then image.bpp * region.x else a.row_pitch
  { origin := layers image a.origin 0
    host_origin := ⟨0, 0, 0⟩
    region := region
    row_pitch := row
    slice_pitch := if image.slice_pitch ≠ 0 && a.slice_pitch = 0 then row * region.y
      else a.slice_pitch
    host_row_pitch := 0
    host_slice_pitch := 0
    ptr := a.ptr }

def imageTransferGuards (queue : Queue) (mem : Mem) (image : Image) (noAccess : Bool)
    (a : ImageArgs) (waitlist : ℤ) : List Guard :=
  let data := a.data image
  [queueGuard queue, .arg (!(mem.isMem && !mem.type.isBuffer)) CL_INVALID_MEM_OBJECT,
    regionGuard true data.region, contextGuard queue mem,
    .arg (data.origin.x + data.region.x > image.w || data.origin.y + data.region.y > image.h ||
      data.origin.z + data.region.z > image.depth) CL_INVALID_VALUE,
    .arg (data.row_pitch < image.bpp * data.region.x) CL_INVALID_VALUE,
    .arg (if image.slice_pitch ≠ 0 then data.slice_pitch < data.row_pitch * data.region.y
      else a.slice_pitch ≠ 0) CL_INVALID_VALUE,
    .arg (a.ptr = 0) CL_INVALID_VALUE, .arg noAccess CL_INVALID_OPERATION, waitlistGuard waitlist]

def clEnqueueReadImage (queue : Queue) (mem : Mem) (image : Image) (a : ImageArgs)
    (waitlist : ℤ) : List Guard :=
  imageTransferGuards queue mem image
    (hasAny mem.flags (CL_MEM_HOST_WRITE_ONLY ||| CL_MEM_HOST_NO_ACCESS)) a waitlist

def clEnqueueWriteImage (queue : Queue) (mem : Mem) (image : Image) (a : ImageArgs)
    (waitlist : ℤ) : List Guard :=
  imageTransferGuards queue mem image
    (hasAny mem.flags (CL_MEM_HOST_READ_ONLY ||| CL_MEM_HOST_NO_ACCESS)) a waitlist

/-! ### Calls -/

/-- What the rect entry points hand on to the transfer. -/
def rectData (r : RectArgs) (ptr : ℕ) : EnqueueData :=
  ⟨r.origin₁, r.origin₂, r.region, r.row₁, r.slice₁, r.row₂, r.slice₂, ptr⟩

/-- A call of a transfer, `mapped` being the address of the memory object on the host. -/
inductive Call where
  | readBufferRect (queue : Queue) (buffer : Mem) (r : RectArgs) (ptr mapped : ℕ) (waitlist : ℤ)
  | writeBufferRect (queue : Queue) (buffer : Mem) (r : RectArgs) (ptr mapped : ℕ) (waitlist : ℤ)
  | readImage (queue : Queue) (mem : Mem) (image : Image) (a : ImageArgs) (mapped : ℕ)
      (waitlist : ℤ)
  | writeImage (queue : Queue) (mem : Mem) (image : Image) (a : ImageArgs) (mapped : ℕ)
      (waitlist : ℤ)
  | copyImageRegion (origin region : Vec3) (dst : ℕ) (dst_row_pitch dst_slice_pitch : UInt64)
      (src : ℕ) (src_row_pitch src_slice_pitch : UInt64) (image : Image)
      (offset_dst offset_src : Bool)

/-- Rows and slices of a region do not overlap. -/
def Apart (image : Image) (region : Vec3) (row_pitch slice_pitch : UInt64) : Prop :=
  image.bpp.toNat * region.x.toNat ≤ row_pitch.toNat ∧
    (region.z = 1 ∨ region.y.toNat * row_pitch.toNat ≤ slice_pitch.toNat)

namespace Call

/-- The entry point does not refuse the call and leaves it to the transfer; the callers of
`cl_mem_copy_image_region` see to its pitches. -/
def Accepted : Call → Prop
  | readBufferRect queue buffer r ptr _ waitlist =>
    (Request.readBufferRect queue buffer r (ptr ≠ 0) true waitlist).Accepted
  | writeBufferRect queue buffer r ptr _ waitlist =>
    (Request.writeBufferRect queue buffer r (ptr ≠ 0) true waitlist).Accepted
  | readImage queue mem image a _ waitlist =>
    firstError (clEnqueueReadImage queue mem image a waitlist) = CL_SUCCESS ∧
      image.is_ker_copy = false
  | writeImage queue mem image a _ waitlist =>
    firstError (clEnqueueWriteImage queue mem image a waitlist) = CL_SUCCESS ∧
      image.is_ker_copy = false
  | copyImageRegion _ region _ dst_row_pitch dst_slice_pitch _ src_row_pitch src_slice_pitch image
      _ _ =>
    (0 < region.x.toNat ∧ 0 < region.y.toNat ∧ 0 < region.z.toNat) ∧
      Apart image region dst_row_pitch dst_slice_pitch ∧
      Apart image region src_row_pitch src_slice_pitch

def transfer : Call → Transfer
  | readBufferRect _ buffer r ptr mapped _ =>
    cl_enqueue_read_buffer_rect (rectData r ptr) buffer.sub_offset mapped
  | writeBufferRect _ buffer r ptr mapped _ =>
    cl_enqueue_write_buffer_rect (rectData r ptr) buffer.sub_offset mapped
  | readImage _ _ image a mapped _ => cl_enqueue_read_image image (a.data image) mapped
  | writeImage _ _ image a mapped _ => cl_enqueue_write_image image (a.data image) mapped
  | copyImageRegion origin region dst dst_row dst_slice src src_row src_slice image od os =>
    cl_mem_copy_image_region origin region dst dst_row dst_slice src src_row src_slice image od os

end Call

/-! ### The row loops -/

namespace Transfer

variable (t : Transfer)

/-- The rows of the box, by the addresses of the first one. -/
def boxCopy (src : Bytes) : Strided.Copy UInt8 :=
  strided t.dst_slice.toNat t.src_slice.toNat
    (strided t.dst_row.toNat t.src_row.toNat (memcpy t.len.toNat src) t.rows.toNat) t.slices.toNat

variable {t}

theorem rowLoop_eq (hrows : t.rows.toNat < 2 ^ 32) (src : Bytes) (d s : ℕ) (dst : Bytes) :
    t.rowLoop src d s dst =
      some (strided t.dst_row.toNat t.src_row.toNat (memcpy t.len.toNat src) t.rows.toNat d s
        dst) := by
  rw [rowLoop, CountedLoop.loop_eq hrows, Strided.iterate_eq]
  rfl

theorem byRows_eq (hrows : t.rows.toNat < 2 ^ 32) (hslices : t.slices.toNat < 2 ^ 32)
    (src dst : Bytes) : t.byRows src dst = some (t.boxCopy src t.dst t.src dst) := by
  simp only [byRows, rowLoop_eq hrows, Option.map_some]
  rw [CountedLoop.loop_eq hslices, Strided.iterate_eq _ _
    (strided t.dst_row.toNat t.src_row.toNat (memcpy t.len.toNat src) t.rows.toNat)]
  rfl

/-- A counter of 32 bits does not get past a larger bound. -/
theorem lt_of_byRows_eq_some (hslices : 0 < t.slices.toNat) {src dst dst' : Bytes}
    (h : t.byRows src dst = some dst') : t.rows.toNat < 2 ^ 32 ∧ t.slices.toNat < 2 ^ 32 := by
  by_contra hnot
  have hnone : t.byRows src dst = none := by
    by_cases hs : t.slices.toNat < 2 ^ 32
    · have hr : 2 ^ 32 ≤ t.rows.toNat := by omega
      have hloop : ∀ d s m, t.rowLoop src d s m = none := by
        intro d s m
        rw [rowLoop, CountedLoop.loop_eq_none hr]
        rfl
      simp only [byRows, hloop, Option.map_none]
      rw [CountedLoop.loop_of_body_none hslices]
      rfl
    · rw [byRows, CountedLoop.loop_eq_none (by omega)]
      rfl
  rw [hnone] at h
  cases h

/-- The row loops write nothing outside the rows. -/
theorem boxCopy_frame (src dst : Bytes) {x : ℕ} (hx : ¬ t.InRows x) :
    t.boxCopy src t.dst t.src dst x = dst x := by
  refine (((Strided.Moves.memcpy t.len.toNat src).frame.strided _ _ _).strided _ _ _) _ _ _ _ ?_
  rintro _ ⟨z, hz, _, ⟨y, hy, k, hk, rfl⟩, rfl⟩ rfl
  exact hx ⟨z, hz, y, hy, k, hk, rfl⟩

/-! ### Agreement -/

variable (t)

/-- What the test of a transfer says about its pitches. -/
structure Flat : Prop where
  row_eq : t.src_row = t.dst_row
  slice_eq : t.slices.toNat ≠ 1 → t.src_slice = t.dst_slice
  len_pos : 0 < t.len.toNat
  len_le : t.len.toNat ≤ t.dst_row.toNat
  thin : t.slices.toNat ≠ 1 → t.rows.toNat = 1 →
    t.dst_slice.toNat = 0 ∨ t.dst_row.toNat ≤ t.dst_slice.toNat
  total_eq : t.total.toNat =
    Strided.span t.rows.toNat t.dst_row.toNat t.slices.toNat t.dst_slice.toNat (2 ^ 64)

/-- The region is not empty, and a contiguous one is flat. -/
structure Regular : Prop where
  rows_pos : 0 < t.rows.toNat
  slices_pos : 0 < t.slices.toNat
  flat : t.contiguous = true → t.Flat

variable {t}

theorem Flat.moves (h : t.Flat) (src : Bytes) : Strided.Moves src (t.boxCopy src)
    (box t.len.toNat t.rows.toNat t.dst_row.toNat t.slices.toNat t.dst_slice.toNat) := by
  have hrows := (Strided.Moves.memcpy t.len.toNat src).strided t.dst_row.toNat t.rows.toNat
  have hslices := hrows.strided t.dst_slice.toNat t.slices.toNat
  by_cases hone : t.slices.toNat = 1
  · -- the pitch between slices is not used
    rw [boxCopy, h.row_eq, hone, Strided.strided_one]
    rw [hone, Strided.strided_one] at hslices
    exact hslices
  · rw [boxCopy, h.row_eq, h.slice_eq hone]
    exact hslices

/-- The single copy agrees with the row loops exactly without padding. -/
theorem Flat.atOnce_eq_iff (h : t.Flat) (hr : t.Regular) :
    (∀ src dst, t.atOnce src dst = t.boxCopy src t.dst t.src dst) ↔
      Strided.Tight t.len.toNat t.rows.toNat t.dst_row.toNat t.slices.toNat t.dst_slice.toNat
        (2 ^ 64) := by
  have : Nontrivial UInt8 := ⟨0, 1, by decide⟩
  have hsets := Strided.Moves.ext_iff (fun src => Strided.Moves.memcpy t.total.toNat src)
    h.moves t.dst t.src
  refine hsets.trans (eq_comm.trans ?_)
  rw [h.total_eq]
  exact Strided.box_eq_Iio_iff h.len_pos h.len_le hr.rows_pos hr.slices_pos t.dst_row.toNat_lt
    t.dst_slice.toNat_lt h.thin

theorem Regular.pathsAgree_iff (hr : t.Regular) : t.PathsAgree ↔ t.Unpadded := by
  constructor
  · intro h
    obtain ⟨dst', -, hbytes, -⟩ := h (fun _ => 0) fun _ => 0
    obtain ⟨hrows, hslices⟩ := lt_of_byRows_eq_some hr.slices_pos hbytes
    refine ⟨hrows, hslices, fun hc => ?_⟩
    refine ((hr.flat hc).atOnce_eq_iff hr).mp fun src dst => ?_
    obtain ⟨dst', hrun, hby, -⟩ := h src dst
    rw [run, if_pos hc] at hrun
    rw [byRows_eq hrows hslices] at hby
    exact Option.some.inj (hrun.trans hby.symm)
  · rintro ⟨hrows, hslices, htight⟩ src dst
    refine ⟨_, ?_, byRows_eq hrows hslices src dst, fun x hx => boxCopy_frame src dst hx⟩
    by_cases hc : t.contiguous = true
    · rw [run, if_pos hc, ((hr.flat hc).atOnce_eq_iff hr).mpr (htight hc)]
    · rw [run, if_neg hc, byRows_eq hrows hslices]

end Transfer

/-! ### Accepted calls -/

/-- The length of the single copy, in unbounded integers. -/
theorem totalOf_toNat (region : Vec3) (row slice : UInt64) :
    (totalOf region row slice).toNat =
      Strided.span region.y.toNat row.toNat region.z.toNat slice.toNat (2 ^ 64) := by
  have hone : region.z.toNat = 1 ↔ region.z = 1 := UInt64.toNat_inj (b := 1)
  rw [totalOf, Strided.span]
  by_cases hz : region.z = 1
  · rw [if_pos hz, if_pos (hone.mpr hz), UInt64.toNat_mul, Nat.mul_comm]
  · rw [if_neg hz, if_neg (mt hone.mp hz), UInt64.toNat_mul, Nat.mul_comm]

/-- What the guards of the rect functions say. -/
structure RectOk (r : RectArgs) : Prop where
  x_ne : r.region.x ≠ 0
  y_ne : r.region.y ≠ 0
  z_ne : r.region.z ≠ 0
  slice₁_le : r.region.y * r.row₁ ≤ r.slice₁
  slice₂_le : r.region.y * r.row₂ ≤ r.slice₂

theorem rectOk_of_accepted {c : Request} {r : RectArgs} (given : Bool) (h : c.Accepted)
    (hregion : regionGuard given r.region ∈ c.guards)
    (hslice : slicePitchGuard r.row₁ r.slice₁ r.row₂ r.slice₂ r.region ∈ c.guards) : RectOk r := by
  have hok := (firstError_eq_success c.guards_sound).mp h
  have hregion := hok _ hregion
  have hslice := hok _ hslice
  simp only [regionGuard, slicePitchGuard, slicePitchBad, Guard.fails, Bool.or_eq_false_iff,
    beq_eq_false_iff_ne, decide_eq_false_iff_not, UInt64.not_lt] at hregion hslice
  exact ⟨hregion.1.1.2, hregion.1.2, hregion.2, hslice.1.1, hslice.2.1⟩

/-- A slice of one row is no shorter than the row. -/
theorem le_of_one_row {y row slice : UInt64} (h : y * row ≤ slice) (hy : y.toNat = 1) :
    row.toNat ≤ slice.toNat := by
  obtain rfl : y = 1 := UInt64.toNat_inj.mp hy
  rw [UInt64.one_mul] at h
  exact h

theorem totalOf_congr {region : Vec3} {row slice row' slice' : UInt64} (hrow : row = row')
    (hslice : region.z = 1 ∨ slice = slice') :
    totalOf region row slice = totalOf region row' slice' := by
  subst hrow
  obtain hz | rfl := hslice
  · rw [totalOf, totalOf, if_pos hz, if_pos hz]
  · rfl

/-- What the test of the rect functions says. -/
theorem rectContiguous_eq {r : RectArgs} {ptr : ℕ}
    (h : (rectData r ptr).rectContiguous = true) :
    r.row₁ = r.region.x ∧ r.row₁ = r.row₂ ∧ (r.region.z = 1 ∨ r.slice₁ = r.slice₂) := by
  simp only [EnqueueData.rectContiguous, rectData, Bool.and_eq_true, Bool.or_eq_true,
    beq_iff_eq] at h
  obtain ⟨⟨hrow, hsame⟩, hslice⟩ := h
  exact ⟨hrow, hsame, hslice.imp_right And.right⟩

theorem RectOk.regular_read {r : RectArgs} (h : RectOk r) (ptr mapped : ℕ) (sub_offset : UInt64) :
    (cl_enqueue_read_buffer_rect (rectData r ptr) sub_offset mapped).Regular where
  rows_pos := toNat_pos h.y_ne
  slices_pos := toNat_pos h.z_ne
  flat := by
    intro hc
    obtain ⟨hrow, hsame, hslice⟩ := rectContiguous_eq hc
    have htotal : totalOf r.region r.row₁ r.slice₁ = totalOf r.region r.row₂ r.slice₂ :=
      totalOf_congr hsame hslice
    exact {
      row_eq := hsame
      slice_eq := fun hz => hslice.resolve_left (mt (congrArg UInt64.toNat) hz)
      len_pos := toNat_pos h.x_ne
      len_le := le_of_eq (congrArg UInt64.toNat (hrow.symm.trans hsame))
      thin := fun _ hy => .inr (le_of_one_row h.slice₂_le hy)
      total_eq := (congrArg UInt64.toNat htotal).trans (totalOf_toNat ..) }

theorem RectOk.regular_write {r : RectArgs} (h : RectOk r) (ptr mapped : ℕ)
    (sub_offset : UInt64) :
    (cl_enqueue_write_buffer_rect (rectData r ptr) sub_offset mapped).Regular where
  rows_pos := toNat_pos h.y_ne
  slices_pos := toNat_pos h.z_ne
  flat := by
    intro hc
    obtain ⟨hrow, hsame, hslice⟩ := rectContiguous_eq hc
    exact {
      row_eq := hsame.symm
      slice_eq := fun hz => (hslice.resolve_left (mt (congrArg UInt64.toNat) hz)).symm
      len_pos := toNat_pos h.x_ne
      len_le := le_of_eq (congrArg UInt64.toNat hrow.symm)
      thin := fun _ hy => .inr (le_of_one_row h.slice₁_le hy)
      total_eq := totalOf_toNat .. }

/-- What the test of the image functions says. -/
theorem Image.contiguous_eq {image : Image} {origin region : Vec3}
    {row₁ slice₁ row₂ slice₂ : UInt64}
    (h : image.contiguous origin region row₁ slice₁ row₂ slice₂ = true) :
    region.x = image.w ∧ row₁ = row₂ ∧ (region.z = 1 ∨ slice₁ = slice₂) := by
  simp only [Image.contiguous, Bool.and_eq_true, Bool.or_eq_true, beq_iff_eq] at h
  obtain ⟨⟨⟨-, hw⟩, hrow⟩, hslice⟩ := h
  exact ⟨hw, hrow, hslice.imp_right And.right⟩

/-- A transfer of an image whose rows fit their pitch. -/
theorem flat_of_image {t : Transfer} {image : Image} {region : Vec3} (hx : 0 < region.x.toNat)
    (hlen : t.len = image.bpp * region.x) (hrows : t.rows = region.y)
    (hslices : t.slices = region.z) (hrow : t.dst_row = t.src_row)
    (hslice : region.z = 1 ∨ t.dst_slice = t.src_slice)
    (htotal : t.total = totalOf region t.dst_row t.dst_slice)
    (hfit : image.bpp.toNat * region.x.toNat ≤ t.dst_row.toNat)
    (hthin : region.z ≠ 1 → region.y.toNat = 1 →
      t.dst_slice.toNat = 0 ∨ t.dst_row.toNat ≤ t.dst_slice.toNat) : t.Flat := by
  have hone : t.slices.toNat ≠ 1 → region.z ≠ 1 := by
    intro h hz
    rw [hslices, hz] at h
    exact h rfl
  -- the row does not wrap
  have hlen' : t.len.toNat = image.bpp.toNat * region.x.toNat := by
    rw [hlen, UInt64.toNat_mul, Nat.mod_eq_of_lt (hfit.trans_lt t.dst_row.toNat_lt)]
  exact {
    row_eq := hrow.symm
    slice_eq := fun hz => (hslice.resolve_left (hone hz)).symm
    len_pos := hlen' ▸ Nat.mul_pos image.bpp_pos hx
    len_le := hlen' ▸ hfit
    thin := fun hz hy => hthin (hone hz) (hrows ▸ hy)
    total_eq := by rw [htotal, totalOf_toNat, hrows, hslices] }

/-- What the guards of the image functions say. -/
structure ImageOk (image : Image) (a : ImageArgs) : Prop where
  x_ne : (a.data image).region.x ≠ 0
  y_ne : (a.data image).region.y ≠ 0
  z_ne : (a.data image).region.z ≠ 0
  slice_ok : (a.data image).slice_pitch = 0 ∨
    (a.data image).row_pitch * (a.data image).region.y ≤ (a.data image).slice_pitch

theorem imageOk_of_success {queue : Queue} {mem : Mem} {image : Image} {noAccess : Bool}
    {a : ImageArgs} {waitlist : ℤ}
    (h : firstError (imageTransferGuards queue mem image noAccess a waitlist) = CL_SUCCESS) :
    ImageOk image a := by
  have hsound : ∀ g ∈ imageTransferGuards queue mem image noAccess a waitlist, g.Sound := by
    simp [imageTransferGuards, queueGuard, regionGuard, contextGuard, waitlistGuard, Guard.Sound,
      Guard.fails, Guard.err]
  have hok := (firstError_eq_success hsound).mp h
  have hregion := hok (regionGuard true (a.data image).region) (by simp [imageTransferGuards])
  have hslice := hok (.arg (if image.slice_pitch ≠ 0 then
      (a.data image).slice_pitch < (a.data image).row_pitch * (a.data image).region.y
    else a.slice_pitch ≠ 0) CL_INVALID_VALUE) (by simp [imageTransferGuards])
  simp only [regionGuard, Guard.fails, Bool.or_eq_false_iff, beq_eq_false_iff_ne] at hregion
  refine ⟨hregion.1.1.2, hregion.1.2, hregion.2, ?_⟩
  rw [Guard.fails] at hslice
  by_cases hzero : image.slice_pitch = 0
  · rw [if_neg (not_not.mpr hzero), decide_eq_false_iff_not, not_not] at hslice
    have hdata : (a.data image).slice_pitch = a.slice_pitch := by
      simp [ImageArgs.data, hzero]
    exact .inl (hdata.trans hslice)
  · rw [if_pos hzero, decide_eq_false_iff_not, UInt64.not_lt] at hslice
    exact .inr hslice

/-- A slice of one row, as `flat_of_image` asks for it. -/
theorem ImageOk.thin {image : Image} {a : ImageArgs} (h : ImageOk image a)
    (hy : (a.data image).region.y.toNat = 1) : (a.data image).slice_pitch.toNat = 0 ∨
      (a.data image).row_pitch.toNat ≤ (a.data image).slice_pitch.toNat := by
  refine h.slice_ok.imp (congrArg UInt64.toNat) fun hle => le_of_one_row ?_ hy
  rwa [UInt64.mul_comm]

theorem ImageOk.regular_read {image : Image} {a : ImageArgs} (h : ImageOk image a) (mapped : ℕ) :
    (cl_enqueue_read_image image (a.data image) mapped).Regular where
  rows_pos := toNat_pos h.y_ne
  slices_pos := toNat_pos h.z_ne
  flat := by
    intro hc
    obtain ⟨hw, hrow, hslice⟩ := Image.contiguous_eq hc
    have hfit : image.bpp.toNat * (a.data image).region.x.toNat ≤
        (a.data image).row_pitch.toNat := by
      rw [hw, hrow]
      exact image.texels
    exact flat_of_image (toNat_pos h.x_ne) rfl rfl rfl hrow hslice rfl hfit fun _ hy => h.thin hy

theorem ImageOk.regular_write {image : Image} {a : ImageArgs} (h : ImageOk image a)
    (mapped : ℕ) : (cl_enqueue_write_image image (a.data image) mapped).Regular where
  rows_pos := toNat_pos h.y_ne
  slices_pos := toNat_pos h.z_ne
  flat := by
    intro hc
    obtain ⟨hw, hrow, hslice⟩ := Image.contiguous_eq hc
    have hfit : image.bpp.toNat * (a.data image).region.x.toNat ≤ image.row_pitch.toNat := by
      rw [hw]
      exact image.texels
    have hthin : (a.data image).region.z ≠ 1 → (a.data image).region.y.toNat = 1 →
        image.slice_pitch.toNat = 0 ∨ image.row_pitch.toNat ≤ image.slice_pitch.toNat := by
      intro hz hy
      rw [hrow, hslice.resolve_left hz]
      exact h.thin hy
    exact flat_of_image (toNat_pos h.x_ne) rfl rfl rfl hrow hslice
      (totalOf_congr hrow hslice).symm hfit hthin

/-- **Both paths of a transfer.**  For an accepted call the path taken and the row loops leave the
same bytes, inside the rows only, exactly when there are fewer than `2 ^ 32` rows and slices and a
region that is copied at once has no padding. -/
theorem call_pathsAgree_iff (c : Call) (h : c.Accepted) :
    c.transfer.PathsAgree ↔ c.transfer.Unpadded := by
  refine Transfer.Regular.pathsAgree_iff ?_
  cases c with
  | readBufferRect queue buffer r ptr mapped waitlist =>
    have hok : RectOk r := rectOk_of_accepted (ptr ≠ 0 && true) h
      (by simp [Request.guards, clEnqueueReadBufferRect, rectTransferGuards])
      (by simp [Request.guards, clEnqueueReadBufferRect, rectTransferGuards])
    exact hok.regular_read ptr mapped buffer.sub_offset
  | writeBufferRect queue buffer r ptr mapped waitlist =>
    have hok : RectOk r := rectOk_of_accepted (ptr ≠ 0 && true) h
      (by simp [Request.guards, clEnqueueWriteBufferRect, rectTransferGuards])
      (by simp [Request.guards, clEnqueueWriteBufferRect, rectTransferGuards])
    exact hok.regular_write ptr mapped buffer.sub_offset
  | readImage queue mem image a mapped waitlist =>
    exact (imageOk_of_success h.1).regular_read mapped
  | writeImage queue mem image a mapped waitlist =>
    exact (imageOk_of_success h.1).regular_write mapped
  | copyImageRegion origin region dst dst_row dst_slice src src_row src_slice image od os =>
    obtain ⟨⟨hx, hy, hz⟩, hdst, hsrc⟩ := h
    refine ⟨hy, hz, fun hc => ?_⟩
    obtain ⟨-, hrow, hslice⟩ := Image.contiguous_eq hc
    refine flat_of_image hx rfl rfl rfl hrow hslice (totalOf_congr hrow hslice).symm hdst.1 ?_
    intro hz hy
    right
    have hle := hdst.2.resolve_left hz
    rw [hy, Nat.one_mul] at hle
    exact hle

/-- Two rows of three bytes, four bytes apart. -/
def smallImage : Image :=
  ⟨.image2D, 1, 3, 2, 1, 4, 0, 0, false, by decide, by decide⟩

/-- A read of the whole image, its rows `row_pitch` bytes apart on the host. -/
def readAll (row_pitch : UInt64) : Call :=
  .readImage ⟨true, 0⟩ ⟨0, true, .image, 0, 1, 8, 0, 1024⟩ smallImage
    ⟨⟨0, 0, 0⟩, ⟨3, 2, 1⟩, row_pitch, 0, 64⟩ 0 CL_SUCCESS

theorem readAll_three_agrees : (readAll 3).Accepted ∧ (readAll 3).transfer.PathsAgree := by
  have h : (readAll 3).Accepted := ⟨by decide, rfl⟩
  exact ⟨h, (call_pathsAgree_iff (readAll 3) h).mpr ⟨by decide, by decide, fun hc => by cases hc⟩⟩

/-- With the pitch of the image the read also writes the byte between the two rows. -/
theorem readAll_four_wrong :
    ((readAll 4).transfer.run (fun _ => 1) fun _ => 0).map (fun dst => dst (64 + 3)) = some 1 ∧
      ¬ ∀ c : Call, c.Accepted → c.transfer.PathsAgree := by
  refine ⟨rfl, fun h => ?_⟩
  obtain ⟨dst', hrun, -, hframe⟩ := h (readAll 4) ⟨by decide, rfl⟩ (fun _ => 1) fun _ => 0
  have hout : ¬ (readAll 4).transfer.InRows (64 + 3) := by
    rintro ⟨z, hz, y, hy, k, hk, heq⟩
    have hk : k < 3 := hk
    have heq : 64 + 3 = 64 + (z * 0 + (y * 4 + k)) := heq
    omega
  have hbyte : dst' (64 + 3) = 1 := (congrFun (Option.some.inj hrun) (64 + 3)).symm
  rw [hframe _ hout] at hbyte
  exact absurd hbyte (by decide)

end Runtime.RectTransfer
