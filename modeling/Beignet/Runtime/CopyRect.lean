/-
Copies of rectangles between buffers on the device: `cl_mem_copy_buffer_rect` (`cl_mem.c`) and the
kernels `cl_internal_copy_buf_rect.cl` and `cl_internal_copy_buf_rect_align4.cl`.

The host hands a contiguous box on to `cl_mem_copy`, and otherwise launches one work-item for each
byte or word.  Its offsets are `cl_int`, and the kernels compute their indices in 32 bits and have
pointers of 32 bits, so that an offset that became negative makes no difference.  Both buffers are
in one memory of bytes.  The failure to create a kernel is left out.

The launch writes through its event when it is set up (`cl_command_queue_ND_range_gen7`), so it has
to have one.

* `Geometry.Ok.copied` — the work-items copy the rectangle, in any order;
* `Geometry.item_eq` — what a work-item of the kernels copies;
* **`cl_mem_copy_buffer_rect_iff`** — when the rectangle arrives, with the event of the caller.
-/
import Beignet.Lib.Footprint
import Beignet.Lib.InPlace
import Beignet.Lib.Strided
import Beignet.Runtime.BufferBounds
import Beignet.Runtime.CopyKernels
import Beignet.Runtime.FillBuffer
import Beignet.Runtime.RectTransfer

namespace Runtime.CopyRect

open Bytes (Mem)
open Runtime.Buffer (Vec3 RectArgs Request Access)
open Runtime.CopyBuffer (memcpy)

/-! ### Kernels -/

/-- The arguments of the rectangle kernels. -/
structure Args where
  region0 : BitVec 32
  region1 : BitVec 32
  region2 : BitVec 32
  src_offset : BitVec 32
  dst_offset : BitVec 32
  src_row_pitch : BitVec 32
  src_slice_pitch : BitVec 32
  dst_row_pitch : BitVec 32
  dst_slice_pitch : BitVec 32

/-- The address of an element: 32 bits from the start of the buffer on. -/
def element (base w : ℕ) (offset : BitVec 32) : ℕ := base + w * offset.toNat % 2 ^ 32

section Items

variable (src dst : ℕ) (args : Args)

/-- The two kernels differ in the `w` bytes of an element. -/
def copyElement (w : ℕ) (i j k : BitVec 32) (m : Mem) : Mem :=
  if i ≥ args.region0 ∨ j ≥ args.region1 ∨ k ≥ args.region2 then m
  else
    let src_offset := args.src_offset + (k * args.src_slice_pitch + j * args.src_row_pitch + i)
    let dst_offset := args.dst_offset + (k * args.dst_slice_pitch + j * args.dst_row_pitch + i)
    -- `dst[dst_offset] = src[src_offset]`
    memcpy (element src w src_offset) (element dst w dst_offset) w m

def cl_copy_buffer_rect := copyElement src dst args 1
def cl_copy_buffer_rect_align4 := copyElement src dst args 4

end Items

/-! ### The host -/

def LOCAL_SZ_0 : UInt64 := 16
def LOCAL_SZ_1 : UInt64 := 4

/-- The kernels for rectangles. -/
inductive Kernel where
  | rect
  | rect_align4

/-- One launch. -/
structure Launch where
  kernel : Kernel
  args : Args
  global_sz : Vec3

/-- One work-item. -/
def Launch.item (launch : Launch) (src dst : ℕ) (m : Mem) (gid : ℕ × ℕ × ℕ) : Mem :=
  let i := BitVec.ofNat 32 gid.1
  let j := BitVec.ofNat 32 gid.2.1
  let k := BitVec.ofNat 32 gid.2.2
  match launch.kernel with
  | .rect => cl_copy_buffer_rect src dst launch.args i j k m
  | .rect_align4 => cl_copy_buffer_rect_align4 src dst launch.args i j k m

def Launch.items (launch : Launch) : List (ℕ × ℕ × ℕ) :=
  List.range launch.global_sz.x.toNat ×ˢ
    (List.range launch.global_sz.y.toNat ×ˢ List.range launch.global_sz.z.toNat)

/-- What the host enqueues, and the event that it passes on. -/
inductive Work where
  | copy (launch : CopyBuffer.Launch)
  | rect (launch : Launch)

structure Enqueued where
  work : Option Work
  event : Option ℕ

/-- `m'` is left by the work-items, in some order. -/
def Work.Leaves (src dst : ℕ) (m m' : Mem) : Work → Prop
  | copy launch => ∃ order : List ℕ, order.Perm (List.range launch.global_sz) ∧
      m' = launch.run src dst order m
  | rect launch => ∃ order : List (ℕ × ℕ × ℕ), order.Perm launch.items ∧
      m' = order.foldl (launch.item src dst) m

/-- `cl_int n = …` -/
def clInt (n : UInt64) : BitVec 32 := BitVec.ofNat 32 n.toNat

/-- A `cl_int` as a `size_t`. -/
def sizeOfInt (n : BitVec 32) : ℕ := (n.signExtend 64).toNat

/-- `n /= 4` on a `cl_int` -/
def intDiv4 (n : BitVec 32) : BitVec 32 := BitVec.ofInt 32 (n.toInt.tdiv 4)

/-- `n % 4 == 0` on a `cl_int` -/
def intAligned (n : BitVec 32) : Bool := n.toInt.tmod 4 = 0

/-- The box is one range in both buffers. -/
def contiguous (region : Vec3) (src_row src_slice dst_row dst_slice : UInt64) : Bool :=
  region.x == dst_row && region.x == src_row && region.y * src_row == src_slice &&
    region.y * dst_row == dst_slice

def offsetOf (origin : Vec3) (row slice : UInt64) : UInt64 :=
  origin.z * slice + origin.y * row + origin.x

/-- The box consists of words in both buffers. -/
def wordAligned (src_offset dst_offset : BitVec 32)
    (region0 src_row src_slice dst_row dst_slice : UInt64) : Bool :=
  intAligned src_offset && intAligned dst_offset && src_row % 4 == 0 && dst_row % 4 == 0 &&
    src_slice % 4 == 0 && dst_slice % 4 == 0 && region0 % 4 == 0

def globalSz (n local_sz : UInt64) : UInt64 := (n + local_sz - 1) / local_sz * local_sz

def cl_mem_copy_buffer_rect (event : ℕ) (src_origin dst_origin region : Vec3)
    (src_row src_slice dst_row dst_slice : UInt64) : Enqueued :=
  let src_offset := clInt (offsetOf src_origin src_row src_slice)
  let dst_offset := clInt (offsetOf dst_origin dst_row dst_slice)
  if contiguous region src_row src_slice dst_row dst_slice then
    let size := clInt (region.x * region.y * region.z)
    -- `cl_mem_copy(queue, NULL, …)`
    ⟨(CopyBuffer.cl_mem_copy (sizeOfInt src_offset) (sizeOfInt dst_offset) (sizeOfInt size)).map
      .copy, none⟩
  else
    let global_sz : Vec3 :=
      ⟨globalSz region.x LOCAL_SZ_0, globalSz region.y (if region.y = 1 then 1 else LOCAL_SZ_1),
        globalSz region.z (if region.z = 1 then 1 else LOCAL_SZ_1)⟩
    if wordAligned src_offset dst_offset region.x src_row src_slice dst_row dst_slice then
      ⟨some (.rect ⟨.rect_align4, ⟨clInt (region.x / 4), clInt region.y, clInt region.z,
        intDiv4 src_offset, intDiv4 dst_offset, clInt (src_row / 4), clInt (src_slice / 4),
        clInt (dst_row / 4), clInt (dst_slice / 4)⟩, global_sz⟩), some event⟩
    else
      ⟨some (.rect ⟨.rect, ⟨clInt region.x, clInt region.y, clInt region.z, src_offset, dst_offset,
        clInt src_row, clInt src_slice, clInt dst_row, clInt dst_slice⟩, global_sz⟩), some event⟩

/-! ### Work-items -/

section WorkItems

variable {launch : Launch} {src dst : ℕ}

/-- The bytes of an element. -/
def Launch.width (launch : Launch) : ℕ :=
  match launch.kernel with
  | .rect => 1
  | .rect_align4 => 4

/-- The work-item is not behind the region. -/
def Args.Within (args : Args) (gid : ℕ × ℕ × ℕ) : Prop :=
  BitVec.ofNat 32 gid.1 < args.region0 ∧ BitVec.ofNat 32 gid.2.1 < args.region1 ∧
    BitVec.ofNat 32 gid.2.2 < args.region2

/-- The element that a work-item reads. -/
def Args.srcIndex (args : Args) (gid : ℕ × ℕ × ℕ) : BitVec 32 :=
  args.src_offset + (BitVec.ofNat 32 gid.2.2 * args.src_slice_pitch +
    BitVec.ofNat 32 gid.2.1 * args.src_row_pitch + BitVec.ofNat 32 gid.1)

/-- The element that it writes. -/
def Args.dstIndex (args : Args) (gid : ℕ × ℕ × ℕ) : BitVec 32 :=
  args.dst_offset + (BitVec.ofNat 32 gid.2.2 * args.dst_slice_pitch +
    BitVec.ofNat 32 gid.2.1 * args.dst_row_pitch + BitVec.ofNat 32 gid.1)

theorem Launch.item_eq (gid : ℕ × ℕ × ℕ) (m : Mem) :
    launch.item src dst m gid = copyElement src dst launch.args launch.width
      (BitVec.ofNat 32 gid.1) (BitVec.ofNat 32 gid.2.1) (BitVec.ofNat 32 gid.2.2) m := by
  obtain ⟨kernel, args, global_sz⟩ := launch
  cases kernel <;> rfl

theorem Launch.item_of_not_within {gid : ℕ × ℕ × ℕ} (h : ¬ launch.args.Within gid) (m : Mem) :
    launch.item src dst m gid = m := by
  rw [item_eq, copyElement, if_pos]
  simp only [Args.Within, not_and_or, BitVec.not_lt] at h
  exact h

theorem Launch.item_of_within {gid : ℕ × ℕ × ℕ} (h : launch.args.Within gid) (m : Mem) :
    launch.item src dst m gid = memcpy (element src launch.width (launch.args.srcIndex gid))
      (element dst launch.width (launch.args.dstIndex gid)) launch.width m := by
  rw [item_eq, copyElement, if_neg]
  · rfl
  · rintro (hx | hy | hz)
    · exact BitVec.not_lt.mpr hx h.1
    · exact BitVec.not_lt.mpr hy h.2.1
    · exact BitVec.not_lt.mpr hz h.2.2

end WorkItems

/-! ### Rectangles -/

/-- Two rectangles of one size, in unbounded integers. -/
structure Geometry where
  rx : ℕ
  ry : ℕ
  rz : ℕ
  src_off : ℕ
  src_row : ℕ
  src_slice : ℕ
  dst_off : ℕ
  dst_row : ℕ
  dst_slice : ℕ

namespace Geometry

variable (g : Geometry)

/-- A byte of the rectangle. -/
def In (x y z : ℕ) : Prop := x < g.rx ∧ y < g.ry ∧ z < g.rz

instance (x y z : ℕ) : Decidable (g.In x y z) := inferInstanceAs (Decidable (_ ∧ _ ∧ _))

def srcPos (x y z : ℕ) : ℕ := g.src_off + (z * g.src_slice + y * g.src_row + x)
def dstPos (x y z : ℕ) : ℕ := g.dst_off + (z * g.dst_slice + y * g.dst_row + x)

/-- Rows and slices do not overlap, and both rectangles end below `2 ^ 32`. -/
structure Ok : Prop where
  rx_pos : 0 < g.rx
  ry_pos : 0 < g.ry
  rz_pos : 0 < g.rz
  src_row_ge : g.rx ≤ g.src_row
  src_slice_ge : g.ry * g.src_row ≤ g.src_slice
  src_lt : ∀ x y z, g.In x y z → g.srcPos x y z < 2 ^ 32
  dst_row_ge : g.rx ≤ g.dst_row
  dst_slice_ge : g.ry * g.dst_row ≤ g.dst_slice
  dst_lt : ∀ x y z, g.In x y z → g.dstPos x y z < 2 ^ 32

/-- The rectangles, in buffers at `src` and `dst`, share no byte. -/
def Apart (src dst : ℕ) : Prop :=
  ∀ x y z x' y' z', g.In x y z → g.In x' y' z' → src + g.srcPos x y z ≠ dst + g.dstPos x' y' z'

/-- The bytes of the destination are those of the source, and all others are unchanged. -/
def Copied (src dst : ℕ) (m m' : Mem) : Prop :=
  (∀ x y z, g.In x y z → m' (dst + g.dstPos x y z) = m (src + g.srcPos x y z)) ∧
    ∀ a, (∀ x y z, g.In x y z → a ≠ dst + g.dstPos x y z) → m' a = m a

/-- The elements of `w` bytes divide rows, pitches and offsets. -/
structure Words (w : ℕ) : Prop where
  pos : 0 < w
  rx_dvd : w ∣ g.rx
  src_row_dvd : w ∣ g.src_row
  src_slice_dvd : w ∣ g.src_slice
  dst_row_dvd : w ∣ g.dst_row
  dst_slice_dvd : w ∣ g.dst_slice

/-- Work-item `(i, j, k)` copies an element, of which the buffers are taken to start at `src` and
`dst`. -/
def copyItem (src dst w : ℕ) (m : Mem) (gid : ℕ × ℕ × ℕ) : Mem :=
  if g.In (w * gid.1) gid.2.1 gid.2.2 then
    memcpy (src + g.srcPos (w * gid.1) gid.2.1 gid.2.2) (dst + g.dstPos (w * gid.1) gid.2.1 gid.2.2)
      w m
  else m

variable {g}

theorem digit_unique {b q r q' r' : ℕ} (hr : r < b) (hr' : r' < b) (h : q * b + r = q' * b + r') :
    q = q' ∧ r = r' := by
  have hb : 0 < b := by omega
  have hdiv : ∀ {q r}, r < b → (q * b + r) / b = q := by
    intro q r hr
    rw [Nat.add_comm, Nat.add_mul_div_right _ _ hb, Nat.div_eq_of_lt hr, Nat.zero_add]
  have hq := hdiv (q := q) hr
  rw [h, hdiv hr'] at hq
  subst hq
  exact ⟨rfl, by omega⟩

/-- A position of the destination belongs to one byte of the rectangle. -/
theorem Ok.dstPos_inj (h : g.Ok) {x y z x' y' z' : ℕ} (hin : g.In x y z) (hin' : g.In x' y' z')
    (heq : g.dstPos x y z = g.dstPos x' y' z') : x = x' ∧ y = y' ∧ z = z' := by
  have hrow : ∀ {x y z}, g.In x y z → x < g.dst_row ∧ y * g.dst_row + x < g.dst_slice := by
    rintro x y z ⟨hx, hy, -⟩
    have hlt : x < g.dst_row := hx.trans_le h.dst_row_ge
    have hle : (y + 1) * g.dst_row ≤ g.ry * g.dst_row := Nat.mul_le_mul_right _ hy
    have := h.dst_slice_ge
    rw [Nat.succ_mul] at hle
    exact ⟨hlt, by omega⟩
  obtain ⟨hx, hslice⟩ := hrow hin
  obtain ⟨hx', hslice'⟩ := hrow hin'
  have heq : z * g.dst_slice + (y * g.dst_row + x) = z' * g.dst_slice + (y' * g.dst_row + x') := by
    simp only [dstPos] at heq
    omega
  obtain ⟨hz, hrest⟩ := digit_unique hslice hslice' heq
  obtain ⟨hy, hx⟩ := digit_unique hx hx' hrest
  exact ⟨hx, hy, hz⟩

/-- Byte `b` of an element. -/
theorem In.byte {w i j k b : ℕ} (hw : g.Words w) (hin : g.In (w * i) j k) (hb : b < w) :
    g.In (w * i + b) j k := by
  obtain ⟨hx, hy, hz⟩ := hin
  refine ⟨?_, hy, hz⟩
  obtain ⟨n, hn⟩ := hw.rx_dvd
  have hi : i < n := Nat.lt_of_mul_lt_mul_left (hn ▸ hx)
  have hle : w * (i + 1) ≤ w * n := Nat.mul_le_mul_left w hi
  rw [Nat.mul_succ] at hle
  omega

theorem dstPos_add (x y z b : ℕ) : g.dstPos (x + b) y z = g.dstPos x y z + b := by
  simp only [dstPos]
  omega

theorem srcPos_add (x y z b : ℕ) : g.srcPos (x + b) y z = g.srcPos x y z + b := by
  simp only [srcPos]
  omega

/-- The bytes that a work-item writes. -/
def footprint (g : Geometry) (dst w : ℕ) (gid : ℕ × ℕ × ℕ) : Set ℕ :=
  {a | g.In (w * gid.1) gid.2.1 gid.2.2 ∧ dst + g.dstPos (w * gid.1) gid.2.1 gid.2.2 ≤ a ∧
    a < dst + g.dstPos (w * gid.1) gid.2.1 gid.2.2 + w}

/-- They are bytes of the rectangle. -/
theorem mem_footprint {dst w a : ℕ} {gid : ℕ × ℕ × ℕ} (hw : g.Words w) :
    a ∈ g.footprint dst w gid ↔ ∃ b < w, g.In (w * gid.1 + b) gid.2.1 gid.2.2 ∧
      a = dst + g.dstPos (w * gid.1 + b) gid.2.1 gid.2.2 := by
  constructor
  · rintro ⟨hin, hlo, hhi⟩
    refine ⟨a - (dst + g.dstPos (w * gid.1) gid.2.1 gid.2.2), by omega, hin.byte hw (by omega), ?_⟩
    rw [dstPos_add]
    omega
  · rintro ⟨b, hb, hin, rfl⟩
    have hx := hin.1
    rw [dstPos_add]
    exact ⟨⟨by omega, hin.2⟩, by omega, by omega⟩

theorem footprint_disjoint (h : g.Ok) (dst : ℕ) {w : ℕ} (hw : g.Words w) {gid gid' : ℕ × ℕ × ℕ}
    (hne : gid ≠ gid') : Disjoint (g.footprint dst w gid) (g.footprint dst w gid') := by
  rw [Set.disjoint_left]
  intro a ha ha'
  obtain ⟨b, hb, hin, rfl⟩ := (mem_footprint hw).mp ha
  obtain ⟨b', hb', hin', heq⟩ := (mem_footprint hw).mp ha'
  obtain ⟨hx, hy, hz⟩ := h.dstPos_inj hin hin' (by omega)
  rw [Nat.mul_comm w, Nat.mul_comm w] at hx
  obtain ⟨hi, -⟩ := digit_unique hb hb' hx
  exact hne (Prod.ext hi (Prod.ext hy hz))

/-- Only the rectangle of the destination has changed. -/
def Keeps (g : Geometry) (dst : ℕ) (m0 m : Mem) : Prop :=
  ∀ a, (∀ x y z, g.In x y z → a ≠ dst + g.dstPos x y z) → m a = m0 a

theorem copyItem_of_notMem {src dst w a : ℕ} {gid : ℕ × ℕ × ℕ} (m : Mem)
    (ha : a ∉ g.footprint dst w gid) : g.copyItem src dst w m gid a = m a := by
  rw [copyItem]
  split_ifs with hin
  · exact if_neg fun h => ha ⟨hin, h⟩
  · rfl

/-- A work-item copies its bytes, as long as the source has not changed. -/
theorem copyItem_of_mem {src dst w b : ℕ} {gid : ℕ × ℕ × ℕ} {m0 m : Mem}
    (hapart : g.Apart src dst) (hm : g.Keeps dst m0 m) (hb : b < w)
    (hin : g.In (w * gid.1 + b) gid.2.1 gid.2.2) :
    g.copyItem src dst w m gid (dst + g.dstPos (w * gid.1 + b) gid.2.1 gid.2.2) =
      m0 (src + g.srcPos (w * gid.1 + b) gid.2.1 gid.2.2) := by
  have hfirst : g.In (w * gid.1) gid.2.1 gid.2.2 := by
    have hx := hin.1
    exact ⟨by omega, hin.2⟩
  rw [copyItem, if_pos hfirst, memcpy, dstPos_add, if_pos (by omega),
    ← hm _ fun x y z hxyz => hapart _ _ _ _ _ _ hin hxyz]
  rw [srcPos_add]
  congr 1
  omega

theorem copyItem_keeps {src dst w : ℕ} {gid : ℕ × ℕ × ℕ} {m0 m : Mem} (hw : g.Words w)
    (hm : g.Keeps dst m0 m) : g.Keeps dst m0 (g.copyItem src dst w m gid) := by
  intro a ha
  rw [copyItem_of_notMem m, hm a ha]
  intro hmem
  obtain ⟨b, -, hin, heq⟩ := (mem_footprint hw).mp hmem
  exact ha _ _ _ hin heq

/-- **The rectangle**, by work-items in any order. -/
theorem Ok.copied {src dst w : ℕ} (h : g.Ok) (hw : g.Words w) (hapart : g.Apart src dst)
    {order : List (ℕ × ℕ × ℕ)} (hnodup : order.Nodup)
    (hcover : ∀ i j k, g.In (w * i) j k → (i, j, k) ∈ order) (m : Mem) :
    g.Copied src dst m (order.foldl (g.copyItem src dst w) m) := by
  have hlocal : Footprint.Local (g.copyItem src dst w) m (g.Keeps dst m) (g.footprint dst w)
      order := by
    refine ⟨?_, ?_, ?_⟩
    · intro s gid _ _ _ a ha
      exact copyItem_of_notMem s ha
    · intro s gid _ hs _ a ha
      obtain ⟨b, hb, hin, rfl⟩ := (mem_footprint hw).mp ha
      rw [copyItem_of_mem hapart hs hb hin, copyItem_of_mem hapart (fun _ _ => rfl) hb hin]
    · intro s gid _ hs _
      exact copyItem_keeps hw hs
  have hdis : order.Pairwise fun gid gid' =>
      Disjoint (g.footprint dst w gid) (g.footprint dst w gid') :=
    hnodup.imp fun hne => footprint_disjoint h dst hw hne
  obtain ⟨hval, hout, -⟩ := Footprint.foldl_footprint hlocal hdis (fun _ _ => rfl)
    fun _ _ _ _ => rfl
  constructor
  · intro x y z hin
    -- the element that the byte is in
    have hx : w * (x / w) + x % w = x := Nat.div_add_mod x w
    have hb : x % w < w := Nat.mod_lt x hw.pos
    have hfirst : g.In (w * (x / w)) y z := ⟨by have := hin.1; omega, hin.2⟩
    have hin' : g.In (w * (x / w) + x % w) y z := by rwa [hx]
    have hmem : dst + g.dstPos x y z ∈ g.footprint dst w (x / w, y, z) :=
      (mem_footprint hw).mpr ⟨x % w, hb, hin', by rw [hx]⟩
    rw [hval _ (hcover _ _ _ hfirst) _ hmem]
    have hcopy : g.copyItem src dst w m (x / w, y, z)
        (dst + g.dstPos (w * (x / w) + x % w) y z) = m (src + g.srcPos (w * (x / w) + x % w) y z) :=
      copyItem_of_mem hapart (fun _ _ => rfl) hb hin'
    rwa [hx] at hcopy
  · intro a ha
    refine hout a fun gid _ hmem => ?_
    obtain ⟨b, -, hin, heq⟩ := (mem_footprint hw).mp hmem
    exact ha _ _ _ hin heq

/-! ### Indices -/

theorem in_iff {w : ℕ} (hw : g.Words w) (i j k : ℕ) :
    g.In (w * i) j k ↔ i < g.rx / w ∧ j < g.ry ∧ k < g.rz := by
  obtain ⟨n, hn⟩ := hw.rx_dvd
  rw [In, hn, Nat.mul_div_cancel_left n hw.pos, Nat.mul_lt_mul_left hw.pos]

/-- An index in elements, and the position of the element. -/
theorem mul_index {w slice row : ℕ} (off : ℕ) (hslice : w ∣ slice) (hrow : w ∣ row) (i j k : ℕ) :
    w * (off + (k * (slice / w) + j * (row / w) + i)) =
      w * off + (k * slice + j * row + w * i) := by
  obtain ⟨p, rfl⟩ := hslice
  obtain ⟨q, rfl⟩ := hrow
  obtain rfl | hw := Nat.eq_zero_or_pos w
  · simp
  · rw [Nat.mul_div_cancel_left p hw, Nat.mul_div_cancel_left q hw]
    ring

/-- The place of an element, when the index times its width is not reduced in between. -/
theorem element_index (base : ℕ) {w off slice row i j k : ℕ} (hslice : w ∣ slice) (hrow : w ∣ row)
    (s : BitVec 32) (hs : w * s.toNat % 2 ^ 32 = off)
    (h : off + (k * slice + j * row + w * i) < 2 ^ 32) :
    element base w (s + (BitVec.ofNat 32 k * BitVec.ofNat 32 (slice / w) +
      BitVec.ofNat 32 j * BitVec.ofNat 32 (row / w) + BitVec.ofNat 32 i)) =
        base + (off + (k * slice + j * row + w * i)) := by
  have hindex := mul_index s.toNat hslice hrow i j k
  have hsum : s + (BitVec.ofNat 32 k * BitVec.ofNat 32 (slice / w) +
      BitVec.ofNat 32 j * BitVec.ofNat 32 (row / w) + BitVec.ofNat 32 i) =
        BitVec.ofNat 32 (s.toNat + (k * (slice / w) + j * (row / w) + i)) := by
    rw [← BitVec.ofNat_mul, ← BitVec.ofNat_mul, ← BitVec.ofNat_add, ← BitVec.ofNat_add,
      BitVec.ofNat_add s.toNat, BitVec.ofNat_toNat, BitVec.setWidth_eq]
  rw [element, hsum, BitVec.toNat_ofNat, Nat.mul_mod_mod, hindex, Nat.add_mod, hs]
  congr 1
  rw [Nat.add_mod_mod, Nat.mod_eq_of_lt h]

/-- The arguments of a launch with elements of `w` bytes that starts at the elements `s` and `d`. -/
def args (g : Geometry) (w : ℕ) (s d : BitVec 32) : Args where
  region0 := BitVec.ofNat 32 (g.rx / w)
  region1 := BitVec.ofNat 32 g.ry
  region2 := BitVec.ofNat 32 g.rz
  src_offset := s
  dst_offset := d
  src_row_pitch := BitVec.ofNat 32 (g.src_row / w)
  src_slice_pitch := BitVec.ofNat 32 (g.src_slice / w)
  dst_row_pitch := BitVec.ofNat 32 (g.dst_row / w)
  dst_slice_pitch := BitVec.ofNat 32 (g.dst_slice / w)

/-- The sides fit in the arguments. -/
structure Fits (g : Geometry) (w : ℕ) : Prop where
  rx_lt : g.rx / w < 2 ^ 32
  ry_lt : g.ry < 2 ^ 32
  rz_lt : g.rz < 2 ^ 32

theorem ofNat_lt {a b : ℕ} (ha : a < 2 ^ 32) (hb : b < 2 ^ 32) :
    BitVec.ofNat 32 a < BitVec.ofNat 32 b ↔ a < b := CopyBuffer.Copy.ofNat_lt_iff ha hb

section Elements

variable {w i j k : ℕ} {s d : BitVec 32}

theorem within_iff (hw : g.Words w) (hfits : g.Fits w) (hi : i < 2 ^ 32) (hj : j < 2 ^ 32)
    (hk : k < 2 ^ 32) : (g.args w s d).Within (i, j, k) ↔ g.In (w * i) j k := by
  rw [in_iff hw]
  exact and_congr (ofNat_lt hi hfits.rx_lt)
    (and_congr (ofNat_lt hj hfits.ry_lt) (ofNat_lt hk hfits.rz_lt))

/-- A work-item of the kernels. -/
theorem item_eq {launch : Launch} {src dst : ℕ} {m : Mem} (h : g.Ok) (hw : g.Words launch.width)
    (hargs : launch.args = g.args launch.width s d) (hfits : g.Fits launch.width)
    (hs : launch.width * s.toNat % 2 ^ 32 = g.src_off)
    (hd : launch.width * d.toNat % 2 ^ 32 = g.dst_off) (hi : i < 2 ^ 32) (hj : j < 2 ^ 32)
    (hk : k < 2 ^ 32) :
    launch.item src dst m (i, j, k) = g.copyItem src dst launch.width m (i, j, k) := by
  have hwithin : launch.args.Within (i, j, k) ↔ g.In (launch.width * i) j k := by
    rw [hargs]
    exact within_iff hw hfits hi hj hk
  rw [copyItem]
  by_cases hin : g.In (launch.width * i) j k
  · rw [if_pos hin, Launch.item_of_within (hwithin.mpr hin), hargs]
    have hsrc := element_index src hw.src_slice_dvd hw.src_row_dvd s hs
      (h.src_lt _ _ _ hin)
    have hdst := element_index dst hw.dst_slice_dvd hw.dst_row_dvd d hd
      (h.dst_lt _ _ _ hin)
    exact congrArg₂ (fun a b => memcpy a b launch.width m) hsrc hdst
  · rw [if_neg hin, Launch.item_of_not_within (mt hwithin.mp hin)]

end Elements

end Geometry

/-! ### Launches that miss a byte -/

/-- A byte of an element of a buffer at `base`. -/
def Touches (base w : ℕ) (n : BitVec 32) (a : ℕ) : Prop :=
  element base w n ≤ a ∧ a < element base w n + w

section Missed

variable {launch : Launch} {src dst : ℕ}

/-- No work-item writes the byte. -/
def Launch.Spares (launch : Launch) (dst a : ℕ) : Prop :=
  ∀ gid ∈ launch.items, launch.args.Within gid →
    ¬ Touches dst launch.width (launch.args.dstIndex gid) a

/-- No work-item reads the byte. -/
def Launch.Ignores (launch : Launch) (src a : ℕ) : Prop :=
  ∀ gid ∈ launch.items, launch.args.Within gid →
    ¬ Touches src launch.width (launch.args.srcIndex gid) a

theorem Launch.Spares.foldl {a : ℕ} (h : launch.Spares dst a) {order : List (ℕ × ℕ × ℕ)}
    (hsub : order ⊆ launch.items) (m : Mem) :
    order.foldl (launch.item src dst) m a = m a := by
  induction order generalizing m with
  | nil => rfl
  | cons gid order ih =>
    obtain ⟨hmem, hsub⟩ := List.cons_subset.mp hsub
    rw [List.foldl_cons, ih hsub]
    by_cases hin : launch.args.Within gid
    · rw [Launch.item_of_within hin]
      exact if_neg (h gid hmem hin)
    · rw [Launch.item_of_not_within hin]

/-- What one byte holds does not spread if no work-item reads it. -/
theorem Launch.Ignores.foldl {p : ℕ} (h : launch.Ignores src p) {order : List (ℕ × ℕ × ℕ)}
    (hsub : order ⊆ launch.items) {m : Mem} (hm : ∀ a ≠ p, m a = 0) :
    ∀ a ≠ p, order.foldl (launch.item src dst) m a = 0 := by
  induction order generalizing m with
  | nil => exact hm
  | cons gid order ih =>
    obtain ⟨hmem, hsub⟩ := List.cons_subset.mp hsub
    refine ih hsub fun a ha => ?_
    by_cases hin : launch.args.Within gid
    · rw [Launch.item_of_within hin, memcpy]
      split_ifs with hwritten
      · refine hm _ fun hread => h gid hmem hin ?_
        rw [← hread]
        exact ⟨by omega, by omega⟩
      · exact hm a ha
    · rw [Launch.item_of_not_within hin]
      exact hm a ha

theorem Launch.Spares.not_copied {g : Geometry} {x y z : ℕ} (hapart : g.Apart src dst)
    (hin : g.In x y z) (h : launch.Spares dst (dst + g.dstPos x y z)) :
    ¬ ∀ m m', (Work.rect launch).Leaves src dst m m' → g.Copied src dst m m' := by
  intro hall
  have : Nontrivial (BitVec 8) := ⟨0, 1, by decide⟩
  refine hapart _ _ _ _ _ _ hin hin (InPlace.eq_of_forall (β := BitVec 8) fun m => ?_)
  obtain ⟨hcopied, -⟩ := hall m _ ⟨launch.items, .refl _, rfl⟩
  rw [← hcopied x y z hin, h.foldl (List.Subset.refl _)]

theorem Launch.Ignores.not_copied {g : Geometry} {x y z : ℕ} (hapart : g.Apart src dst)
    (hin : g.In x y z) (h : launch.Ignores src (src + g.srcPos x y z)) :
    ¬ ∀ m m', (Work.rect launch).Leaves src dst m m' → g.Copied src dst m m' := by
  intro hall
  -- a memory of zeros with one bit in the byte that is not read
  let m : Mem := Function.update (fun _ => 0) (src + g.srcPos x y z) 1
  obtain ⟨hcopied, -⟩ := hall m _ ⟨launch.items, .refl _, rfl⟩
  have hzero : launch.items.foldl (launch.item src dst) m (dst + g.dstPos x y z) = 0 :=
    h.foldl (List.Subset.refl _) (fun a ha => Function.update_of_ne ha ..) _
      (hapart _ _ _ _ _ _ hin hin).symm
  have hone : m (src + g.srcPos x y z) = 1 := Function.update_self ..
  rw [← hcopied x y z hin, hzero] at hone
  exact absurd hone (by decide)

theorem Launch.width_le (launch : Launch) : launch.width ≤ 4 := by
  rw [width]
  split <;> decide

/-- The kernels do not get further than this. -/
theorem not_touches_far {base w a : ℕ} {n : BitVec 32} (hw : w ≤ 4) (ha : base + 2 ^ 34 ≤ a) :
    ¬ Touches base w n a := by
  rintro ⟨-, hhi⟩
  have hlt := Nat.mod_lt (w * n.toNat) (Nat.two_pow_pos 32)
  rw [element] at hhi
  omega

theorem Launch.spares_far {a : ℕ} (ha : dst + 2 ^ 34 ≤ a) : launch.Spares dst a :=
  fun _ _ _ => not_touches_far launch.width_le ha

theorem Launch.ignores_far {a : ℕ} (ha : src + 2 ^ 34 ≤ a) : launch.Ignores src a :=
  fun _ _ _ => not_touches_far launch.width_le ha

end Missed

/-! ### The numbers of the host -/

theorem clInt_offsetOf (origin : Vec3) (row slice : UInt64) :
    clInt (offsetOf origin row slice) = BitVec.ofNat 32
      (origin.z.toNat * slice.toNat + origin.y.toNat * row.toNat + origin.x.toNat) := by
  apply BitVec.eq_of_toNat_eq
  simp only [clInt, offsetOf, UInt64.toNat_add, UInt64.toNat_mul, BitVec.toNat_ofNat]
  omega

theorem intAligned_iff (off : ℕ) : intAligned (BitVec.ofNat 32 off) = true ↔ 4 ∣ off := by
  rw [intAligned, decide_eq_true_iff, ← Int.dvd_iff_tmod_eq_zero, BitVec.toInt_eq_toNat_cond,
    BitVec.toNat_ofNat]
  split_ifs
  · omega
  · omega

/-- An offset from `2 ^ 31` on is negative as a `cl_int`, and a quarter of it is off by a multiple
of `2 ^ 32` bytes. -/
theorem mul_intDiv4 {off : ℕ} (hlt : off < 2 ^ 32) (hdvd : 4 ∣ off) :
    4 * (intDiv4 (BitVec.ofNat 32 off)).toNat % 2 ^ 32 = off := by
  obtain ⟨n, rfl⟩ := hdvd
  have htoNat : (BitVec.ofNat 32 (4 * n)).toNat = 4 * n := by
    rw [BitVec.toNat_ofNat, Nat.mod_eq_of_lt hlt]
  rw [intDiv4, BitVec.toInt_eq_toNat_cond, htoNat]
  by_cases hpos : 2 * (4 * n) < 2 ^ 32
  · rw [if_pos hpos, Nat.cast_mul, Nat.cast_ofNat, Int.mul_tdiv_cancel_left _ (by decide),
      BitVec.ofInt_natCast, BitVec.toNat_ofNat]
    omega
  · have hneg : ((4 * n : ℕ) : ℤ) - ((2 ^ 32 : ℕ) : ℤ) = 4 * ((n : ℤ) - 2 ^ 30) := by
      push_cast
      ring
    rw [if_neg hpos, hneg, Int.mul_tdiv_cancel_left _ (by decide), BitVec.toNat_ofInt]
    omega

theorem globalSz_toNat {n l : UInt64} (hn : n.toNat ≤ 2 ^ 32) (hl : l = 1 ∨ l = 4 ∨ l = 16) :
    n.toNat ≤ (globalSz n l).toNat ∧ (globalSz n l).toNat ≤ 2 ^ 32 := by
  obtain rfl | rfl | rfl := hl
  all_goals
    rw [globalSz, UInt64.toNat_mul, UInt64.toNat_div, UInt64.toNat_sub, UInt64.toNat_add]
    simp only [UInt64.reduceToNat]
    omega

theorem mem_items {launch : Launch} {i j k : ℕ} :
    (i, j, k) ∈ launch.items ↔ i < launch.global_sz.x.toNat ∧ j < launch.global_sz.y.toNat ∧
      k < launch.global_sz.z.toNat := by
  simp only [Launch.items, List.mem_product, List.mem_range]

theorem items_nodup (launch : Launch) : launch.items.Nodup :=
  List.nodup_range.product (List.nodup_range.product List.nodup_range)

/-! ### Launches that copy -/

/-- The work-items cover the rectangle, and have 32-bit numbers. -/
structure Launch.Covers (launch : Launch) (g : Geometry) : Prop where
  x_ge : g.rx ≤ launch.width * launch.global_sz.x.toNat
  y_ge : g.ry ≤ launch.global_sz.y.toNat
  z_ge : g.rz ≤ launch.global_sz.z.toNat
  x_le : launch.global_sz.x.toNat ≤ 2 ^ 32
  y_le : launch.global_sz.y.toNat ≤ 2 ^ 32
  z_le : launch.global_sz.z.toNat ≤ 2 ^ 32

theorem Geometry.Ok.launch_copied {g : Geometry} (h : g.Ok) {launch : Launch} {src dst : ℕ}
    {s d : BitVec 32} (hw : g.Words launch.width) (hapart : g.Apart src dst)
    (hargs : launch.args = g.args launch.width s d) (hfits : g.Fits launch.width)
    (hs : launch.width * s.toNat % 2 ^ 32 = g.src_off)
    (hd : launch.width * d.toNat % 2 ^ 32 = g.dst_off)
    (hcover : launch.Covers g) (m m' : Mem) (hm : (Work.rect launch).Leaves src dst m m') :
    g.Copied src dst m m' := by
  obtain ⟨order, hperm, rfl⟩ := hm
  have hitems : order.foldl (launch.item src dst) m =
      order.foldl (g.copyItem src dst launch.width) m := by
    refine List.foldl_ext _ _ _ fun m gid hgid => ?_
    obtain ⟨i, j, k⟩ := gid
    obtain ⟨hi, hj, hk⟩ := mem_items.mp (hperm.mem_iff.mp hgid)
    exact Geometry.item_eq h hw hargs hfits hs hd (hi.trans_le hcover.x_le)
      (hj.trans_le hcover.y_le) (hk.trans_le hcover.z_le)
  rw [hitems]
  refine h.copied hw hapart (hperm.nodup_iff.mpr (items_nodup launch)) ?_ m
  rintro i j k ⟨hx, hy, hz⟩
  refine hperm.mem_iff.mpr (mem_items.mpr ⟨?_, hy.trans_le hcover.y_ge, hz.trans_le hcover.z_ge⟩)
  exact Nat.lt_of_mul_lt_mul_left (hx.trans_le hcover.x_ge)

/-- The sides of a rectangle below `2 ^ 32`. -/
theorem Geometry.Ok.region_lt {g : Geometry} (h : g.Ok) {w : ℕ} (hw : g.Words w) :
    g.rx ≤ 2 ^ 32 ∧ w * (g.ry - 1) < 2 ^ 32 ∧ w * (g.rz - 1) < 2 ^ 32 := by
  have hx := h.rx_pos
  have hy := h.ry_pos
  have hz := h.rz_pos
  have hrow : w ≤ g.src_row := Nat.le_of_dvd (hx.trans_le h.src_row_ge) hw.src_row_dvd
  have hslice : w ≤ g.src_slice :=
    Nat.le_of_dvd ((Nat.mul_pos hy (hx.trans_le h.src_row_ge)).trans_le h.src_slice_ge)
      hw.src_slice_dvd
  have hxlast := h.src_lt (g.rx - 1) 0 0 ⟨by omega, hy, hz⟩
  have hylast := h.src_lt 0 (g.ry - 1) 0 ⟨hx, by omega, hz⟩
  have hzlast := h.src_lt 0 0 (g.rz - 1) ⟨hx, hy, by omega⟩
  simp only [Geometry.srcPos] at hxlast hylast hzlast
  have hyle : (g.ry - 1) * w ≤ (g.ry - 1) * g.src_row := Nat.mul_le_mul_left _ hrow
  have hzle : (g.rz - 1) * w ≤ (g.rz - 1) * g.src_slice := Nat.mul_le_mul_left _ hslice
  rw [Nat.mul_comm w, Nat.mul_comm w]
  exact ⟨by omega, by omega, by omega⟩

/-! ### Requests -/

/-- The two rectangles of a request. -/
def geometry (r : RectArgs) : Geometry where
  rx := r.region.x.toNat
  ry := r.region.y.toNat
  rz := r.region.z.toNat
  src_off := r.origin₁.z.toNat * r.slice₁.toNat + r.origin₁.y.toNat * r.row₁.toNat +
    r.origin₁.x.toNat
  src_row := r.row₁.toNat
  src_slice := r.slice₁.toNat
  dst_off := r.origin₂.z.toNat * r.slice₂.toNat + r.origin₂.y.toNat * r.row₂.toNat +
    r.origin₂.x.toNat
  dst_row := r.row₂.toNat
  dst_slice := r.slice₂.toNat

/-- A request that `clEnqueueCopyBufferRect` lets pass, for rectangles that share no byte. -/
structure RectCopy where
  queue : Buffer.Queue
  src_buffer : Buffer.Mem
  dst_buffer : Buffer.Mem
  r : RectArgs
  waitlist : ℤ
  /-- where the buffers start -/
  src : ℕ
  dst : ℕ
  accepted : (Request.copyBufferRect queue src_buffer dst_buffer r true waitlist).Accepted
  src_le : src_buffer.size.toNat ≤ FillBuffer.max_mem_alloc_size
  dst_le : dst_buffer.size.toNat ≤ FillBuffer.max_mem_alloc_size
  apart : (geometry r).Apart src dst

namespace RectCopy

variable (c : RectCopy)

def request : Request := .copyBufferRect c.queue c.src_buffer c.dst_buffer c.r true c.waitlist

def srcAccess : Access := .rect c.src_buffer c.r.origin₁ c.r.region c.r.row₁ c.r.slice₁
def dstAccess : Access := .rect c.dst_buffer c.r.origin₂ c.r.region c.r.row₂ c.r.slice₂

def enqueue (event : ℕ) : Enqueued :=
  cl_mem_copy_buffer_rect event c.r.origin₁ c.r.origin₂ c.r.region c.r.row₁ c.r.slice₁ c.r.row₂
    c.r.slice₂

def isContiguous : Bool := contiguous c.r.region c.r.row₁ c.r.slice₁ c.r.row₂ c.r.slice₂

def isWordAligned : Bool :=
  wordAligned (clInt (offsetOf c.r.origin₁ c.r.row₁ c.r.slice₁))
    (clInt (offsetOf c.r.origin₂ c.r.row₂ c.r.slice₂)) c.r.region.x c.r.row₁ c.r.slice₁ c.r.row₂
    c.r.slice₂

/-- Work is enqueued with the event of the caller, and copies the rectangle. -/
def Correct : Prop :=
  ∀ event, (c.enqueue event).event = some event ∧ ∃ work, (c.enqueue event).work = some work ∧
    ∀ m m', work.Leaves c.src c.dst m m' → (geometry c.r).Copied c.src c.dst m m'

/-- The box is not contiguous and lies in the buffers, and its sides fit in the arguments. -/
structure Supported : Prop where
  not_contiguous : c.isContiguous = false
  src_in : c.srcAccess.InBounds
  dst_in : c.dstAccess.InBounds
  /-- the region of the bytes fits 32 bits -/
  bytes : c.isWordAligned = false →
    c.r.region.x.toNat < 2 ^ 32 ∧ c.r.region.y.toNat < 2 ^ 32 ∧ c.r.region.z.toNat < 2 ^ 32

variable {c}

theorem rectOk : RectTransfer.RectOk c.r := by
  refine RectTransfer.rectOk_of_accepted true c.accepted ?_ ?_
  · simp [Request.guards, Buffer.clEnqueueCopyBufferRect]
  · simp [Request.guards, Buffer.clEnqueueCopyBufferRect]

theorem row_ge : c.r.region.x ≤ c.r.row₁ ∧ c.r.region.x ≤ c.r.row₂ := by
  have hok := (Buffer.firstError_eq_success (Request.guards_sound _)).mp c.accepted
    (Buffer.rowPitchGuard c.r.row₁ c.r.row₂ c.r.region)
    (by simp [Request.guards, Buffer.clEnqueueCopyBufferRect])
  simpa only [Buffer.rowPitchGuard, Buffer.Guard.fails, Bool.or_eq_false_iff,
    decide_eq_false_iff_not, UInt64.not_lt] using hok

theorem srcAccess_iff (i : ℕ) : c.srcAccess.Addresses i ↔
    ∃ x y z, (geometry c.r).In x y z ∧ i = (geometry c.r).srcPos x y z := by
  constructor
  · rintro ⟨x, hx, y, hy, z, hz, rfl⟩
    refine ⟨x, y, z, ⟨hx, hy, hz⟩, ?_⟩
    simp only [geometry, Geometry.srcPos]
    ring
  · rintro ⟨x, y, z, ⟨hx, hy, hz⟩, rfl⟩
    refine ⟨x, hx, y, hy, z, hz, ?_⟩
    simp only [geometry, Geometry.srcPos]
    ring

theorem dstAccess_iff (i : ℕ) : c.dstAccess.Addresses i ↔
    ∃ x y z, (geometry c.r).In x y z ∧ i = (geometry c.r).dstPos x y z := by
  constructor
  · rintro ⟨x, hx, y, hy, z, hz, rfl⟩
    refine ⟨x, y, z, ⟨hx, hy, hz⟩, ?_⟩
    simp only [geometry, Geometry.dstPos]
    ring
  · rintro ⟨x, y, z, ⟨hx, hy, hz⟩, rfl⟩
    refine ⟨x, hx, y, hy, z, hz, ?_⟩
    simp only [geometry, Geometry.dstPos]
    ring

/-! ### Requests in bounds -/

section InBounds

variable (hsrc : c.srcAccess.InBounds) (hdst : c.dstAccess.InBounds)

include hsrc in
theorem srcPos_lt {x y z : ℕ} (hin : (geometry c.r).In x y z) :
    (geometry c.r).srcPos x y z < 2 ^ 32 :=
  (hsrc _ ((srcAccess_iff _).mpr ⟨x, y, z, hin, rfl⟩)).trans_le c.src_le

include hdst in
theorem dstPos_lt {x y z : ℕ} (hin : (geometry c.r).In x y z) :
    (geometry c.r).dstPos x y z < 2 ^ 32 :=
  (hdst _ ((dstAccess_iff _).mpr ⟨x, y, z, hin, rfl⟩)).trans_le c.dst_le

theorem region_pos : 0 < (geometry c.r).rx ∧ 0 < (geometry c.r).ry ∧ 0 < (geometry c.r).rz :=
  ⟨Buffer.toNat_pos rectOk.x_ne, Buffer.toNat_pos rectOk.y_ne,
    Buffer.toNat_pos rectOk.z_ne⟩

/-- The test of the slice pitch does not wrap for a rectangle that ends below `2 ^ 32`. -/
theorem mul_row_le {y row slice : UInt64} (hy : 0 < y.toNat) (h : y * row ≤ slice)
    (hfit : (y.toNat - 1) * row.toNat < 2 ^ 32) : y.toNat * row.toNat ≤ slice.toNat := by
  have hrow : row.toNat < 2 ^ 64 := row.toNat_lt
  have hsplit : y.toNat * row.toNat = (y.toNat - 1) * row.toNat + row.toNat := by
    rw [← Nat.succ_mul, Nat.succ_eq_add_one, Nat.sub_add_cancel hy]
  have hlt : y.toNat * row.toNat < 2 ^ 64 := by
    obtain hone | hmany : y.toNat = 1 ∨ 2 ≤ y.toNat := by omega
    · rw [hone]
      omega
    · have hle : 1 * row.toNat ≤ (y.toNat - 1) * row.toNat := Nat.mul_le_mul_right _ (by omega)
      omega
  rw [UInt64.le_iff_toNat_le, UInt64.toNat_mul, Nat.mod_eq_of_lt hlt] at h
  exact h

include hsrc hdst in
theorem geometry_ok : (geometry c.r).Ok where
  rx_pos := region_pos.1
  ry_pos := region_pos.2.1
  rz_pos := region_pos.2.2
  src_row_ge := UInt64.le_iff_toNat_le.mp row_ge.1
  src_slice_ge := by
    obtain ⟨hx, hy, hz⟩ := region_pos (c := c)
    refine mul_row_le hy rectOk.slice₁_le ?_
    have hlast := srcPos_lt hsrc (x := 0) (y := (geometry c.r).ry - 1) (z := 0)
      ⟨hx, by omega, hz⟩
    simp only [Geometry.srcPos] at hlast
    exact lt_of_le_of_lt (by simp only [geometry]; omega) hlast
  src_lt := fun _ _ _ => srcPos_lt hsrc
  dst_row_ge := UInt64.le_iff_toNat_le.mp row_ge.2
  dst_slice_ge := by
    obtain ⟨hx, hy, hz⟩ := region_pos (c := c)
    refine mul_row_le hy rectOk.slice₂_le ?_
    have hlast := dstPos_lt hdst (x := 0) (y := (geometry c.r).ry - 1) (z := 0)
      ⟨hx, by omega, hz⟩
    simp only [Geometry.dstPos] at hlast
    exact lt_of_le_of_lt (by simp only [geometry]; omega) hlast
  dst_lt := fun _ _ _ => dstPos_lt hdst

end InBounds

/-! ### The launch -/

variable (c) in
def globals : Vec3 :=
  ⟨globalSz c.r.region.x LOCAL_SZ_0,
    globalSz c.r.region.y (if c.r.region.y = 1 then 1 else LOCAL_SZ_1),
    globalSz c.r.region.z (if c.r.region.z = 1 then 1 else LOCAL_SZ_1)⟩

variable (c) in
def wordLaunch : Launch where
  kernel := .rect_align4
  args := ⟨clInt (c.r.region.x / 4), clInt c.r.region.y, clInt c.r.region.z,
    intDiv4 (clInt (offsetOf c.r.origin₁ c.r.row₁ c.r.slice₁)),
    intDiv4 (clInt (offsetOf c.r.origin₂ c.r.row₂ c.r.slice₂)), clInt (c.r.row₁ / 4),
    clInt (c.r.slice₁ / 4), clInt (c.r.row₂ / 4), clInt (c.r.slice₂ / 4)⟩
  global_sz := c.globals

variable (c) in
def byteLaunch : Launch where
  kernel := .rect
  args := ⟨clInt c.r.region.x, clInt c.r.region.y, clInt c.r.region.z,
    clInt (offsetOf c.r.origin₁ c.r.row₁ c.r.slice₁),
    clInt (offsetOf c.r.origin₂ c.r.row₂ c.r.slice₂), clInt c.r.row₁, clInt c.r.slice₁,
    clInt c.r.row₂, clInt c.r.slice₂⟩
  global_sz := c.globals

variable (c) in
def launch : Launch := if c.isWordAligned then c.wordLaunch else c.byteLaunch

theorem enqueue_contiguous (h : c.isContiguous = true) (event : ℕ) :
    (c.enqueue event).event = none := by
  rw [isContiguous] at h
  rw [enqueue, cl_mem_copy_buffer_rect, if_pos h]

theorem enqueue_launch (h : c.isContiguous = false) (event : ℕ) :
    c.enqueue event = ⟨some (.rect c.launch), some event⟩ := by
  rw [isContiguous] at h
  rw [enqueue, cl_mem_copy_buffer_rect, if_neg (Bool.eq_false_iff.mp h), launch]
  by_cases hw : c.isWordAligned = true
  · rw [if_pos hw]
    rw [isWordAligned] at hw
    rw [if_pos hw]
    rfl
  · rw [if_neg hw]
    rw [isWordAligned] at hw
    rw [if_neg hw]
    rfl

theorem correct_iff (h : c.isContiguous = false) : c.Correct ↔
    ∀ m m', (Work.rect c.launch).Leaves c.src c.dst m m' →
      (geometry c.r).Copied c.src c.dst m m' := by
  constructor
  · intro hc m m' hm
    obtain ⟨-, work, hwork, hcopied⟩ := hc 0
    rw [enqueue_launch h] at hwork
    cases hwork
    exact hcopied m m' hm
  · intro hcopied event
    rw [enqueue_launch h]
    exact ⟨rfl, _, rfl, hcopied⟩

theorem byteLaunch_args :
    c.byteLaunch.args = (geometry c.r).args 1 (BitVec.ofNat 32 (geometry c.r).src_off)
      (BitVec.ofNat 32 (geometry c.r).dst_off) := by
  simp only [byteLaunch, Geometry.args, geometry, clInt_offsetOf, Nat.div_one]
  rfl

theorem byteWords : (geometry c.r).Words 1 :=
  ⟨Nat.one_pos, one_dvd _, one_dvd _, one_dvd _, one_dvd _, one_dvd _⟩

theorem dvd_toNat {n : UInt64} (h : n % 4 = 0) : 4 ∣ n.toNat := by
  have hmod := congrArg UInt64.toNat h
  rw [UInt64.toNat_mod] at hmod
  exact Nat.dvd_of_mod_eq_zero hmod

/-- What the test for words says. -/
theorem words_of_aligned (h : c.isWordAligned = true) : (geometry c.r).Words 4 ∧
    4 ∣ (geometry c.r).src_off ∧ 4 ∣ (geometry c.r).dst_off := by
  simp only [isWordAligned, wordAligned, clInt_offsetOf, Bool.and_eq_true, beq_iff_eq,
    intAligned_iff] at h
  obtain ⟨⟨⟨⟨⟨⟨hsrc, hdst⟩, hsrow⟩, hdrow⟩, hsslice⟩, hdslice⟩, hx⟩ := h
  exact ⟨⟨by decide, dvd_toNat hx, dvd_toNat hsrow, dvd_toNat hsslice, dvd_toNat hdrow,
    dvd_toNat hdslice⟩, hsrc, hdst⟩

theorem wordLaunch_args :
    c.wordLaunch.args = (geometry c.r).args 4
      (intDiv4 (BitVec.ofNat 32 (geometry c.r).src_off))
      (intDiv4 (BitVec.ofNat 32 (geometry c.r).dst_off)) := by
  simp only [wordLaunch, Geometry.args, geometry, clInt_offsetOf]
  rfl

theorem launch_covers (h : (geometry c.r).Ok) {launch : Launch}
    (hsize : launch.global_sz = c.globals) : launch.Covers (geometry c.r) := by
  obtain ⟨hx, hy, hz⟩ := h.region_lt byteWords
  have hwidth : 1 ≤ launch.width := by
    rw [Launch.width]
    split <;> decide
  have hside : ∀ n : UInt64, (if n = 1 then (1 : UInt64) else LOCAL_SZ_1) = 1 ∨
      (if n = 1 then (1 : UInt64) else LOCAL_SZ_1) = 4 ∨
        (if n = 1 then (1 : UInt64) else LOCAL_SZ_1) = 16 := by
    intro n
    split_ifs
    · exact .inl rfl
    · exact .inr (.inl rfl)
  obtain ⟨hxge, hxle⟩ := globalSz_toNat (l := LOCAL_SZ_0) hx (.inr (.inr rfl))
  obtain ⟨hyge, hyle⟩ := globalSz_toNat (n := c.r.region.y) (by simp only [geometry] at hy; omega)
    (hside c.r.region.y)
  obtain ⟨hzge, hzle⟩ := globalSz_toNat (n := c.r.region.z) (by simp only [geometry] at hz; omega)
    (hside c.r.region.z)
  have hscale : 1 * launch.global_sz.x.toNat ≤ launch.width * launch.global_sz.x.toNat :=
    Nat.mul_le_mul_right _ hwidth
  rw [Nat.one_mul, hsize] at hscale
  refine ⟨?_, ?_, ?_, ?_, ?_, ?_⟩
  all_goals rw [hsize]
  · exact hxge.trans hscale
  · exact hyge
  · exact hzge
  · exact hxle
  · exact hyle
  · exact hzle

/-! ### The rectangle arrives -/

theorem off_lt (h : (geometry c.r).Ok) :
    (geometry c.r).src_off < 2 ^ 32 ∧ (geometry c.r).dst_off < 2 ^ 32 := by
  have hfirst : (geometry c.r).In 0 0 0 := ⟨h.rx_pos, h.ry_pos, h.rz_pos⟩
  exact ⟨(Nat.le_add_right _ _).trans_lt (h.src_lt _ _ _ hfirst),
    (Nat.le_add_right _ _).trans_lt (h.dst_lt _ _ _ hfirst)⟩

theorem correct_of_supported (h : c.Supported) : c.Correct := by
  rw [correct_iff h.not_contiguous]
  have hok : (geometry c.r).Ok := geometry_ok h.src_in h.dst_in
  obtain ⟨hslt, hdlt⟩ := off_lt hok
  rw [launch]
  by_cases hal : c.isWordAligned = true
  · rw [if_pos hal]
    obtain ⟨hw, hsdvd, hddvd⟩ := words_of_aligned hal
    obtain ⟨hx, hy, hz⟩ := hok.region_lt hw
    have hfits : (geometry c.r).Fits 4 := ⟨by omega, by omega, by omega⟩
    exact hok.launch_copied hw c.apart wordLaunch_args hfits (mul_intDiv4 hslt hsdvd)
      (mul_intDiv4 hdlt hddvd) (launch_covers hok rfl)
  · rw [if_neg hal]
    obtain ⟨hx, hy, hz⟩ := h.bytes (Bool.eq_false_iff.mpr hal)
    have hfits : (geometry c.r).Fits 1 := ⟨by rwa [Nat.div_one], hy, hz⟩
    have hbyte : ∀ off < 2 ^ 32, 1 * (BitVec.ofNat 32 off).toNat % 2 ^ 32 = off := by
      intro off hlt
      rw [Nat.one_mul, BitVec.toNat_ofNat, Nat.mod_mod, Nat.mod_eq_of_lt hlt]
    exact hok.launch_copied byteWords c.apart byteLaunch_args hfits (hbyte _ hslt) (hbyte _ hdlt)
      (launch_covers hok rfl)

/-! ### The rectangle does not arrive -/

/-- The last byte of an access that wraps. -/
theorem exists_far {a : Access} (ha : a ∈ c.request.accesses) (h : ¬ a.InBounds) :
    ∃ i, a.Addresses i ∧ 2 ^ 34 ≤ i := by
  obtain ⟨hargs, hle⟩ := c.request.accepted_iff.mp c.accepted
  have hsolid := Request.solid_of_argsOk hargs a ha
  have hfar : 2 ^ 64 ≤ a.finish := by
    rw [← not_lt]
    exact mt (Access.inBounds_iff hsolid (hle a ha)).mpr h
  have hrect : a = c.srcAccess ∨ a = c.dstAccess := by
    simpa [request, Request.accesses, srcAccess, dstAccess] using ha
  refine ⟨a.finish - 1, ?_, by omega⟩
  obtain rfl | rfl := hrect
  · exact Buffer.Access.addresses_last hsolid
  · exact Buffer.Access.addresses_last hsolid

theorem src_inBounds_of_copied
    (h : ∀ m m', (Work.rect c.launch).Leaves c.src c.dst m m' →
      (geometry c.r).Copied c.src c.dst m m') : c.srcAccess.InBounds := by
  by_contra hout
  obtain ⟨i, hi, hfar⟩ := exists_far (List.mem_cons_self ..) hout
  obtain ⟨x, y, z, hin, rfl⟩ := (srcAccess_iff i).mp hi
  exact (Launch.ignores_far (Nat.add_le_add_left hfar c.src)).not_copied c.apart hin h

theorem dst_inBounds_of_copied
    (h : ∀ m m', (Work.rect c.launch).Leaves c.src c.dst m m' →
      (geometry c.r).Copied c.src c.dst m m') : c.dstAccess.InBounds := by
  by_contra hout
  obtain ⟨i, hi, hfar⟩ :=
    exists_far (List.mem_cons_of_mem _ (List.mem_cons_self ..)) hout
  obtain ⟨x, y, z, hin, rfl⟩ := (dstAccess_iff i).mp hi
  exact (Launch.spares_far (Nat.add_le_add_left hfar c.dst)).not_copied c.apart hin h

/-- A side of `2 ^ 32` bytes is zero as an argument. -/
theorem region_lt_of_copied (hok : (geometry c.r).Ok)
    (h : ∀ m m', (Work.rect c.byteLaunch).Leaves c.src c.dst m m' →
      (geometry c.r).Copied c.src c.dst m m') : c.r.region.x.toNat < 2 ^ 32 ∧
        c.r.region.y.toNat < 2 ^ 32 ∧ c.r.region.z.toNat < 2 ^ 32 := by
  obtain ⟨hx, hy, hz⟩ := hok.region_lt byteWords
  by_contra hbig
  have hfirst : (geometry c.r).In 0 0 0 := ⟨hok.rx_pos, hok.ry_pos, hok.rz_pos⟩
  refine Launch.Spares.not_copied c.apart hfirst ?_ h
  rintro gid - ⟨hinx, hiny, hinz⟩
  simp only [geometry] at hx hy hz
  have hzero : ∀ {i n : ℕ}, BitVec.ofNat 32 i < BitVec.ofNat 32 n → n ≠ 2 ^ 32 := by
    rintro i n hlt rfl
    cases hlt
  have hinx := hzero hinx
  have hiny := hzero hiny
  have hinz := hzero hinz
  omega

/-- **When the rectangle arrives** with the event of the caller. -/
theorem cl_mem_copy_buffer_rect_iff (c : RectCopy) : c.Correct ↔ c.Supported := by
  refine ⟨fun h => ?_, correct_of_supported⟩
  have hcont : c.isContiguous = false := by
    rw [Bool.eq_false_iff]
    intro hcont
    have hevent := (h 0).1
    rw [enqueue_contiguous hcont] at hevent
    cases hevent
  rw [correct_iff hcont] at h
  have hsrc := src_inBounds_of_copied h
  have hdst := dst_inBounds_of_copied h
  have hok : (geometry c.r).Ok := geometry_ok hsrc hdst
  rw [launch] at h
  refine ⟨hcont, hsrc, hdst, fun hal => ?_⟩
  rw [if_neg (Bool.eq_false_iff.mp hal)] at h
  exact region_lt_of_copied hok h

/-- A whole buffer of 64 bytes, copied to another one in one row. -/
def wholeBuffer : RectCopy where
  queue := ⟨true, 0⟩
  src_buffer := ⟨0, true, .buffer, 0, 1, 64, 0, 1024⟩
  dst_buffer := ⟨1, true, .buffer, 0, 1, 64, 0, 1024⟩
  r := ⟨⟨0, 0, 0⟩, ⟨0, 0, 0⟩, ⟨64, 1, 1⟩, 0, 0, 0, 0⟩
  waitlist := Runtime.CL_SUCCESS
  src := 0
  dst := 64
  accepted := by decide
  src_le := by decide
  dst_le := by decide
  apart := by
    rintro x y z x' y' z' ⟨hx, hy, hz⟩ ⟨-, hy', hz'⟩
    obtain rfl : y = 0 := Nat.lt_one_iff.mp hy
    obtain rfl : z = 0 := Nat.lt_one_iff.mp hz
    obtain rfl : y' = 0 := Nat.lt_one_iff.mp hy'
    obtain rfl : z' = 0 := Nat.lt_one_iff.mp hz'
    replace hx : x < 64 := hx
    simp only [geometry, Geometry.srcPos, Geometry.dstPos, UInt64.reduceToNat, Nat.zero_mul]
    omega

/-- The launch of the copy has no event. -/
theorem wholeBuffer_wrong : ¬ ∀ c : RectCopy, c.Correct := by
  intro h
  have hevent := (h wholeBuffer 0).1
  rw [enqueue_contiguous (by decide)] at hevent
  cases hevent

end RectCopy

end Runtime.CopyRect
