/-
The argument checks of the buffer entry points (`cl_api_mem.c`, `cl_mem_new_sub_buffer` in
`cl_mem.c`) and the bytes the accepted requests address.

`size_t` is `UInt64`, so sums and products wrap as they do in the code.  An entry point is the
list of its guards in the order of the source; the first one that fails gives the error.  The
host side of a transfer, the event made for it and the kernels behind it are left out; what
`cl_event_check_waitlist` answers is an argument.

* **`accepted_in_bounds_iff`** — an accepted request stays inside its buffers iff no end
  of an access, computed without wraparound, reaches `2 ^ 64`.
-/
import Beignet.Runtime.Event

namespace Runtime

namespace Buffer

/-! ### Objects and codes -/

abbrev CL_MEM_COPY_OVERLAP : ℤ := -8
abbrev CL_MISALIGNED_SUB_BUFFER_OFFSET : ℤ := -13
abbrev CL_INVALID_VALUE : ℤ := -30
abbrev CL_INVALID_CONTEXT : ℤ := -34
abbrev CL_INVALID_COMMAND_QUEUE : ℤ := -36
abbrev CL_INVALID_MEM_OBJECT : ℤ := -38
abbrev CL_INVALID_BUFFER_SIZE : ℤ := -61

abbrev CL_MEM_READ_WRITE : UInt64 := 1
abbrev CL_MEM_WRITE_ONLY : UInt64 := 2
abbrev CL_MEM_READ_ONLY : UInt64 := 4
abbrev CL_MEM_USE_HOST_PTR : UInt64 := 8
abbrev CL_MEM_ALLOC_HOST_PTR : UInt64 := 16
abbrev CL_MEM_COPY_HOST_PTR : UInt64 := 32
abbrev CL_MEM_HOST_WRITE_ONLY : UInt64 := 128
abbrev CL_MEM_HOST_READ_ONLY : UInt64 := 256
abbrev CL_MEM_HOST_NO_ACCESS : UInt64 := 512

abbrev CL_MAP_READ : UInt64 := 1
abbrev CL_MAP_WRITE : UInt64 := 2
abbrev CL_MAP_WRITE_INVALIDATE_REGION : UInt64 := 4

abbrev CL_BUFFER_CREATE_TYPE_REGION : UInt64 := 0x1220

/-- `enum cl_mem_type` -/
inductive MemType where
  | buffer | subbuffer | pipe | svm | image | glImage | buffer1dImage
  deriving DecidableEq

/-- `type < CL_MEM_IMAGE_TYPE` -/
def MemType.isBuffer : MemType → Bool
  | .buffer | .subbuffer | .pipe | .svm => true
  | .image | .glImage | .buffer1dImage => false

structure Mem where
  /-- the address of the object -/
  id : ℕ
  /-- a memory object with a reference count of at least one -/
  isMem : Bool
  type : MemType
  ctx : ℕ
  flags : UInt64
  size : UInt64
  sub_offset : UInt64
  /-- `mem_base_addr_align` of the first device of the context, in bits -/
  mem_base_addr_align : UInt64

/-- `_cl_command_queue` -/
structure Queue where
  isCommandQueue : Bool
  ctx : ℕ

/-- An origin or a region. -/
structure Vec3 where
  x : UInt64
  y : UInt64
  z : UInt64

/-- Some bit of the mask is set. -/
def hasAny (flags mask : UInt64) : Bool := flags &&& mask ≠ 0

/-! ### Guards -/

/-- One `if (…) { err = …; break; }`. -/
inductive Guard where
  | arg (bad : Bool) (err : ℤ)
  /-- `total > buffer->size` -/
  | bounds (total : UInt64) (buffer : Mem)

def Guard.fails : Guard → Bool
  | .arg bad _ => bad
  | .bounds total buffer => total > buffer.size

def Guard.err : Guard → ℤ
  | .arg _ err => err
  | .bounds .. => CL_INVALID_VALUE

/-- The guard is not a failing check of an argument other than a range. -/
def Guard.argOk : Guard → Bool
  | .arg bad _ => !bad
  | .bounds .. => true

/-- The error of the first guard that fails. -/
def firstError : List Guard → ℤ
  | [] => CL_SUCCESS
  | g :: gs => if g.fails then g.err else firstError gs

/-- `cl_event_check_waitlist` -/
def waitlistGuard (waitlist : ℤ) : Guard := .arg (waitlist ≠ CL_SUCCESS) waitlist

def queueGuard (queue : Queue) : Guard := .arg (!queue.isCommandQueue) CL_INVALID_COMMAND_QUEUE

/-- `CL_OBJECT_IS_BUFFER` -/
def bufferGuard (mem : Mem) : Guard :=
  .arg (!(mem.isMem && mem.type.isBuffer)) CL_INVALID_MEM_OBJECT

/-- `CL_OBJECT_IS_MEM` -/
def memGuard (mem : Mem) : Guard := .arg (!mem.isMem) CL_INVALID_MEM_OBJECT

def contextGuard (queue : Queue) (mem : Mem) : Guard :=
  .arg (queue.ctx ≠ mem.ctx) CL_INVALID_CONTEXT

/-- A transfer between the host and a range of a buffer. -/
def transferGuards (queue : Queue) (buffer : Mem) (badArgs : Bool) (offset size : UInt64)
    (noAccess : Bool) (waitlist : ℤ) : List Guard :=
  [queueGuard queue, bufferGuard buffer, contextGuard queue buffer,
    .arg (badArgs || size == 0) CL_INVALID_VALUE, .bounds (offset + size) buffer,
    .arg noAccess CL_INVALID_OPERATION, waitlistGuard waitlist]

def clEnqueueReadBuffer (queue : Queue) (buffer : Mem) (offset size : UInt64) (ptr : Bool)
    (waitlist : ℤ) : List Guard :=
  transferGuards queue buffer (!ptr) offset size
    (hasAny buffer.flags (CL_MEM_HOST_WRITE_ONLY ||| CL_MEM_HOST_NO_ACCESS)) waitlist

def clEnqueueWriteBuffer (queue : Queue) (buffer : Mem) (offset size : UInt64) (ptr : Bool)
    (waitlist : ℤ) : List Guard :=
  transferGuards queue buffer (!ptr) offset size
    (hasAny buffer.flags (CL_MEM_HOST_READ_ONLY ||| CL_MEM_HOST_NO_ACCESS)) waitlist

def clEnqueueMapBuffer (queue : Queue) (buffer : Mem) (map_flags offset size : UInt64)
    (waitlist : ℤ) : List Guard :=
  transferGuards queue buffer false offset size
    ((hasAny map_flags CL_MAP_READ &&
        hasAny buffer.flags (CL_MEM_HOST_WRITE_ONLY ||| CL_MEM_HOST_NO_ACCESS)) ||
      (hasAny map_flags (CL_MAP_WRITE ||| CL_MAP_WRITE_INVALIDATE_REGION) &&
        hasAny buffer.flags (CL_MEM_HOST_READ_ONLY ||| CL_MEM_HOST_NO_ACCESS))) waitlist

/-- `start1 <= start2 && start2 <= start1 + cb - 1` -/
def startsIn (start1 start2 cb : UInt64) : Bool :=
  start1 ≤ start2 && start2 ≤ start1 + cb - 1

/-- The overlap test of `clEnqueueCopyBuffer`: both ranges have to start in the other one. -/
def rangesOverlap (src dst cb : UInt64) : Bool := startsIn src dst cb && startsIn dst src cb

def clEnqueueCopyBuffer (queue : Queue) (src_buffer dst_buffer : Mem)
    (src_offset dst_offset cb : UInt64) (waitlist : ℤ) : List Guard :=
  [queueGuard queue, memGuard src_buffer, memGuard dst_buffer,
    contextGuard queue src_buffer, contextGuard queue dst_buffer,
    .bounds (src_offset + cb) src_buffer, .bounds (dst_offset + cb) dst_buffer,
    .arg (src_buffer.id = dst_buffer.id && rangesOverlap src_offset dst_offset cb)
      CL_MEM_COPY_OVERLAP,
    .arg (src_buffer.type = .subbuffer && dst_buffer.type = .subbuffer &&
        rangesOverlap (src_offset + src_buffer.sub_offset) (dst_offset + dst_buffer.sub_offset) cb)
      CL_MEM_COPY_OVERLAP,
    waitlistGuard waitlist]

/-- `valid_sz` -/
def validSz : List UInt64 := [1, 2, 4, 8, 16, 32, 64, 128]

def clEnqueueFillBuffer (queue : Queue) (buffer : Mem) (pattern : Bool)
    (pattern_size offset size : UInt64) (waitlist : ℤ) : List Guard :=
  [queueGuard queue, bufferGuard buffer, contextGuard queue buffer,
    .bounds (offset + size) buffer,
    .arg (!pattern) CL_INVALID_VALUE,
    .arg (!validSz.contains pattern_size) CL_INVALID_VALUE,
    .arg (offset % pattern_size ≠ 0 || size % pattern_size ≠ 0) CL_INVALID_VALUE,
    waitlistGuard waitlist]

/-! ### Rectangles -/

/-- The row pitch when the caller gives none. -/
def rowPitch (row_pitch : UInt64) (region : Vec3) : UInt64 :=
  if row_pitch = 0 then region.x else row_pitch

/-- The slice pitch when the caller gives none. -/
def slicePitch (slice_pitch row_pitch : UInt64) (region : Vec3) : UInt64 :=
  if slice_pitch = 0 then region.y * row_pitch else slice_pitch

def regionGuard (given : Bool) (region : Vec3) : Guard :=
  .arg (!given || region.x == 0 || region.y == 0 || region.z == 0) CL_INVALID_VALUE

def rowPitchGuard (row₁ row₂ : UInt64) (region : Vec3) : Guard :=
  .arg (row₁ < region.x || row₂ < region.x) CL_INVALID_VALUE

def slicePitchBad (row slice : UInt64) (region : Vec3) : Bool :=
  slice < region.y * row || slice % row ≠ 0

def slicePitchGuard (row₁ slice₁ row₂ slice₂ : UInt64) (region : Vec3) : Guard :=
  .arg (slicePitchBad row₁ slice₁ region || slicePitchBad row₂ slice₂ region) CL_INVALID_VALUE

def totalSize (origin region : Vec3) (row slice : UInt64) : UInt64 :=
  (origin.z + region.z - 1) * slice + (origin.y + region.y - 1) * row + origin.x + region.x

/-- The arguments of the rect entry points: the two origins are those of the buffer and the
host, or of the source and the destination. -/
structure RectArgs where
  origin₁ : Vec3
  origin₂ : Vec3
  region : Vec3
  row_pitch₁ : UInt64
  slice_pitch₁ : UInt64
  row_pitch₂ : UInt64
  slice_pitch₂ : UInt64

namespace RectArgs

variable (r : RectArgs)

/-- The pitches after the defaults are filled in. -/
def row₁ : UInt64 := rowPitch r.row_pitch₁ r.region
def slice₁ : UInt64 := slicePitch r.slice_pitch₁ r.row₁ r.region
def row₂ : UInt64 := rowPitch r.row_pitch₂ r.region
def slice₂ : UInt64 := slicePitch r.slice_pitch₂ r.row₂ r.region

end RectArgs

def rectTransferGuards (queue : Queue) (buffer : Mem) (noAccess : Bool) (ptr region : Bool)
    (r : RectArgs) (waitlist : ℤ) : List Guard :=
  [queueGuard queue, bufferGuard buffer, contextGuard queue buffer,
    .arg noAccess CL_INVALID_OPERATION, regionGuard (ptr && region) r.region,
    rowPitchGuard r.row₁ r.row₂ r.region,
    slicePitchGuard r.row₁ r.slice₁ r.row₂ r.slice₂ r.region,
    .bounds (totalSize r.origin₁ r.region r.row₁ r.slice₁) buffer, waitlistGuard waitlist]

def clEnqueueReadBufferRect (queue : Queue) (buffer : Mem) (r : RectArgs) (ptr region : Bool)
    (waitlist : ℤ) : List Guard :=
  rectTransferGuards queue buffer
    (hasAny buffer.flags (CL_MEM_HOST_WRITE_ONLY ||| CL_MEM_HOST_NO_ACCESS)) ptr region r waitlist

def clEnqueueWriteBufferRect (queue : Queue) (buffer : Mem) (r : RectArgs) (ptr region : Bool)
    (waitlist : ℤ) : List Guard :=
  rectTransferGuards queue buffer
    (hasAny buffer.flags (CL_MEM_HOST_READ_ONLY ||| CL_MEM_HOST_NO_ACCESS)) ptr region r waitlist

/-- `delta > 0 && delta > other`, with `delta` the part of a range behind `limit` -/
def sticksOut (offset extent limit other : UInt64) : Bool :=
  let delta := if offset + extent > limit then offset + extent - limit else 0
  delta > 0 && delta > other

/-- `check_copy_overlap` -/
def checkCopyOverlap (src dst region : Vec3) (row_pitch slice_pitch : UInt64) : Bool :=
  let start (o : Vec3) := o.z * slice_pitch + o.y * row_pitch + o.x
  let finish (o : Vec3) :=
    start o + (region.z * slice_pitch + region.y * row_pitch + region.x)
  let meets (s d e : UInt64) := s < d + e && s + e > d
  let linear := (start src ≤ start dst && start dst < finish src) ||
    (start dst ≤ start src && start src < finish dst)
  let height := slice_pitch / row_pitch
  (meets src.x dst.x region.x && meets src.y dst.y region.y && meets src.z dst.z region.z) ||
  ((sticksOut src.x region.x row_pitch dst.x || sticksOut dst.x region.x row_pitch src.x) &&
    linear) ||
  (region.z > 1 &&
    (sticksOut src.y region.y height dst.y || sticksOut dst.y region.y height src.y) && linear)

def clEnqueueCopyBufferRect (queue : Queue) (src_buffer dst_buffer : Mem) (r : RectArgs)
    (region : Bool) (waitlist : ℤ) : List Guard :=
  [queueGuard queue, memGuard src_buffer, memGuard dst_buffer,
    .arg (queue.ctx ≠ src_buffer.ctx || queue.ctx ≠ dst_buffer.ctx) CL_INVALID_CONTEXT,
    regionGuard region r.region, rowPitchGuard r.row₁ r.row₂ r.region,
    slicePitchGuard r.row₁ r.slice₁ r.row₂ r.slice₂ r.region,
    .bounds (totalSize r.origin₁ r.region r.row₁ r.slice₁) src_buffer,
    .bounds (totalSize r.origin₂ r.region r.row₂ r.slice₂) dst_buffer,
    .arg (src_buffer.id = dst_buffer.id && (r.row₁ ≠ r.row₂ || r.slice₁ ≠ r.slice₂))
      CL_INVALID_VALUE,
    .arg (src_buffer.id = dst_buffer.id &&
        checkCopyOverlap r.origin₁ r.origin₂ r.region r.row₁ r.slice₁)
      CL_MEM_COPY_OVERLAP,
    waitlistGuard waitlist]

/-! ### Sub-buffers -/

/-- The flags that a sub-buffer cannot be made with. -/
def subFlagsBad (buffer flags : UInt64) : Bool :=
  flags ≠ 0 &&
    ((hasAny buffer CL_MEM_WRITE_ONLY && hasAny flags (CL_MEM_READ_WRITE ||| CL_MEM_READ_ONLY)) ||
      (hasAny buffer CL_MEM_READ_ONLY && hasAny flags (CL_MEM_READ_WRITE ||| CL_MEM_WRITE_ONLY)) ||
      hasAny flags (CL_MEM_USE_HOST_PTR ||| CL_MEM_ALLOC_HOST_PTR ||| CL_MEM_COPY_HOST_PTR) ||
      (hasAny flags CL_MEM_HOST_READ_ONLY && hasAny flags CL_MEM_HOST_NO_ACCESS) ||
      (hasAny flags CL_MEM_HOST_READ_ONLY && hasAny flags CL_MEM_HOST_WRITE_ONLY) ||
      (hasAny flags CL_MEM_HOST_WRITE_ONLY && hasAny flags CL_MEM_HOST_NO_ACCESS))

/-- `clCreateSubBuffer`, and `cl_mem_new_sub_buffer` behind it. -/
def clCreateSubBuffer (buffer : Mem) (flags create_type : UInt64) (create_info : Bool)
    (origin size : UInt64) : List Guard :=
  [memGuard buffer, .arg (buffer.type ≠ .buffer) CL_INVALID_MEM_OBJECT,
    .arg (subFlagsBad buffer.flags flags) CL_INVALID_VALUE,
    .arg (create_type ≠ CL_BUFFER_CREATE_TYPE_REGION) CL_INVALID_VALUE,
    .arg (!create_info) CL_INVALID_VALUE, .arg (size == 0) CL_INVALID_BUFFER_SIZE,
    .arg (origin > buffer.size) CL_INVALID_VALUE, .bounds (origin + size) buffer,
    .arg (hasAny origin (buffer.mem_base_addr_align / 8 - 1)) CL_MISALIGNED_SUB_BUFFER_OFFSET]

/-! ### Accesses -/

/-- What a request addresses in one buffer. -/
inductive Access where
  | range (buffer : Mem) (offset size : UInt64)
  | rect (buffer : Mem) (origin region : Vec3) (row slice : UInt64)

namespace Access

def buffer : Access → Mem
  | range buffer .. => buffer
  | rect buffer .. => buffer

/-- The bytes addressed, in unbounded integers. -/
def Addresses : Access → ℕ → Prop
  | range _ offset size, i => ∃ k < size.toNat, i = offset.toNat + k
  | rect _ origin region row slice, i =>
    ∃ x < region.x.toNat, ∃ y < region.y.toNat, ∃ z < region.z.toNat,
      i = (origin.z.toNat + z) * slice.toNat + (origin.y.toNat + y) * row.toNat +
        (origin.x.toNat + x)

/-- The end of the access, in unbounded integers. -/
def finish : Access → ℕ
  | range _ offset size => offset.toNat + size.toNat
  | rect _ origin region row slice =>
    (origin.z.toNat + (region.z.toNat - 1)) * slice.toNat +
      (origin.y.toNat + (region.y.toNat - 1)) * row.toNat + (origin.x.toNat + region.x.toNat)

/-- The same end in `size_t`, as the guards compute it. -/
def total : Access → UInt64
  | range _ offset size => offset + size
  | rect _ origin region row slice => totalSize origin region row slice

/-- Each byte addressed lies in the buffer. -/
def InBounds (a : Access) : Prop := ∀ i, a.Addresses i → i < a.buffer.size.toNat

end Access

/-- A call of one of the entry points. -/
inductive Request where
  | readBuffer (queue : Queue) (buffer : Mem) (offset size : UInt64) (ptr : Bool) (waitlist : ℤ)
  | writeBuffer (queue : Queue) (buffer : Mem) (offset size : UInt64) (ptr : Bool) (waitlist : ℤ)
  | mapBuffer (queue : Queue) (buffer : Mem) (map_flags offset size : UInt64) (waitlist : ℤ)
  | copyBuffer (queue : Queue) (src_buffer dst_buffer : Mem) (src_offset dst_offset cb : UInt64)
      (waitlist : ℤ)
  | fillBuffer (queue : Queue) (buffer : Mem) (pattern : Bool)
      (pattern_size offset size : UInt64) (waitlist : ℤ)
  | readBufferRect (queue : Queue) (buffer : Mem) (r : RectArgs) (ptr region : Bool) (waitlist : ℤ)
  | writeBufferRect (queue : Queue) (buffer : Mem) (r : RectArgs) (ptr region : Bool)
      (waitlist : ℤ)
  | copyBufferRect (queue : Queue) (src_buffer dst_buffer : Mem) (r : RectArgs) (region : Bool)
      (waitlist : ℤ)
  | createSubBuffer (buffer : Mem) (flags create_type : UInt64) (create_info : Bool)
      (origin size : UInt64)

namespace Request

def guards : Request → List Guard
  | readBuffer q b o s p w => clEnqueueReadBuffer q b o s p w
  | writeBuffer q b o s p w => clEnqueueWriteBuffer q b o s p w
  | mapBuffer q b f o s w => clEnqueueMapBuffer q b f o s w
  | copyBuffer q src dst so d cb w => clEnqueueCopyBuffer q src dst so d cb w
  | fillBuffer q b p ps o s w => clEnqueueFillBuffer q b p ps o s w
  | readBufferRect q b r p g w => clEnqueueReadBufferRect q b r p g w
  | writeBufferRect q b r p g w => clEnqueueWriteBufferRect q b r p g w
  | copyBufferRect q src dst r g w => clEnqueueCopyBufferRect q src dst r g w
  | createSubBuffer b f t i o s => clCreateSubBuffer b f t i o s

def accesses : Request → List Access
  | readBuffer _ b o s _ _ | writeBuffer _ b o s _ _ | mapBuffer _ b _ o s _
  | fillBuffer _ b _ _ o s _ | createSubBuffer b _ _ _ o s => [.range b o s]
  | copyBuffer _ src dst so d cb _ => [.range src so cb, .range dst d cb]
  | readBufferRect _ b r _ _ _ | writeBufferRect _ b r _ _ _ =>
    [.rect b r.origin₁ r.region r.row₁ r.slice₁]
  | copyBufferRect _ src dst r _ _ =>
    [.rect src r.origin₁ r.region r.row₁ r.slice₁, .rect dst r.origin₂ r.region r.row₂ r.slice₂]

/-- The request is not refused. -/
def Accepted (c : Request) : Prop := firstError c.guards = CL_SUCCESS

/-- All arguments but the ranges pass. -/
def ArgsOk (c : Request) : Prop := c.guards.all Guard.argOk = true

instance (c : Request) : Decidable c.Accepted := inferInstanceAs (Decidable (_ = _))

end Request

/-! ### What acceptance says -/

theorem toNat_pos {n : UInt64} (h : n ≠ 0) : 0 < n.toNat :=
  Nat.pos_of_ne_zero fun hn => h (UInt64.toNat_inj.mp hn)

/-- A guard that fails does not answer `CL_SUCCESS`. -/
def Guard.Sound (g : Guard) : Prop := g.fails = true → g.err ≠ CL_SUCCESS

theorem firstError_eq_success {gs : List Guard} (hs : ∀ g ∈ gs, g.Sound) :
    firstError gs = CL_SUCCESS ↔ ∀ g ∈ gs, g.fails = false := by
  induction gs with
  | nil => simp [firstError]
  | cons g gs ih =>
    have hrest := ih fun g' hg' => hs g' (List.mem_cons_of_mem _ hg')
    by_cases hf : g.fails = true
    · have hne : g.err ≠ CL_SUCCESS := hs g List.mem_cons_self hf
      simp [firstError, hf, hne]
    · simp [firstError, hf, hrest]

/-- No guard fails iff the arguments pass and the ranges do. -/
theorem fails_eq_false_iff (gs : List Guard) :
    (∀ g ∈ gs, g.fails = false) ↔ gs.all Guard.argOk = true ∧
      ∀ total buffer, Guard.bounds total buffer ∈ gs → total ≤ buffer.size := by
  constructor
  · intro h
    constructor
    · rw [List.all_eq_true]
      rintro (⟨bad, err⟩ | _) hg
      · simpa [Guard.argOk, Guard.fails] using h _ hg
      · rfl
    · intro total buffer hg
      simpa [Guard.fails] using h _ hg
  · rintro ⟨hargs, hbounds⟩ (⟨bad, err⟩ | ⟨total, buffer⟩) hg
    · simpa [Guard.argOk, Guard.fails] using List.all_eq_true.mp hargs _ hg
    · simpa [Guard.fails] using hbounds total buffer hg

namespace Request

variable (c : Request)

theorem guards_sound : ∀ g ∈ c.guards, g.Sound := by
  cases c <;>
    simp [guards, clEnqueueReadBuffer, clEnqueueWriteBuffer, clEnqueueMapBuffer,
      clEnqueueCopyBuffer, clEnqueueFillBuffer, clEnqueueReadBufferRect,
      clEnqueueWriteBufferRect, clEnqueueCopyBufferRect, clCreateSubBuffer, transferGuards,
      rectTransferGuards, queueGuard, bufferGuard, memGuard, contextGuard, waitlistGuard,
      regionGuard, rowPitchGuard, slicePitchGuard, Guard.Sound, Guard.fails, Guard.err]

/-- The range guards of a request are about its accesses. -/
theorem bounds_mem_guards (total : UInt64) (buffer : Mem) :
    Guard.bounds total buffer ∈ c.guards ↔
      ∃ a ∈ c.accesses, total = a.total ∧ buffer = a.buffer := by
  cases c <;>
    simp [guards, accesses, clEnqueueReadBuffer, clEnqueueWriteBuffer, clEnqueueMapBuffer,
      clEnqueueCopyBuffer, clEnqueueFillBuffer, clEnqueueReadBufferRect,
      clEnqueueWriteBufferRect, clEnqueueCopyBufferRect, clCreateSubBuffer, transferGuards,
      rectTransferGuards, queueGuard, bufferGuard, memGuard, contextGuard, waitlistGuard,
      regionGuard, rowPitchGuard, slicePitchGuard, Access.total, Access.buffer]

theorem accepted_iff :
    c.Accepted ↔ c.ArgsOk ∧ ∀ a ∈ c.accesses, a.total ≤ a.buffer.size := by
  show firstError c.guards = CL_SUCCESS ↔ _
  rw [firstError_eq_success c.guards_sound, fails_eq_false_iff]
  refine and_congr_right fun _ => ?_
  constructor
  · intro h a ha
    exact h _ _ ((c.bounds_mem_guards _ _).mpr ⟨a, ha, rfl, rfl⟩)
  · intro h total buffer hg
    obtain ⟨a, ha, rfl, rfl⟩ := (c.bounds_mem_guards _ _).mp hg
    exact h a ha

end Request

/-! ### Ends of accesses -/

namespace Access

/-- A rectangle has at least one byte. -/
def Solid : Access → Prop
  | range .. => True
  | rect _ _ region _ _ => 0 < region.x.toNat ∧ 0 < region.y.toNat ∧ 0 < region.z.toNat

/-- `origin + region - 1` in `size_t` -/
theorem toNat_add_sub_one (origin region : UInt64) (h : 0 < region.toNat) :
    (origin + region - 1).toNat = (origin.toNat + (region.toNat - 1)) % 2 ^ 64 := by
  rw [UInt64.toNat_sub, UInt64.toNat_add]
  have : (1 : UInt64).toNat = 1 := rfl
  omega

/-- The guards compute the end of an access modulo `2 ^ 64`. -/
theorem total_toNat {a : Access} (h : a.Solid) : a.total.toNat = a.finish % 2 ^ 64 := by
  cases a with
  | range buffer offset size => exact UInt64.toNat_add offset size
  | rect buffer origin region row slice =>
    obtain ⟨-, hy, hz⟩ := h
    show (totalSize origin region row slice).toNat = _
    simp only [totalSize, UInt64.toNat_add, UInt64.toNat_mul, toNat_add_sub_one _ _ hy,
      toNat_add_sub_one _ _ hz, finish, ← Nat.add_assoc]
    simp only [Nat.mod_mul_mod, Nat.mod_add_mod, Nat.add_mod_mod]

/-- The last byte of a rectangle. -/
theorem addresses_last {buffer : Mem} {origin region : Vec3} {row slice : UInt64}
    (h : (rect buffer origin region row slice).Solid) :
    (rect buffer origin region row slice).Addresses
      ((rect buffer origin region row slice).finish - 1) := by
  obtain ⟨hx, hy, hz⟩ := h
  refine ⟨region.x.toNat - 1, by omega, region.y.toNat - 1, by omega, region.z.toNat - 1,
    by omega, ?_⟩
  show _ + (origin.x.toNat + region.x.toNat) - 1 = _
  omega

theorem lt_finish {a : Access} {i : ℕ} (h : a.Addresses i) : i < a.finish := by
  cases a with
  | range buffer offset size =>
    obtain ⟨k, hk, rfl⟩ := h
    show _ < offset.toNat + size.toNat
    omega
  | rect buffer origin region row slice =>
    obtain ⟨x, hx, y, hy, z, hz, rfl⟩ := h
    have hrow : (origin.y.toNat + y) * row.toNat ≤
        (origin.y.toNat + (region.y.toNat - 1)) * row.toNat :=
      Nat.mul_le_mul_right _ (by omega)
    have hslice : (origin.z.toNat + z) * slice.toNat ≤
        (origin.z.toNat + (region.z.toNat - 1)) * slice.toNat :=
      Nat.mul_le_mul_right _ (by omega)
    show _ < _ + (origin.x.toNat + region.x.toNat)
    omega

/-- An access whose end passes the guard is in bounds iff its end does not wrap. -/
theorem inBounds_iff {a : Access} (hs : a.Solid) (hle : a.total ≤ a.buffer.size) :
    a.InBounds ↔ a.finish < 2 ^ 64 := by
  have hsize : a.buffer.size.toNat < 2 ^ 64 := a.buffer.size.toNat_lt
  have hmod : a.finish % 2 ^ 64 ≤ a.buffer.size.toNat := total_toNat hs ▸ hle
  constructor
  · intro hin
    cases a with
    | range buffer offset size =>
      have hoff : offset.toNat < 2 ^ 64 := offset.toNat_lt
      by_cases hempty : size.toNat = 0
      · show offset.toNat + size.toNat < _
        omega
      · have hlast := hin (offset.toNat + (size.toNat - 1)) ⟨size.toNat - 1, by omega, rfl⟩
        show offset.toNat + size.toNat < _
        omega
    | rect buffer origin region row slice =>
      have hlast := hin _ (addresses_last hs)
      omega
  · intro hwrap i hi
    have := lt_finish hi
    omega

end Access

/-- Rectangles with an empty side are refused. -/
theorem Request.solid_of_argsOk {c : Request} (h : c.ArgsOk) : ∀ a ∈ c.accesses, a.Solid := by
  have hregion : ∀ {given region}, regionGuard given region ∈ c.guards →
      0 < region.x.toNat ∧ 0 < region.y.toNat ∧ 0 < region.z.toNat := by
    intro given region hg
    have hok := List.all_eq_true.mp h _ hg
    simp [regionGuard, Guard.argOk, ← UInt64.toNat_inj] at hok
    omega
  intro a ha
  cases c with
  | readBufferRect q b r p g w | writeBufferRect q b r p g w =>
    have hr := @hregion (p && g) r.region (by
      simp [guards, clEnqueueReadBufferRect, clEnqueueWriteBufferRect, rectTransferGuards])
    obtain rfl : a = .rect b r.origin₁ r.region r.row₁ r.slice₁ := by simpa [accesses] using ha
    exact hr
  | copyBufferRect q src dst r g w =>
    have hr := @hregion g r.region (by
      simp [guards, clEnqueueCopyBufferRect])
    obtain rfl | rfl : a = .rect src r.origin₁ r.region r.row₁ r.slice₁ ∨
        a = .rect dst r.origin₂ r.region r.row₂ r.slice₂ := by simpa [accesses] using ha
    · exact hr
    · exact hr
  | readBuffer | writeBuffer | mapBuffer | fillBuffer | createSubBuffer =>
    obtain rfl := List.mem_singleton.mp ha
    trivial
  | copyBuffer q src dst so d cb w =>
    obtain rfl | rfl : a = .range src so cb ∨ a = .range dst d cb := by simpa [accesses] using ha
    · trivial
    · trivial

/-- **A request stays inside its buffers, if accepted, iff it is refused or does not wrap**:
unless an argument is refused or the end of an access modulo `2 ^ 64` lies behind its buffer,
no end of an access may reach `2 ^ 64`. -/
theorem accepted_in_bounds_iff (c : Request) :
    (c.Accepted → ∀ a ∈ c.accesses, a.InBounds) ↔
      (c.ArgsOk → (∀ a ∈ c.accesses, a.finish % 2 ^ 64 ≤ a.buffer.size.toNat) →
        ∀ a ∈ c.accesses, a.finish < 2 ^ 64) := by
  have hacc : c.Accepted ↔
      c.ArgsOk ∧ ∀ a ∈ c.accesses, a.finish % 2 ^ 64 ≤ a.buffer.size.toNat := by
    rw [c.accepted_iff]
    refine and_congr_right fun hargs => forall₂_congr fun a ha => ?_
    rw [UInt64.le_iff_toNat_le, Access.total_toNat (Request.solid_of_argsOk hargs a ha)]
  rw [← and_imp, ← hacc]
  refine forall_congr' fun h => forall₂_congr fun a ha => ?_
  obtain ⟨hargs, hle⟩ := c.accepted_iff.mp h
  exact Access.inBounds_iff (Request.solid_of_argsOk hargs a ha) (hle a ha)

/-- A read of 32 bytes that starts 16 bytes before `2 ^ 64`, from a buffer of 64 bytes. -/
def wrappedRead : Request :=
  .readBuffer ⟨true, 0⟩ ⟨0, true, .buffer, 0, 1, 64, 0, 1024⟩ (0 - 16) 32 true CL_SUCCESS

/-- The check sees the end 16 and accepts. -/
theorem wrappedRead_out_of_bounds :
    ¬ (wrappedRead.Accepted → ∀ a ∈ wrappedRead.accesses, a.InBounds) := by
  intro h
  have hin := h (by decide) _ List.mem_cons_self (2 ^ 64 - 16) ⟨0, by decide, by decide⟩
  exact absurd hin (by decide)

end Buffer

end Runtime
