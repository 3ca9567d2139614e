/-
Buffer copies on the device: `cl_mem_copy` (`cl_mem.c`) and the five kernels
`cl_internal_copy_buf_*.cl`.

Both buffers are in one memory of bytes, so they may also be the same one.  The host chooses a
kernel, its arguments and the number of work-items; the kernels compute their indices in 32 bits.
A `float` that is only moved is a word.  The failure to create a kernel is left out.

* `cl_mem_copy` — the launch.
* `Launch.run` — its work-items in some order.
* `memcpy` — what a copy is for.
-/
import Beignet.Lib.Bytes

open Bytes

namespace Runtime

namespace CopyBuffer

/-! ### Kernels -/

/-- The arguments that all kernels have. -/
structure Args where
  src_offset : BitVec 32
  dst_offset : BitVec 32
  size : BitVec 32

/-- The kernels for buffers. -/
inductive Kernel where
  | align16
  | align4
  | unalign_same_offset (first_mask last_mask : BitVec 32)
  | unalign_dst_offset (first_mask last_mask : BitVec 32) (shift : ℕ) (dw_mask : BitVec 32)
  | unalign_src_offset (first_mask last_mask : BitVec 32) (shift : ℕ) (dw_mask : BitVec 32)
      (src_less : Bool)

section Items

variable (src dst : ℕ) (args : Args)

/-- `src[i + src_offset]` -/
def srcAt (m : Mem) (i : BitVec 32) : BitVec 32 := load m (src + 4 * (i + args.src_offset).toNat)

/-- `dst[i + dst_offset]` -/
def dstAt (m : Mem) (i : BitVec 32) : BitVec 32 := load m (dst + 4 * (i + args.dst_offset).toNat)

/-- `dst[i + dst_offset] = w` -/
def setDst (m : Mem) (i w : BitVec 32) : Mem := store m (dst + 4 * (i + args.dst_offset).toNat) w

def cl_copy_region_align16 (gid : BitVec 32) (m : Mem) : Mem :=
  let i := gid * 4
  if i < args.size * 4 then
    let m := setDst dst args m i (srcAt src args m i)
    let m := setDst dst args m (i + 1) (srcAt src args m (i + 1))
    let m := setDst dst args m (i + 2) (srcAt src args m (i + 2))
    setDst dst args m (i + 3) (srcAt src args m (i + 3))
  else m

def cl_copy_region_align4 (i : BitVec 32) (m : Mem) : Mem :=
  if i < args.size then setDst dst args m i (srcAt src args m i) else m

/-- The end of the three kernels for unaligned ranges: the first and the last word keep what is
under their masks. -/
def merge (first_mask last_mask : BitVec 32) (i tmp : BitVec 32) (m : Mem) : Mem :=
  if i = 0 then
    setDst dst args m 0 ((dstAt dst args m 0 &&& first_mask) ||| (tmp &&& ~~~first_mask))
  else if i = args.size - 1 then
    setDst dst args m i ((tmp &&& last_mask) ||| (dstAt dst args m i &&& ~~~last_mask))
  else setDst dst args m i tmp

def cl_copy_region_unalign_same_offset (first_mask last_mask : BitVec 32) (i : BitVec 32)
    (m : Mem) : Mem :=
  if i > args.size - 1 then m
  else merge dst args first_mask last_mask i (srcAt src args m i) m

def cl_copy_region_unalign_dst_offset (first_mask last_mask : BitVec 32) (shift : ℕ)
    (dw_mask : BitVec 32) (i : BitVec 32) (m : Mem) : Mem :=
  if i > args.size - 1 then m
  else
    let tmp :=
      if i = args.size - 1 ∧ last_mask &&& ~~~(~~~dw_mask >>> shift) = 0 then
        (srcAt src args m i &&& ~~~dw_mask) >>> shift
      else
        ((srcAt src args m i &&& ~~~dw_mask) >>> shift) |||
          ((srcAt src args m (i + 1) &&& dw_mask) <<< (32 - shift))
    merge dst args first_mask last_mask i tmp m

def cl_copy_region_unalign_src_offset (first_mask last_mask : BitVec 32) (shift : ℕ)
    (dw_mask : BitVec 32) (src_less : Bool) (i : BitVec 32) (m : Mem) : Mem :=
  if i > args.size - 1 then m
  else
    let tmp :=
      if i = 0 then (srcAt src args m i &&& dw_mask) <<< shift
      else if src_less ∧ i = args.size - 1 then
        (srcAt src args m (i - 1) &&& ~~~dw_mask) >>> (32 - shift)
      else
        ((srcAt src args m (i - 1) &&& ~~~dw_mask) >>> (32 - shift)) |||
          ((srcAt src args m i &&& dw_mask) <<< shift)
    merge dst args first_mask last_mask i tmp m

/-- One work-item. -/
def Kernel.item (kernel : Kernel) (gid : BitVec 32) (m : Mem) : Mem :=
  match kernel with
  | .align16 => cl_copy_region_align16 src dst args gid m
  | .align4 => cl_copy_region_align4 src dst args gid m
  | .unalign_same_offset first_mask last_mask =>
    cl_copy_region_unalign_same_offset src dst args first_mask last_mask gid m
  | .unalign_dst_offset first_mask last_mask shift dw_mask =>
    cl_copy_region_unalign_dst_offset src dst args first_mask last_mask shift dw_mask gid m
  | .unalign_src_offset first_mask last_mask shift dw_mask src_less =>
    cl_copy_region_unalign_src_offset src dst args first_mask last_mask shift dw_mask src_less gid m

end Items

/-! ### The host -/

def LOCAL_SZ_0 : ℕ := 16

/-- One launch. -/
structure Launch where
  kernel : Kernel
  args : Args
  global_sz : ℕ

def masks : ℕ → BitVec 32
  | 0 => 0xffffffff
  | 1 => 0x0ff
  | 2 => 0x0ffff
  | _ => 0x0ffffff

/-- The number of work-items, rounded up to full groups. -/
def globalSize (n : ℕ) : ℕ := (n + LOCAL_SZ_0 - 1) / LOCAL_SZ_0 * LOCAL_SZ_0

/-- `none` is for a copy of nothing and for the assertion at the end. -/
def cl_mem_copy (src_offset dst_offset cb : ℕ) : Option Launch :=
  let args (size : ℕ) : Args :=
    ⟨BitVec.ofNat 32 (src_offset / 4), BitVec.ofNat 32 (dst_offset / 4), BitVec.ofNat 32 size⟩
  if cb = 0 then none
  else if cb % 16 = 0 ∧ src_offset % 16 = 0 ∧ dst_offset % 16 = 0 then
    some ⟨.align16, args (cb / 16), globalSize (cb / 16)⟩
  else if cb % 4 = 0 ∧ src_offset % 4 = 0 ∧ dst_offset % 4 = 0 then
    some ⟨.align4, args (cb / 4), globalSize (cb / 4)⟩
  else
    let dw_num := ((dst_offset % 4 + cb) + 3) / 4
    let first_mask := if dst_offset % 4 = 0 then 0 else masks (dst_offset % 4)
    let last_mask := masks ((dst_offset + cb) % 4)
    -- a very small range
    let first_mask := if cb < 4 ∧ dw_num = 1 then first_mask ||| ~~~last_mask else first_mask
    if src_offset % 4 = dst_offset % 4 then
      some ⟨.unalign_same_offset first_mask last_mask, args dw_num, globalSize dw_num⟩
    else if dst_offset % 4 < src_offset % 4 then
      let align_diff := src_offset % 4 - dst_offset % 4
      some ⟨.unalign_dst_offset first_mask last_mask (align_diff * 8) (masks align_diff),
        args dw_num, globalSize dw_num⟩
    else if dst_offset % 4 > src_offset % 4 then
      let align_diff := dst_offset % 4 - src_offset % 4
      let src_less := src_offset % 4 = 0 ∧ (src_offset + cb) % 4 = 0
      some ⟨.unalign_src_offset first_mask last_mask (align_diff * 8) (masks (4 - align_diff))
        (decide src_less), args dw_num, globalSize dw_num⟩
    else none

/-- The work-items of a launch, in the order given. -/
def Launch.run (launch : Launch) (src dst : ℕ) (order : List ℕ) (m : Mem) : Mem :=
  order.foldl (fun m gid => launch.kernel.item src dst launch.args (BitVec.ofNat 32 gid) m) m

/-! ### What it is for -/

/-- `n` bytes at `src` are copied to `dst`. -/
def memcpy (src dst n : ℕ) (m : Mem) : Mem :=
  fun x => if dst ≤ x ∧ x < dst + n then m (x - dst + src) else m x

end CopyBuffer

end Runtime
