/-
The local IDs of a launch: `cl_get_kernel_max_wg_sz` in `cl_device_id.c`, `cl_kernel_work_group_sz`
in `cl_kernel.c`, and `cl_set_varying_payload` in `cl_command_queue_gen7.c`.

The threads of a work-group get `simd_sz` lanes each, the lanes of all threads one local ID after
the other.

* `fill_eq` — the arrays behind the triple loop;
* `element_writeAll` — what the loop over the threads leaves in the curbe;
* **`distributed_iff`** — when the work-group is distributed as it should be.
-/
import Beignet.Lib.Buffer
import Beignet.Lib.Lists
import Beignet.Lib.Memory

namespace Runtime

namespace LocalIds

open Memory

/-- For the literals of `Fin 3`. -/
local instance neZero_three : NeZero 3 := ⟨by decide⟩

/-! ### The kernel and its device -/

structure Device where
  max_compute_unit : BitVec 32
  max_thread_per_unit : BitVec 32
  sub_slice_count : BitVec 32
  max_work_group_size : BitVec 64
  /-- `IS_BAYTRAIL_T(device_id)` -/
  baytrail : Bool

/-- What the payload is looked up for in the curbe. -/
inductive CurbeValue where
  | LOCAL_ID_X
  | LOCAL_ID_Y
  | LOCAL_ID_Z
  | BLOCK_IP
  | DW_BLOCK_IP
  | THREAD_ID
  deriving DecidableEq

open CurbeValue

/-- What the payload depends on. -/
structure Kernel where
  required_work_group_size : Fin 3 → BitVec 32
  /-- a negative offset stands for a value that the kernel does not use -/
  curbe_offset : CurbeValue → ℤ
  simd_width : ℕ
  use_slm : Bool
  device : Device

def cl_get_kernel_max_wg_sz (ker : Kernel) : BitVec 64 :=
  let device := ker.device
  let simd_width := BitVec.ofNat 32 ker.simd_width
  let work_group_size : BitVec 64 :=
    if ¬ ker.use_slm then
      if ¬ device.baytrail ∨ ker.simd_width = 16 then (simd_width * 64).setWidth 64
      else (device.max_compute_unit * device.max_thread_per_unit * simd_width).setWidth 64
    else
      let thread_cnt :=
        (device.max_compute_unit * device.max_thread_per_unit / device.sub_slice_count).setWidth 64
      let thread_cnt : BitVec 64 := if 64 < thread_cnt then 64 else thread_cnt
      thread_cnt * simd_width.setWidth 64
  if device.max_work_group_size < work_group_size then device.max_work_group_size
  else work_group_size

/-- The size of the work-group, on `CL_SUCCESS`. -/
def cl_kernel_work_group_sz (ker : Kernel) (local_wk_sz : Fin 3 → BitVec 64) (wk_dim : ℕ) :
    Option (BitVec 64) :=
  let dims := (List.finRange 3).take wk_dim
  if ∃ i ∈ dims, ker.required_work_group_size i ≠ 0 ∧
      (ker.required_work_group_size i).setWidth 64 ≠ local_wk_sz i then none
  else
    let sz := (dims.drop 1).foldl (fun sz i => sz * local_wk_sz i) (local_wk_sz 0)
    if cl_get_kernel_max_wg_sz ker < sz then none else some sz

/-! ### The arrays -/

/-- An array of `size` elements. -/
structure Arr (V : Type) where
  size : ℕ
  get : ℕ → V

/-- An element is set; there is no result if it is outside. -/
def Arr.put {V : Type} (a : Arr V) (i : ℕ) (v : V) : Option (Arr V) :=
  if i < a.size then some { a with get := Function.update a.get i v } else none

structure Arrays where
  ids0 : Arr (BitVec 32)
  ids1 : Arr (BitVec 32)
  ids2 : Arr (BitVec 32)
  block_ips : Arr (BitVec 16)
  thread_ids : Arr (BitVec 32)
  curr : ℕ

/-- An array that is only there if the kernel uses the value. -/
def putIf {V : Type} (offset : ℤ) (a : Arr V) (i : ℕ) (v : V) : Option (Arr V) :=
  if 0 ≤ offset then a.put i v else some a

/-- The arrays before the loops; `stack` is what `alloca` finds. -/
def init (stack : CurbeValue → ℕ → BitVec 32) (simd_sz thread_n : ℕ) : Arrays where
  ids0 := ⟨thread_n * simd_sz, stack LOCAL_ID_X⟩
  ids1 := ⟨thread_n * simd_sz, stack LOCAL_ID_Y⟩
  ids2 := ⟨thread_n * simd_sz, stack LOCAL_ID_Z⟩
  block_ips := ⟨thread_n * simd_sz, fun _ => 0xffff⟩
  thread_ids := ⟨thread_n, fun _ => 0⟩
  curr := 0

/-- The body of the three loops. -/
def fillStep (ker : Kernel) (simd_sz : ℕ) (s : Arrays) (id : ℕ × ℕ × ℕ) : Option Arrays := do
  let ids0 ← putIf (ker.curbe_offset LOCAL_ID_X) s.ids0 s.curr (BitVec.ofNat 32 id.1)
  let ids1 ← putIf (ker.curbe_offset LOCAL_ID_Y) s.ids1 s.curr (BitVec.ofNat 32 id.2.1)
  let ids2 ← putIf (ker.curbe_offset LOCAL_ID_Z) s.ids2 s.curr (BitVec.ofNat 32 id.2.2)
  let block_ips ← s.block_ips.put s.curr 0
  let thread_ids ← putIf (ker.curbe_offset THREAD_ID) s.thread_ids (s.curr / simd_sz)
    (BitVec.ofNat 32 (s.curr / simd_sz))
  some ⟨ids0, ids1, ids2, block_ips, thread_ids, s.curr + 1⟩

def fill (ker : Kernel) (local_wk_sz : Fin 3 → BitVec 64) (simd_sz : ℕ) (s : Arrays) :
    Option Arrays :=
  (List.range (local_wk_sz 2).toNat).foldlM (fun s k =>
    (List.range (local_wk_sz 1).toNat).foldlM (fun s j =>
      (List.range (local_wk_sz 0).toNat).foldlM (fun s i =>
        fillStep ker simd_sz s (i, j, k)) s) s) s

/-! ### The curbe -/

/-- The number of bytes of an element. -/
def width : CurbeValue → ℕ
  | BLOCK_IP => 2
  | _ => 4

/-- The other block IP is looked up when the kernel has none of 16 bits. -/
def offset (ker : Kernel) : CurbeValue → ℤ
  | DW_BLOCK_IP => if ker.curbe_offset BLOCK_IP < 0 then ker.curbe_offset DW_BLOCK_IP else -1
  | v => ker.curbe_offset v

/-- The address of element `j` in the copy of thread `i`. -/
def address (ker : Kernel) (cst_sz : ℕ) (v : CurbeValue) (i j : ℕ) : ℤ :=
  i * cst_sz + offset ker v + width v * j

/-- An element is stored, if the kernel uses the value. -/
def store (ker : Kernel) (cst_sz : ℕ) (v : CurbeValue) (i j x : ℕ) : List (Cells (BitVec 8)) :=
  if 0 ≤ offset ker v then
    [⟨address ker cst_sz v i j, width v, fun k => BitVec.ofNat 8 (x / 256 ^ k)⟩]
  else []

/-- The stores of the loop over the threads; there `curr` is `i * simd_sz + j`. -/
def stores (ker : Kernel) (simd_sz cst_sz thread_n : ℕ) (s : Arrays) : List (Cells (BitVec 8)) :=
  (List.range thread_n).flatMap fun i =>
    store ker cst_sz THREAD_ID i 0 (s.thread_ids.get i).toNat ++
      (List.range simd_sz).flatMap fun j =>
        store ker cst_sz LOCAL_ID_X i j (s.ids0.get (i * simd_sz + j)).toNat ++
        store ker cst_sz LOCAL_ID_Y i j (s.ids1.get (i * simd_sz + j)).toNat ++
        store ker cst_sz LOCAL_ID_Z i j (s.ids2.get (i * simd_sz + j)).toNat ++
        store ker cst_sz BLOCK_IP i j (s.block_ips.get (i * simd_sz + j)).toNat ++
        store ker cst_sz DW_BLOCK_IP i j (s.block_ips.get (i * simd_sz + j)).toNat

/-- All stores, one after the other; there is no result if one is outside. -/
def storeAll (size : ℕ) (data : ℤ → BitVec 8) (cells : List (Cells (BitVec 8))) :
    Option (ℤ → BitVec 8) :=
  cells.foldlM (fun m c =>
    if 0 ≤ c.lo ∧ c.lo + (c.size : ℤ) ≤ (size : ℤ) then some (write m c) else none) data

/-- `data` are the `thread_n` copies of the curbe. -/
def cl_set_varying_payload (ker : Kernel) (data : ℤ → BitVec 8) (local_wk_sz : Fin 3 → BitVec 64)
    (simd_sz cst_sz thread_n : ℕ) (stack : CurbeValue → ℕ → BitVec 32) : Option (ℤ → BitVec 8) := do
  let s ← fill ker local_wk_sz simd_sz (init stack simd_sz thread_n)
  storeAll (thread_n * cst_sz) data (stores ker simd_sz cst_sz thread_n s)

/-- The number of threads in `cl_command_queue_ND_range_gen7`. -/
def thread_n (ker : Kernel) (local_sz : BitVec 64) : ℕ :=
  ((local_sz + BitVec.ofNat 64 ker.simd_width - 1) / BitVec.ofNat 64 ker.simd_width).toNat

/-! ### What is asked for -/

/-- The number of elements of a thread. -/
def lanes (ker : Kernel) : CurbeValue → ℕ
  | THREAD_ID => 1
  | _ => ker.simd_width

/-- The curbe of a compiled kernel: the values have places of their own, and there is one block IP,
as the code asserts. -/
structure Laid (ker : Kernel) (cst_sz : ℕ) : Prop where
  inside : ∀ v, 0 ≤ offset ker v → offset ker v + width v * lanes ker v ≤ cst_sz
  disjoint : ∀ v w, v ≠ w → 0 ≤ offset ker v → 0 ≤ offset ker w →
    offset ker v + width v * lanes ker v ≤ offset ker w ∨
      offset ker w + width w * lanes ker w ≤ offset ker v
  block_ip : 0 ≤ offset ker BLOCK_IP ∨ 0 ≤ offset ker DW_BLOCK_IP

def product (local_wk_sz : Fin 3 → BitVec 64) : ℕ :=
  (local_wk_sz 0).toNat * (local_wk_sz 1).toNat * (local_wk_sz 2).toNat

/-- The element `j` of thread `i`, as a number. -/
def element (ker : Kernel) (cst_sz : ℕ) (data : ℤ → BitVec 8) (v : CurbeValue) (i j : ℕ) : ℕ :=
  Buffer.number (read data (address ker cst_sz v i j) (width v))

/-- What thread `t` should find in lane `l`. -/
structure Lane (ker : Kernel) (cst_sz : ℕ) (local_wk_sz : Fin 3 → BitVec 64)
    (data : ℤ → BitVec 8) (t l : ℕ) : Prop where
  x : t * ker.simd_width + l < product local_wk_sz → 0 ≤ offset ker LOCAL_ID_X →
    element ker cst_sz data LOCAL_ID_X t l = (t * ker.simd_width + l) % (local_wk_sz 0).toNat
  y : t * ker.simd_width + l < product local_wk_sz → 0 ≤ offset ker LOCAL_ID_Y →
    element ker cst_sz data LOCAL_ID_Y t l =
      (t * ker.simd_width + l) / (local_wk_sz 0).toNat % (local_wk_sz 1).toNat
  z : t * ker.simd_width + l < product local_wk_sz → 0 ≤ offset ker LOCAL_ID_Z →
    element ker cst_sz data LOCAL_ID_Z t l =
      (t * ker.simd_width + l) / ((local_wk_sz 0).toNat * (local_wk_sz 1).toNat)
  block_ip : ∀ v, v = BLOCK_IP ∨ v = DW_BLOCK_IP → 0 ≤ offset ker v →
    element ker cst_sz data v t l =
      if t * ker.simd_width + l < product local_wk_sz then 0 else 0xffff

/-- The work-group is not too large, nothing is written outside, and each thread has its lanes. -/
structure Distributed (ker : Kernel) (data : ℤ → BitVec 8) (local_wk_sz : Fin 3 → BitVec 64)
    (cst_sz : ℕ) (stack : CurbeValue → ℕ → BitVec 32) (local_sz : BitVec 64) : Prop where
  exact : product local_wk_sz ≤ (cl_get_kernel_max_wg_sz ker).toNat
  thread_n : thread_n ker local_sz =
    (product local_wk_sz + ker.simd_width - 1) / ker.simd_width
  payload : ∃ data', cl_set_varying_payload ker data local_wk_sz ker.simd_width cst_sz
      (LocalIds.thread_n ker local_sz) stack = some data' ∧
    ∀ t < LocalIds.thread_n ker local_sz,
      (0 ≤ offset ker THREAD_ID → element ker cst_sz data' THREAD_ID t 0 = t) ∧
      ∀ l < ker.simd_width, Lane ker cst_sz local_wk_sz data' t l

/-! ### The arrays -/

theorem putIf_below {V : Type} {offset : ℤ} {n c : ℕ} (f g : ℕ → V) (h : c < n) :
    putIf offset ⟨n, fun a => if 0 ≤ offset ∧ a < c then f a else g a⟩ c (f c) =
      some ⟨n, fun a => if 0 ≤ offset ∧ a < c + 1 then f a else g a⟩ := by
  rw [putIf]
  split
  · next hoffset =>
    rw [Arr.put, if_pos h]
    congr 2
    funext a
    by_cases ha : a = c
    · rw [ha, Function.update_self, if_pos ⟨hoffset, Nat.lt_succ_self c⟩]
    · have hiff : 0 ≤ offset ∧ a < c ↔ 0 ≤ offset ∧ a < c + 1 := by omega
      rw [Function.update_of_ne ha]
      exact if_congr hiff rfl rfl
  · next hoffset =>
    congr 2
    funext a
    rw [if_neg fun h => hoffset h.1, if_neg fun h => hoffset h.1]

/-- An element for each thread is set once more for each of its lanes. -/
theorem putIf_threads {offset : ℤ} {n simd c : ℕ} (hsimd : 0 < simd) (h : c < n * simd) :
    putIf offset ⟨n, fun t => if 0 ≤ offset ∧ t * simd < c then BitVec.ofNat 32 t else 0⟩ (c / simd)
        (BitVec.ofNat 32 (c / simd)) =
      some ⟨n, fun t => if 0 ≤ offset ∧ t * simd < c + 1 then BitVec.ofNat 32 t else 0⟩ := by
  have hle : c / simd * simd ≤ c := Nat.div_mul_le_self c simd
  rw [putIf]
  split
  · next hoffset =>
    rw [Arr.put, if_pos ((Nat.div_lt_iff_lt_mul hsimd).mpr h)]
    congr 2
    funext t
    by_cases ht : t = c / simd
    · rw [ht, Function.update_self, if_pos ⟨hoffset, by omega⟩]
    · have hiff : t * simd < c ↔ t * simd < c + 1 := by
        refine ⟨fun h => by omega, fun h => lt_of_le_of_ne (by omega) fun heq => ht ?_⟩
        rw [← heq, Nat.mul_div_cancel t hsimd]
      rw [Function.update_of_ne ht]
      exact if_congr (and_congr_right fun _ => hiff) rfl rfl
  · next hoffset =>
    congr 2
    funext t
    rw [if_neg fun h => hoffset h.1, if_neg fun h => hoffset h.1]

section Fill

variable (ker : Kernel) (stack : CurbeValue → ℕ → BitVec 32) (lx ly simd thread_n : ℕ)

/-- The local ID of the work-item `c`. -/
def localId (c : ℕ) : ℕ × ℕ × ℕ := (c % lx, c / lx % ly, c / (lx * ly))

/-- The arrays when the first `c` work-items are in them. -/
def filled (c : ℕ) : Arrays where
  ids0 := ⟨thread_n * simd, fun a => if 0 ≤ ker.curbe_offset LOCAL_ID_X ∧ a < c then
    BitVec.ofNat 32 (localId lx ly a).1 else stack LOCAL_ID_X a⟩
  ids1 := ⟨thread_n * simd, fun a => if 0 ≤ ker.curbe_offset LOCAL_ID_Y ∧ a < c then
    BitVec.ofNat 32 (localId lx ly a).2.1 else stack LOCAL_ID_Y a⟩
  ids2 := ⟨thread_n * simd, fun a => if 0 ≤ ker.curbe_offset LOCAL_ID_Z ∧ a < c then
    BitVec.ofNat 32 (localId lx ly a).2.2 else stack LOCAL_ID_Z a⟩
  block_ips := ⟨thread_n * simd, fun a => if 0 ≤ (0 : ℤ) ∧ a < c then 0 else 0xffff⟩
  thread_ids := ⟨thread_n, fun t => if 0 ≤ ker.curbe_offset THREAD_ID ∧ t * simd < c then
    BitVec.ofNat 32 t else 0⟩
  curr := c

variable {ker stack lx ly simd thread_n}

theorem filled_zero : filled ker stack lx ly simd thread_n 0 = init stack simd thread_n := by
  simp [filled, init]

theorem fillStep_filled {c : ℕ} (hsimd : 0 < simd) (h : c < thread_n * simd) :
    fillStep ker simd (filled ker stack lx ly simd thread_n c) (localId lx ly c) =
      some (filled ker stack lx ly simd thread_n (c + 1)) := by
  have hips : putIf 0 _ c (0 : BitVec 16) = _ := putIf_below (fun _ => 0) (fun _ => 0xffff) h
  rw [putIf, if_pos le_rfl] at hips
  simp only [fillStep, filled, Option.bind_eq_bind]
  rw [putIf_below (fun a => BitVec.ofNat 32 (localId lx ly a).1) (stack LOCAL_ID_X) h,
    Option.bind_some,
    putIf_below (fun a => BitVec.ofNat 32 (localId lx ly a).2.1) (stack LOCAL_ID_Y) h,
    Option.bind_some,
    putIf_below (fun a => BitVec.ofNat 32 (localId lx ly a).2.2) (stack LOCAL_ID_Z) h,
    Option.bind_some, hips, Option.bind_some, putIf_threads hsimd h, Option.bind_some]

theorem foldlM_filled {c : ℕ} (hsimd : 0 < simd) (h : c ≤ thread_n * simd) :
    ((List.range c).map (localId lx ly)).foldlM (fillStep ker simd) (init stack simd thread_n) =
      some (filled ker stack lx ly simd thread_n c) := by
  induction c with
  | zero => exact congrArg some filled_zero.symm
  | succ c ih =>
    rw [List.range_succ, List.map_append, List.foldlM_append, ih (by omega), Option.bind_eq_bind,
      Option.bind_some, List.map_singleton, List.foldlM_cons, fillStep_filled hsimd h]
    rfl

end Fill

/-- The three loops are one loop over the work-items. -/
theorem fill_loop (ker : Kernel) (local_wk_sz : Fin 3 → BitVec 64) (simd_sz : ℕ) (s : Arrays) :
    fill ker local_wk_sz simd_sz s =
      ((List.range (product local_wk_sz)).map
        (localId (local_wk_sz 0).toNat (local_wk_sz 1).toNat)).foldlM (fillStep ker simd_sz) s := by
  rw [fill, product]
  generalize (local_wk_sz 0).toNat = lx
  generalize (local_wk_sz 1).toNat = ly
  generalize (local_wk_sz 2).toNat = lz
  have hlist : (List.range lz).flatMap (fun k => (List.range ly).flatMap fun j =>
      (List.range lx).map fun i => (i, j, k)) =
      (List.range (lx * ly * lz)).map (localId lx ly) := by
    simp only [Lists.flatMap_range (fun i j => (i, j, _)) ly lx]
    rw [Lists.flatMap_range (fun c k => (c % lx, c / lx, k)) lz (lx * ly)]
    refine List.map_congr_left fun c _ => ?_
    rw [localId, Nat.mod_mul_right_mod, Nat.mod_mul_right_div_self]
  rw [← hlist, Lists.foldlM_flatMap]
  simp only [Lists.foldlM_flatMap, List.foldlM_map]

theorem fill_eq {ker : Kernel} {local_wk_sz : Fin 3 → BitVec 64} {simd thread_n : ℕ}
    (stack : CurbeValue → ℕ → BitVec 32) (hsimd : 0 < simd)
    (h : product local_wk_sz ≤ thread_n * simd) :
    fill ker local_wk_sz simd (init stack simd thread_n) =
      some (filled ker stack (local_wk_sz 0).toNat (local_wk_sz 1).toNat simd thread_n
        (product local_wk_sz)) := by
  rw [fill_loop, foldlM_filled hsimd h]

/-! ### The curbe -/

theorem storeAll_eq {size : ℕ} {cells : List (Cells (BitVec 8))} (data : ℤ → BitVec 8)
    (h : ∀ c ∈ cells, 0 ≤ c.lo ∧ c.lo + (c.size : ℤ) ≤ (size : ℤ)) :
    storeAll size data cells = some (writeAll data cells) := by
  induction cells generalizing data with
  | nil => rfl
  | cons c cells ih =>
    have hrest := ih (write data c) fun d hd => h d (List.mem_cons_of_mem _ hd)
    rw [storeAll, List.foldlM_cons, if_pos (h c List.mem_cons_self)]
    exact hrest

/-- What is stored for the element `j` of thread `i`. -/
def value (ker : Kernel) (s : Arrays) (i j : ℕ) : CurbeValue → ℕ
  | LOCAL_ID_X => (s.ids0.get (i * ker.simd_width + j)).toNat
  | LOCAL_ID_Y => (s.ids1.get (i * ker.simd_width + j)).toNat
  | LOCAL_ID_Z => (s.ids2.get (i * ker.simd_width + j)).toNat
  | BLOCK_IP => (s.block_ips.get (i * ker.simd_width + j)).toNat
  | DW_BLOCK_IP => (s.block_ips.get (i * ker.simd_width + j)).toNat
  | THREAD_ID => (s.thread_ids.get i).toNat

theorem value_lt (ker : Kernel) (s : Arrays) (i j : ℕ) (v : CurbeValue) :
    value ker s i j v < 256 ^ width v := by
  cases v
  case BLOCK_IP => exact (s.block_ips.get _).isLt
  case DW_BLOCK_IP => exact (s.block_ips.get _).isLt.trans (by decide)
  all_goals exact BitVec.isLt _

section Stores

variable {ker : Kernel} {cst_sz thread_n : ℕ} {s : Arrays} {v w : CurbeValue} {i j i' j' : ℕ}

theorem mem_store {x : ℕ} {c : Cells (BitVec 8)} (h : c ∈ store ker cst_sz v i j x) :
    0 ≤ offset ker v ∧
      c = ⟨address ker cst_sz v i j, width v, fun k => BitVec.ofNat 8 (x / 256 ^ k)⟩ := by
  rw [store] at h
  split at h
  · next hoffset => exact ⟨hoffset, List.mem_singleton.mp h⟩
  · exact absurd h List.not_mem_nil

theorem mem_stores {c : Cells (BitVec 8)} (h : c ∈ stores ker ker.simd_width cst_sz thread_n s) :
    ∃ v i j, i < thread_n ∧ j < lanes ker v ∧ c ∈ store ker cst_sz v i j (value ker s i j v) := by
  obtain ⟨i, hi, hc⟩ := List.mem_flatMap.mp h
  have hi := List.mem_range.mp hi
  rcases List.mem_append.mp hc with hc | hc
  · exact ⟨THREAD_ID, i, 0, hi, Nat.one_pos, hc⟩
  · obtain ⟨j, hj, hc⟩ := List.mem_flatMap.mp hc
    have hj := List.mem_range.mp hj
    simp only [List.mem_append] at hc
    rcases hc with (((hc | hc) | hc) | hc) | hc
    · exact ⟨LOCAL_ID_X, i, j, hi, hj, hc⟩
    · exact ⟨LOCAL_ID_Y, i, j, hi, hj, hc⟩
    · exact ⟨LOCAL_ID_Z, i, j, hi, hj, hc⟩
    · exact ⟨BLOCK_IP, i, j, hi, hj, hc⟩
    · exact ⟨DW_BLOCK_IP, i, j, hi, hj, hc⟩

theorem store_mem_stores {c : Cells (BitVec 8)} (hi : i < thread_n) (hj : j < lanes ker v)
    (hc : c ∈ store ker cst_sz v i j (value ker s i j v)) :
    c ∈ stores ker ker.simd_width cst_sz thread_n s := by
  refine List.mem_flatMap.mpr ⟨i, List.mem_range.mpr hi, List.mem_append.mpr ?_⟩
  cases v
  case THREAD_ID =>
    obtain rfl : j = 0 := Nat.lt_one_iff.mp hj
    exact .inl hc
  all_goals
    refine .inr (List.mem_flatMap.mpr ⟨j, List.mem_range.mpr hj, ?_⟩)
    simp only [List.mem_append]
    simp only [value] at hc
    tauto

/-- An element lies in the copy of its thread, in the place of its value. -/
theorem element_inside (hlaid : Laid ker cst_sz) (hv : 0 ≤ offset ker v) (hj : j < lanes ker v) :
    offset ker v ≤ address ker cst_sz v i j - i * cst_sz ∧
      address ker cst_sz v i j - i * cst_sz + width v ≤ offset ker v + width v * lanes ker v ∧
      offset ker v + width v * lanes ker v ≤ cst_sz := by
  have hmul : width v * (j + 1) ≤ width v * lanes ker v := Nat.mul_le_mul_left _ hj
  have hinside := hlaid.inside v hv
  rw [Nat.mul_succ] at hmul
  simp only [address]
  refine ⟨?_, ?_, hinside⟩
  · have : (0 : ℤ) ≤ width v * j := by exact_mod_cast Nat.zero_le _
    omega
  · have : (width v : ℤ) * j + width v ≤ width v * lanes ker v := by exact_mod_cast hmul
    omega

theorem store_inside (hlaid : Laid ker cst_sz) (hv : 0 ≤ offset ker v) (hi : i < thread_n)
    (hj : j < lanes ker v) : 0 ≤ address ker cst_sz v i j ∧
      address ker cst_sz v i j + (width v : ℤ) ≤ ((thread_n * cst_sz : ℕ) : ℤ) := by
  obtain ⟨hlo, hhi, hle⟩ := element_inside (i := i) hlaid hv hj
  have hmul : (i + 1) * cst_sz ≤ thread_n * cst_sz := Nat.mul_le_mul_right _ hi
  rw [Nat.succ_mul] at hmul
  omega

/-- Elements that meet are the same. -/
theorem eq_of_meet (hlaid : Laid ker cst_sz) (hv : 0 ≤ offset ker v) (hw : 0 ≤ offset ker w)
    (hj : j < lanes ker v) (hj' : j' < lanes ker w) {x : ℤ}
    (hx : x ∈ Set.Ico (address ker cst_sz v i j) (address ker cst_sz v i j + width v))
    (hx' : x ∈ Set.Ico (address ker cst_sz w i' j') (address ker cst_sz w i' j' + width w)) :
    v = w ∧ i = i' ∧ j = j' := by
  obtain ⟨hlo, hhi, hle⟩ := element_inside (i := i) hlaid hv hj
  obtain ⟨hlo', hhi', hle'⟩ := element_inside (i := i') hlaid hw hj'
  obtain ⟨hx1, hx2⟩ := hx
  obtain ⟨hx1', hx2'⟩ := hx'
  -- the copy
  have hi : i = i' := by
    have hdiv : ∀ {k : ℕ}, (k : ℤ) * cst_sz ≤ x → x < k * cst_sz + cst_sz → x / cst_sz = k := by
      intro k h1 h2
      have hpos : (0 : ℤ) < cst_sz := by omega
      exact (Int.ediv_eq_iff_of_pos hpos).mpr ⟨h1, h2⟩
    have h := hdiv (k := i) (by omega) (by omega)
    have h' := hdiv (k := i') (by omega) (by omega)
    exact_mod_cast h.symm.trans h'
  subst hi
  -- the value
  have hvw : v = w := by
    by_contra hne
    rcases hlaid.disjoint v w hne hv hw with h | h
    · omega
    · omega
  subst hvw
  refine ⟨rfl, rfl, ?_⟩
  have hpos : (0 : ℤ) < width v := by cases v <;> decide
  simp only [address] at hx1 hx2 hx1' hx2'
  have hlt : (width v : ℤ) * j < width v * (j' + 1) := by
    rw [Int.mul_add, Int.mul_one]
    omega
  have hlt' : (width v : ℤ) * j' < width v * (j + 1) := by
    rw [Int.mul_add, Int.mul_one]
    omega
  have h := Int.lt_of_mul_lt_mul_left hlt hpos.le
  have h' := Int.lt_of_mul_lt_mul_left hlt' hpos.le
  omega

/-- What the stores leave in the curbe. -/
theorem element_writeAll (hlaid : Laid ker cst_sz) (data : ℤ → BitVec 8) (hv : 0 ≤ offset ker v)
    (hi : i < thread_n) (hj : j < lanes ker v) :
    element ker cst_sz (writeAll data (stores ker ker.simd_width cst_sz thread_n s)) v i j =
      value ker s i j v := by
  have hread : read (writeAll data (stores ker ker.simd_width cst_sz thread_n s))
      (address ker cst_sz v i j) (width v) = Buffer.bytes (width v) (value ker s i j v) := by
    rw [Buffer.bytes_eq_map, Memory.read]
    refine List.map_congr_left fun k hk => ?_
    have hk := List.mem_range.mp hk
    have hmem : address ker cst_sz v i j + k ∈
        Set.Ico (address ker cst_sz v i j) (address ker cst_sz v i j + width v) :=
      ⟨by omega, by omega⟩
    have hcell : (⟨address ker cst_sz v i j, width v,
        fun k => BitVec.ofNat 8 (value ker s i j v / 256 ^ k)⟩ : Cells (BitVec 8)) ∈
        store ker cst_sz v i j (value ker s i j v) := by
      rw [store, if_pos hv]
      exact List.mem_singleton.mpr rfl
    refine writeAll_of_mem (fun c hc hx => ?_) ⟨_, store_mem_stores hi hj hcell, hmem⟩
    obtain ⟨w, i', j', -, hj', hstore⟩ := mem_stores hc
    obtain ⟨hw, rfl⟩ := mem_store hstore
    obtain ⟨rfl, rfl, rfl⟩ := eq_of_meet hlaid hv hw hj hj' hmem hx
    simp only [add_sub_cancel_left, Int.toNat_natCast]
  rw [element, hread, Buffer.number_bytes, Nat.mod_eq_of_lt (value_lt ker s i j v)]

end Stores

/-! ### The result -/

theorem max_wg_sz_lt (ker : Kernel) (hsimd : ker.simd_width = 8 ∨ ker.simd_width = 16) :
    (cl_get_kernel_max_wg_sz ker).toNat < 2 ^ 32 := by
  have hmin : ∀ a b : BitVec 64, b.toNat < 2 ^ 32 → (if a < b then a else b).toNat < 2 ^ 32 := by
    intro a b hb
    split
    · next hlt => exact lt_trans hlt hb
    · exact hb
  have hword : ∀ a : BitVec 32, (a.setWidth 64).toNat < 2 ^ 32 := by
    intro a
    rw [BitVec.toNat_setWidth]
    exact lt_of_le_of_lt (Nat.mod_le _ _) a.isLt
  refine hmin _ _ ?_
  rcases hsimd with hsimd | hsimd
  all_goals
    rw [hsimd]
    split
    · split
      · decide
      · exact hword _
    · generalize BitVec.setWidth 64 (_ : BitVec 32) = thread_cnt
      have hle : (if 64 < thread_cnt then 64 else thread_cnt).toNat ≤ 64 := by
        split
        · decide
        · next h => exact not_lt.mp h
      rw [BitVec.toNat_mul]
      refine lt_of_le_of_lt (Nat.mod_le _ _) (lt_of_le_of_lt (Nat.mul_le_mul_right _ hle) ?_)
      decide

/-- An accepted work-group: its size is the product, as `size_t` has it. -/
theorem work_group_sz_eq_some {ker : Kernel} {local_wk_sz : Fin 3 → BitVec 64} {sz : BitVec 64}
    (h : cl_kernel_work_group_sz ker local_wk_sz 3 = some sz) :
    sz.toNat = product local_wk_sz % 2 ^ 64 ∧ sz.toNat ≤ (cl_get_kernel_max_wg_sz ker).toNat := by
  have hfold : (((List.finRange 3).take 3).drop 1).foldl (fun sz i => sz * local_wk_sz i)
      (local_wk_sz 0) = local_wk_sz 0 * local_wk_sz 1 * local_wk_sz 2 := rfl
  simp only [cl_kernel_work_group_sz, hfold] at h
  split at h
  · cases h
  · split at h
    · cases h
    · next hle =>
      obtain rfl := Option.some.inj h
      refine ⟨?_, not_lt.mp hle⟩
      rw [BitVec.toNat_mul, BitVec.toNat_mul, Nat.mod_mul_mod]
      rfl

theorem thread_n_eq {ker : Kernel} {sz : BitVec 64}
    (hsimd : ker.simd_width = 8 ∨ ker.simd_width = 16) (h : sz.toNat < 2 ^ 32) :
    thread_n ker sz = (sz.toNat + ker.simd_width - 1) / ker.simd_width := by
  rcases hsimd with hsimd | hsimd
  · have hsub : (sz + BitVec.ofNat 64 8 - 1).toNat = sz.toNat + 8 - 1 := by bv_omega
    rw [thread_n, BitVec.toNat_udiv, hsimd, hsub]
    rfl
  · have hsub : (sz + BitVec.ofNat 64 16 - 1).toNat = sz.toNat + 16 - 1 := by bv_omega
    rw [thread_n, BitVec.toNat_udiv, hsimd, hsub]
    rfl

section Payload

variable {ker : Kernel} {local_wk_sz : Fin 3 → BitVec 64} {cst_sz thread_n : ℕ}
  (data : ℤ → BitVec 8) (stack : CurbeValue → ℕ → BitVec 32)

/-- The curbe behind the loops, if the arrays are large enough. -/
def payload (ker : Kernel) (local_wk_sz : Fin 3 → BitVec 64) (cst_sz thread_n : ℕ)
    (data : ℤ → BitVec 8) (stack : CurbeValue → ℕ → BitVec 32) : ℤ → BitVec 8 :=
  writeAll data (stores ker ker.simd_width cst_sz thread_n
    (filled ker stack (local_wk_sz 0).toNat (local_wk_sz 1).toNat ker.simd_width thread_n
      (product local_wk_sz)))

theorem payload_eq (hpos : 0 < ker.simd_width) (hlaid : Laid ker cst_sz)
    (hfit : product local_wk_sz ≤ thread_n * ker.simd_width) :
    cl_set_varying_payload ker data local_wk_sz ker.simd_width cst_sz thread_n stack =
      some (payload ker local_wk_sz cst_sz thread_n data stack) := by
  rw [cl_set_varying_payload, fill_eq stack hpos hfit, Option.bind_eq_bind, Option.bind_some]
  refine storeAll_eq data fun c hc => ?_
  obtain ⟨v, i, j, hi, hj, hstore⟩ := mem_stores hc
  obtain ⟨hv, rfl⟩ := mem_store hstore
  exact store_inside hlaid hv hi hj

/-- Each lane has its local ID; the numbers fit into the elements. -/
theorem lane_payload (hlaid : Laid ker cst_sz) (hmax : product local_wk_sz < 2 ^ 32) {t l : ℕ}
    (ht : t < thread_n) (hl : l < ker.simd_width) :
    Lane ker cst_sz local_wk_sz (payload ker local_wk_sz cst_sz thread_n data stack) t l := by
  have hid : ∀ {n : ℕ}, n ≤ t * ker.simd_width + l → t * ker.simd_width + l < product local_wk_sz →
      (BitVec.ofNat 32 n).toNat = n := by
    intro n hle hlt
    rw [BitVec.toNat_ofNat]
    exact Nat.mod_eq_of_lt (by omega)
  refine ⟨fun hc hoffset => ?_, fun hc hoffset => ?_, fun hc hoffset => ?_, fun v hv hoffset => ?_⟩
  · rw [payload, element_writeAll hlaid data hoffset ht hl]
    simp only [value, filled]
    rw [if_pos ⟨hoffset, hc⟩]
    exact hid (Nat.mod_le _ _) hc
  · rw [payload, element_writeAll hlaid data hoffset ht hl]
    simp only [value, filled]
    rw [if_pos ⟨hoffset, hc⟩]
    exact hid ((Nat.mod_le _ _).trans (Nat.div_le_self _ _)) hc
  · rw [payload, element_writeAll hlaid data hoffset ht hl]
    simp only [value, filled]
    rw [if_pos ⟨hoffset, hc⟩]
    exact hid (Nat.div_le_self _ _) hc
  · have hvalue : element ker cst_sz (payload ker local_wk_sz cst_sz thread_n data stack) v t l =
        (if 0 ≤ (0 : ℤ) ∧ t * ker.simd_width + l < product local_wk_sz then 0#16
          else 0xffff#16).toNat := by
      rcases hv with rfl | rfl
      · exact element_writeAll hlaid data hoffset ht hl
      · exact element_writeAll hlaid data hoffset ht hl
    rw [hvalue]
    by_cases hc : t * ker.simd_width + l < product local_wk_sz
    · rw [if_pos ⟨le_rfl, hc⟩, if_pos hc]
      rfl
    · rw [if_neg fun h => hc h.2, if_neg hc]
      rfl

theorem thread_id_payload (hlaid : Laid ker cst_sz) (hmax : product local_wk_sz < 2 ^ 32) {t : ℕ}
    (ht : t < thread_n) (hlt : t * ker.simd_width < product local_wk_sz)
    (hpos : 0 < ker.simd_width) (hoffset : 0 ≤ offset ker THREAD_ID) :
    element ker cst_sz (payload ker local_wk_sz cst_sz thread_n data stack) THREAD_ID t 0 = t := by
  have hle : t ≤ t * ker.simd_width := Nat.le_mul_of_pos_right t hpos
  rw [payload, element_writeAll hlaid data hoffset ht Nat.one_pos]
  simp only [value, filled]
  rw [if_pos ⟨hoffset, hlt⟩, BitVec.toNat_ofNat]
  exact Nat.mod_eq_of_lt (by omega)

end Payload

/-- An accepted work-group is distributed iff the product of its sizes is a `size_t`. -/
theorem distributed_iff {ker : Kernel} {local_wk_sz : Fin 3 → BitVec 64} {cst_sz : ℕ}
    {local_sz : BitVec 64} (data : ℤ → BitVec 8) (stack : CurbeValue → ℕ → BitVec 32)
    (hsimd : ker.simd_width = 8 ∨ ker.simd_width = 16) (hlaid : Laid ker cst_sz)
    (h : cl_kernel_work_group_sz ker local_wk_sz 3 = some local_sz) :
    Distributed ker data local_wk_sz cst_sz stack local_sz ↔ product local_wk_sz < 2 ^ 64 := by
  obtain ⟨hsz, hle⟩ := work_group_sz_eq_some h
  have hmax := max_wg_sz_lt ker hsimd
  constructor
  · intro hdist
    have hexact := hdist.exact
    omega
  · intro hlt
    rw [Nat.mod_eq_of_lt hlt] at hsz
    have hsmall : local_sz.toNat < 2 ^ 32 := by omega
    have hn := thread_n_eq hsimd hsmall
    rw [hsz] at hn
    have hpos : 0 < ker.simd_width := by omega
    -- the threads have a lane for each work-item, and a work-item each
    have hfit : product local_wk_sz ≤ thread_n ker local_sz * ker.simd_width := by
      rw [hn]
      rcases hsimd with hsimd | hsimd
      all_goals
        rw [hsimd]
        omega
    have hfirst : ∀ t < thread_n ker local_sz, t * ker.simd_width < product local_wk_sz := by
      rw [hn]
      rcases hsimd with hsimd | hsimd
      all_goals
        rw [hsimd]
        omega
    refine ⟨by omega, hn, _, payload_eq data stack hpos hlaid hfit,
      fun t ht => ⟨?_, fun l hl => ?_⟩⟩
    · exact thread_id_payload data stack hlaid (by omega) ht (hfirst t ht) hpos
    · exact lane_payload data stack hlaid (by omega) ht hl

/-- A kernel of 8 lanes with all IDs and a block IP of 16 bits. -/
def sample : Kernel where
  required_work_group_size := fun _ => 0
  curbe_offset
    | LOCAL_ID_X => 0
    | LOCAL_ID_Y => 32
    | LOCAL_ID_Z => 64
    | BLOCK_IP => 96
    | DW_BLOCK_IP => -1
    | THREAD_ID => 112
  simd_width := 8
  use_slm := false
  device := ⟨16, 8, 1, 512, false⟩

theorem laid_sample : Laid sample 128 := by
  refine ⟨fun v => ?_, fun v w => ?_, .inl (by decide)⟩
  · cases v <;> decide
  · cases v <;> cases w <;> decide

theorem distributed_sample :
    Distributed sample (fun _ => 0) ![5, 3, 1] 128 (fun _ _ => 0) 15 :=
  (distributed_iff _ _ (.inl rfl) laid_sample (by decide)).mpr (by decide)

/-- A product of `2 ^ 64` passes for an empty work-group. -/
theorem not_distributed_sample : Laid sample 128 ∧
    cl_kernel_work_group_sz sample ![2 ^ 32, 2 ^ 32, 1] 3 = some 0 ∧
    ¬ Distributed sample (fun _ => 0) ![2 ^ 32, 2 ^ 32, 1] 128 (fun _ _ => 0) 0 :=
  ⟨laid_sample, by decide, fun h => absurd h.exact (by decide)⟩

end LocalIds

end Runtime
