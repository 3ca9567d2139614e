/-
Copies and fills of shared virtual memory (`cl_enqueue_svm_mem_copy` and `cl_enqueue_svm_mem_fill`
of `cl_enqueue.c`, `cl_context_get_svm_from_ptr` of `cl_context.c`, with the checks of
`clEnqueueSVMMemcpy` and `clEnqueueSVMMemFill`).

There is one address space.  A command looks for the allocation that its pointer lies in and goes on
with the address at which this allocation is mapped, which is its base.

The counters of the loops are `int`, so a step past `2 ^ 31 - 1` is undefined.  The event of a
command is left out, except for the status it is executed with.

* `mapped_eq_iff` — which pointers a command keeps;
* `copyLoop_eq`, `fillLoop_eq` — the loops as copies within one memory;
* **`svm_exact_iff`** — when a command acts on the addresses it was given.
-/
import Beignet.Lib.InPlace
import Beignet.Runtime.BufferBounds

namespace Runtime.Svm

open Runtime.Buffer (Guard Queue MemType toNat_pos firstError firstError_eq_success queueGuard
  waitlistGuard CL_INVALID_VALUE CL_MEM_COPY_OVERLAP)

abbrev Bytes := InPlace.Memory UInt8

/-! ### Allocations -/

structure Mem where
  /-- `0` for none -/
  host_ptr : ℕ
  size : ℕ
  is_svm : Bool
  is_userptr : Bool
  type : MemType
  /-- the address `cl_mem_map` gives to the buffer object -/
  mapping : ℕ

/-- The objects that the search does not skip. -/
def Mem.isAllocation (mem : Mem) : Bool :=
  mem.host_ptr ≠ 0 && mem.is_svm && mem.type = .svm

def Mem.holds (mem : Mem) (p : ℕ) : Bool :=
  mem.host_ptr ≤ p && p < mem.host_ptr + mem.size

/-- The memory objects of a context.  `cl_mem_svm_allocate` marks its objects as user pointers, and
the blocks it gets from the host do not overlap. -/
structure Context where
  mem_objects : List Mem
  userptr : ∀ mem ∈ mem_objects, mem.isAllocation = true → mem.is_userptr = true
  apart : mem_objects.Pairwise fun mem mem' => mem.isAllocation = true → mem'.isAllocation = true →
    ∀ p, ¬ (mem.holds p = true ∧ mem'.holds p = true)

def cl_context_get_svm_from_ptr (ctx : Context) (p : ℕ) : Option Mem :=
  ctx.mem_objects.find? fun mem => mem.isAllocation && mem.holds p

/-- For objects that are not images. -/
def cl_mem_map_auto (mem : Mem) : ℕ := if mem.is_userptr then mem.host_ptr else mem.mapping

/-- The address a command works with. -/
def mapped (ctx : Context) (p : ℕ) : ℕ :=
  match cl_context_get_svm_from_ptr ctx p with
  | some mem => cl_mem_map_auto mem
  | none => p

/-! ### Commands -/

/-- The fields of `enqueue_data` that the commands read. -/
structure EnqueueData where
  ptr : UInt64
  const_ptr : UInt64
  size : UInt64
  pattern_size : UInt64

abbrev CL_COMPLETE : ℤ := 0

/-- `i++` on an `int` -/
def incr (i : ℕ) : Option ℕ := if i + 1 < 2 ^ 31 then some (i + 1) else none

/-- `for(i=0; i<size; i++)`, with `left` bytes to go. -/
def copyLoop (dst_ptr src_ptr : ℕ) : (left i : ℕ) → Bytes → Option Bytes
  | 0, _, m => some m
  | left + 1, i, m => (incr i).bind fun i' =>
    copyLoop dst_ptr src_ptr left i' (Function.update m (dst_ptr + i) (m (src_ptr + i)))

def cl_enqueue_svm_mem_copy (ctx : Context) (data : EnqueueData) (status : ℤ) (m : Bytes) :
    Option Bytes :=
  if status ≠ CL_COMPLETE then some m
  else
    copyLoop (mapped ctx data.ptr.toNat) (mapped ctx data.const_ptr.toNat) data.size.toNat 0 m

/-- `for(j=0; j<pattern_size; j++)`, with `left` bytes of the pattern to go. -/
def fillPattern (ptr pattern : ℕ) : (left j : ℕ) → ℕ × Bytes → Option (ℕ × Bytes)
  | 0, _, s => some s
  | left + 1, j, (i, m) => (incr i).bind fun i' =>
    fillPattern ptr pattern left (j + 1) (i', Function.update m (ptr + i) (m (pattern + j)))

/-- `for(i=0; i<size; )`, for at most `fuel` tests. -/
def fillLoop (ptr pattern pattern_size size : ℕ) : (fuel : ℕ) → ℕ × Bytes → Option Bytes
  | 0, _ => none
  | fuel + 1, (i, m) =>
    if i < size then
      (fillPattern ptr pattern pattern_size 0 (i, m)).bind
        (fillLoop ptr pattern pattern_size size fuel)
    else some m

/-- A round of the fill writes a byte at least, so there are no more tests than this. -/
def cl_enqueue_svm_mem_fill (ctx : Context) (data : EnqueueData) (status : ℤ) (m : Bytes) :
    Option Bytes :=
  if status ≠ CL_COMPLETE then some m
  else
    fillLoop (mapped ctx data.ptr.toNat) data.const_ptr.toNat data.pattern_size.toNat
      data.size.toNat (data.size.toNat + 1) (0, m)

/-! ### Requests -/

def clEnqueueSVMMemcpy (queue : Queue) (dst_ptr src_ptr size : UInt64) (waitlist : ℤ) :
    List Guard :=
  [queueGuard queue, .arg (dst_ptr = 0 || src_ptr = 0 || size = 0) CL_INVALID_VALUE,
    .arg ((src_ptr < dst_ptr && src_ptr + size > dst_ptr) ||
      (dst_ptr < src_ptr && dst_ptr + size > src_ptr)) CL_MEM_COPY_OVERLAP,
    waitlistGuard waitlist]

def clEnqueueSVMMemFill (queue : Queue) (svm_ptr pattern pattern_size size : UInt64)
    (waitlist : ℤ) : List Guard :=
  [queueGuard queue, .arg (svm_ptr = 0 || svm_ptr &&& (pattern_size - 1) ≠ 0) CL_INVALID_VALUE,
    .arg (pattern = 0 || pattern_size &&& (pattern_size - 1) ≠ 0 || pattern_size > 128)
      CL_INVALID_VALUE,
    .arg (size = 0 || size % pattern_size ≠ 0) CL_INVALID_VALUE, waitlistGuard waitlist]

/-- The two calls. -/
inductive Call where
  | memcpy (queue : Queue) (dst_ptr src_ptr size : UInt64) (waitlist : ℤ)
  | memFill (queue : Queue) (svm_ptr pattern pattern_size size : UInt64) (waitlist : ℤ)

/-- The byte of a repeated pattern that goes to byte `i`, by its address. -/
def patternByte (pattern pattern_size i : ℕ) : ℕ := pattern + i % pattern_size

namespace Call

/-- The call is not refused, and the bytes of a copy exist. -/
def Accepted : Call → Prop
  | memcpy queue dst_ptr src_ptr size waitlist =>
    firstError (clEnqueueSVMMemcpy queue dst_ptr src_ptr size waitlist) = CL_SUCCESS ∧
      dst_ptr.toNat + size.toNat ≤ 2 ^ 64 ∧ src_ptr.toNat + size.toNat ≤ 2 ^ 64
  | memFill queue svm_ptr pattern pattern_size size waitlist =>
    firstError (clEnqueueSVMMemFill queue svm_ptr pattern pattern_size size waitlist) = CL_SUCCESS

/-- The command, once it is executed. -/
def exec (ctx : Context) : Call → Bytes → Option Bytes
  | memcpy _ dst_ptr src_ptr size _ =>
    cl_enqueue_svm_mem_copy ctx ⟨dst_ptr, src_ptr, size, 0⟩ CL_COMPLETE
  | memFill _ svm_ptr pattern pattern_size size _ =>
    cl_enqueue_svm_mem_fill ctx ⟨svm_ptr, pattern, size, pattern_size⟩ CL_COMPLETE

/-- The first byte to write. -/
def dst : Call → ℕ
  | memcpy _ dst_ptr _ _ _ => dst_ptr.toNat
  | memFill _ svm_ptr _ _ _ _ => svm_ptr.toNat

def size : Call → ℕ
  | memcpy _ _ _ size _ => size.toNat
  | memFill _ _ _ _ size _ => size.toNat

/-- The byte to write at `dst + i`, by its address. -/
def source : Call → ℕ → ℕ
  | memcpy _ _ src_ptr _ _, i => src_ptr.toNat + i
  | memFill _ _ pattern pattern_size _ _, i => patternByte pattern.toNat pattern_size.toNat i

/-- The bytes at the pointer get those of the source, and all others stay. -/
def Exact (ctx : Context) (c : Call) : Prop :=
  ∀ m, c.exec ctx m = some (InPlace.copied c.dst c.source m c.size)

end Call

/-- A pointer into an allocation is its base. -/
def AtBase (ctx : Context) (p : ℕ) : Prop :=
  ∀ mem ∈ ctx.mem_objects, mem.isAllocation = true → mem.holds p = true → mem.host_ptr = p

/-- The pointers are bases, or a copy goes to where it comes from; the counter does not overflow;
and a fill does not overwrite a byte of its pattern with another one before it is read. -/
def Call.AtBases (ctx : Context) : Call → Prop
  | .memcpy _ dst_ptr src_ptr size _ => size.toNat < 2 ^ 31 ∧
    (dst_ptr = src_ptr ∨ AtBase ctx dst_ptr.toNat ∧ AtBase ctx src_ptr.toNat)
  | .memFill _ svm_ptr pattern pattern_size size _ => size.toNat < 2 ^ 31 ∧
    AtBase ctx svm_ptr.toNat ∧
    InPlace.Safe svm_ptr.toNat (patternByte pattern.toNat pattern_size.toNat) size.toNat

/-! ### Mapped addresses -/

theorem cl_context_get_svm_from_ptr_eq_some {ctx : Context} {p : ℕ} {mem : Mem}
    (h : cl_context_get_svm_from_ptr ctx p = some mem) :
    mem ∈ ctx.mem_objects ∧ mem.isAllocation = true ∧ mem.holds p = true := by
  rw [cl_context_get_svm_from_ptr] at h
  have hfound := List.find?_some h
  rw [Bool.and_eq_true] at hfound
  exact ⟨List.mem_of_find?_eq_some h, hfound⟩

theorem mapped_eq_host_ptr {ctx : Context} {p : ℕ} {mem : Mem}
    (h : cl_context_get_svm_from_ptr ctx p = some mem) : mapped ctx p = mem.host_ptr := by
  obtain ⟨hmem, hsvm, -⟩ := cl_context_get_svm_from_ptr_eq_some h
  rw [mapped, h]
  show cl_mem_map_auto mem = mem.host_ptr
  rw [cl_mem_map_auto, if_pos (ctx.userptr mem hmem hsvm)]

theorem mapped_eq_self {ctx : Context} {p : ℕ} (h : cl_context_get_svm_from_ptr ctx p = none) :
    mapped ctx p = p := by
  rw [mapped, h]

theorem mapped_le (ctx : Context) (p : ℕ) : mapped ctx p ≤ p := by
  cases hfind : cl_context_get_svm_from_ptr ctx p with
  | none => exact (mapped_eq_self hfind).le
  | some mem =>
    have hholds := (cl_context_get_svm_from_ptr_eq_some hfind).2.2
    rw [mapped_eq_host_ptr hfind]
    exact of_decide_eq_true (Bool.and_eq_true_iff.mp hholds).1

/-- An address lies in one allocation at most. -/
theorem eq_of_holds {ctx : Context} {mem mem' : Mem} {p : ℕ} (h : mem ∈ ctx.mem_objects)
    (h' : mem' ∈ ctx.mem_objects) (hsvm : mem.isAllocation = true)
    (hsvm' : mem'.isAllocation = true) (hp : mem.holds p = true) (hp' : mem'.holds p = true) :
    mem = mem' := by
  let One (mem mem' : Mem) : Prop := mem.isAllocation = true → mem'.isAllocation = true →
    mem.holds p = true → mem'.holds p = true → mem = mem'
  have hone : ctx.mem_objects.Pairwise One := ctx.apart.imp fun hdis ha hb hpa hpb =>
    absurd ⟨hpa, hpb⟩ (hdis ha hb p)
  have hflip : ctx.mem_objects.Pairwise (flip One) := ctx.apart.imp fun hdis ha hb hpa hpb =>
    absurd ⟨hpb, hpa⟩ (hdis hb ha p)
  exact hone.forall_of_forall_of_flip (fun _ _ _ _ _ _ => rfl) hflip h h' hsvm hsvm' hp hp'

/-- A command keeps the bases, and the pointers that lie in no allocation. -/
theorem mapped_eq_iff (ctx : Context) (p : ℕ) : mapped ctx p = p ↔ AtBase ctx p := by
  cases hfind : cl_context_get_svm_from_ptr ctx p with
  | none =>
    refine iff_of_true (mapped_eq_self hfind) ?_
    intro mem hmem hsvm hholds
    have hskip := List.find?_eq_none.mp hfind mem hmem
    exact absurd (Bool.and_eq_true_iff.mpr ⟨hsvm, hholds⟩) hskip
  | some mem =>
    obtain ⟨hmem, hsvm, hholds⟩ := cl_context_get_svm_from_ptr_eq_some hfind
    rw [mapped_eq_host_ptr hfind]
    constructor
    · intro hbase mem' hmem' hsvm' hholds'
      rw [eq_of_holds hmem' hmem hsvm' hsvm hholds' hholds, hbase]
    · intro h
      exact h mem hmem hsvm hholds

/-! ### Loops -/

theorem incr_eq {i : ℕ} (h : i + 1 < 2 ^ 31) : incr i = some (i + 1) := if_pos h

/-- The copy, from byte `i` on. -/
theorem copyLoop_run (dst_ptr src_ptr : ℕ) (m : Bytes) (left : ℕ) {i : ℕ} (hi : i < 2 ^ 31) :
    copyLoop dst_ptr src_ptr left i (InPlace.run dst_ptr (fun k => src_ptr + k) m i) =
      if i + left < 2 ^ 31 then
        some (InPlace.run dst_ptr (fun k => src_ptr + k) m (i + left))
      else none := by
  induction left generalizing i with
  | zero => exact (if_pos hi).symm
  | succ left ih =>
    rw [copyLoop]
    by_cases hlt : i + 1 < 2 ^ 31
    · rw [incr_eq hlt, Option.bind_some, ← InPlace.run_succ m i, ih hlt,
        show i + 1 + left = i + (left + 1) by omega]
    · rw [incr, if_neg hlt, if_neg (by omega)]
      rfl

theorem copyLoop_eq (dst_ptr src_ptr size : ℕ) (m : Bytes) : copyLoop dst_ptr src_ptr size 0 m =
    if size < 2 ^ 31 then some (InPlace.run dst_ptr (fun k => src_ptr + k) m size) else none := by
  have h := copyLoop_run dst_ptr src_ptr m size (Nat.two_pow_pos 31)
  rwa [Nat.zero_add] at h

section Fill

variable (ptr pattern : ℕ) (m : Bytes) {pattern_size : ℕ}

/-- The rest of a pattern, from its byte `j` on. -/
theorem fillPattern_run {left j q : ℕ} (hj : j + left = pattern_size)
    (hi : q * pattern_size + j < 2 ^ 31) :
    fillPattern ptr pattern left j (q * pattern_size + j,
        InPlace.run ptr (patternByte pattern pattern_size) m (q * pattern_size + j)) =
      if (q + 1) * pattern_size < 2 ^ 31 then
        some ((q + 1) * pattern_size,
          InPlace.run ptr (patternByte pattern pattern_size) m ((q + 1) * pattern_size))
      else none := by
  have hround : (q + 1) * pattern_size = q * pattern_size + pattern_size := Nat.succ_mul ..
  induction left generalizing j with
  | zero =>
    obtain rfl : j = pattern_size := hj
    rw [hround, if_pos hi]
    rfl
  | succ left ih =>
    rw [fillPattern]
    by_cases hlt : q * pattern_size + j + 1 < 2 ^ 31
    · have hmod : (q * pattern_size + j) % pattern_size = j := by
        rw [Nat.add_comm, Nat.add_mul_mod_self_right, Nat.mod_eq_of_lt (by omega)]
      -- the byte of the pattern that comes next
      have hbyte : patternByte pattern pattern_size (q * pattern_size + j) = pattern + j := by
        rw [patternByte, hmod]
      rw [incr_eq hlt, Option.bind_some, ← hbyte, ← InPlace.run_succ m, Nat.add_assoc]
      exact ih (by omega) (by omega)
    · rw [incr, if_neg hlt, if_neg (by omega)]
      rfl

/-- The fill, with `k` rounds to go. -/
theorem fillLoop_run (hpos : 0 < pattern_size) {k q fuel : ℕ} (hfuel : k < fuel)
    (hsize : (q + k) * pattern_size < 2 ^ 31) :
    fillLoop ptr pattern pattern_size ((q + k) * pattern_size) fuel (q * pattern_size,
        InPlace.run ptr (patternByte pattern pattern_size) m (q * pattern_size)) =
      some (InPlace.run ptr (patternByte pattern pattern_size) m ((q + k) * pattern_size)) := by
  induction k generalizing q fuel with
  | zero =>
    obtain ⟨fuel, rfl⟩ : ∃ f, fuel = f + 1 := ⟨fuel - 1, by omega⟩
    rw [fillLoop, Nat.add_zero, if_neg (Nat.lt_irrefl _)]
  | succ k ih =>
    obtain ⟨fuel, rfl⟩ : ∃ f, fuel = f + 1 := ⟨fuel - 1, by omega⟩
    have hlt : q * pattern_size < (q + (k + 1)) * pattern_size :=
      Nat.mul_lt_mul_of_pos_right (by omega) hpos
    have hround : (q + 1) * pattern_size ≤ (q + (k + 1)) * pattern_size :=
      Nat.mul_le_mul_right _ (by omega)
    have hstart := fillPattern_run ptr pattern m (Nat.zero_add pattern_size)
      (q := q) (by omega)
    rw [Nat.add_zero, if_pos (by omega)] at hstart
    rw [fillLoop, if_pos hlt, hstart, Option.bind_some, ← Nat.add_assoc, Nat.add_right_comm]
    rw [← Nat.add_assoc, Nat.add_right_comm] at hsize
    exact ih (by omega) hsize

/-- A fill of too many bytes overflows its counter. -/
theorem fillLoop_overflow {size : ℕ} (hsize : 2 ^ 31 ≤ size) (fuel q : ℕ)
    (hq : q * pattern_size < 2 ^ 31) :
    fillLoop ptr pattern pattern_size size fuel (q * pattern_size,
      InPlace.run ptr (patternByte pattern pattern_size) m (q * pattern_size)) = none := by
  induction fuel generalizing q with
  | zero => rfl
  | succ fuel ih =>
    have hstart := fillPattern_run ptr pattern m (Nat.zero_add pattern_size) (q := q) hq
    rw [Nat.add_zero] at hstart
    rw [fillLoop, if_pos (by omega), hstart]
    by_cases hlt : (q + 1) * pattern_size < 2 ^ 31
    · rw [if_pos hlt]
      exact ih (q + 1) hlt
    · rw [if_neg hlt]
      rfl

theorem fillLoop_eq {size : ℕ} (hpos : 0 < pattern_size) (hdvd : pattern_size ∣ size) :
    fillLoop ptr pattern pattern_size size (size + 1) (0, m) =
      if size < 2 ^ 31 then some (InPlace.run ptr (patternByte pattern pattern_size) m size)
      else none := by
  by_cases hsize : size < 2 ^ 31
  · rw [if_pos hsize]
    obtain ⟨k, rfl⟩ := hdvd
    have hk : k ≤ pattern_size * k := Nat.le_mul_of_pos_left k hpos
    have h := fillLoop_run ptr pattern m hpos (k := k) (q := 0) (Nat.lt_succ_of_le hk)
      (by rwa [Nat.zero_add, Nat.mul_comm])
    rwa [Nat.zero_add, Nat.zero_mul, Nat.mul_comm] at h
  · rw [if_neg hsize]
    have h : fillLoop ptr pattern pattern_size size (size + 1) (0 * pattern_size,
        InPlace.run ptr (patternByte pattern pattern_size) m (0 * pattern_size)) = none :=
      fillLoop_overflow ptr pattern m (not_lt.mp hsize) (size + 1) 0 (by omega)
    rwa [Nat.zero_mul] at h

end Fill

/-! ### Accepted calls -/

theorem guards_sound_memcpy (queue : Queue) (dst_ptr src_ptr size : UInt64) (waitlist : ℤ) :
    ∀ g ∈ clEnqueueSVMMemcpy queue dst_ptr src_ptr size waitlist, g.Sound := by
  simp [clEnqueueSVMMemcpy, queueGuard, waitlistGuard, Guard.Sound, Guard.fails, Guard.err]

theorem guards_sound_memFill (queue : Queue) (svm_ptr pattern pattern_size size : UInt64)
    (waitlist : ℤ) :
    ∀ g ∈ clEnqueueSVMMemFill queue svm_ptr pattern pattern_size size waitlist, g.Sound := by
  simp [clEnqueueSVMMemFill, queueGuard, waitlistGuard, Guard.Sound, Guard.fails, Guard.err]

/-- The ranges of a copy are apart, or one. -/
theorem memcpy_accepted {queue : Queue} {dst_ptr src_ptr size : UInt64} {waitlist : ℤ}
    (h : (Call.memcpy queue dst_ptr src_ptr size waitlist).Accepted) :
    0 < size.toNat ∧
      (src_ptr.toNat < dst_ptr.toNat → src_ptr.toNat + size.toNat ≤ dst_ptr.toNat) := by
  obtain ⟨hok, hdst, hsrc⟩ := h
  have hok := (firstError_eq_success
    (guards_sound_memcpy queue dst_ptr src_ptr size waitlist)).mp hok
  have hargs := hok (.arg (dst_ptr = 0 || src_ptr = 0 || size = 0) CL_INVALID_VALUE)
    (by simp [clEnqueueSVMMemcpy])
  have hapart := hok (.arg ((src_ptr < dst_ptr && src_ptr + size > dst_ptr) ||
    (dst_ptr < src_ptr && dst_ptr + size > src_ptr)) CL_MEM_COPY_OVERLAP)
    (by simp [clEnqueueSVMMemcpy])
  simp only [Guard.fails, Bool.or_eq_false_iff, Bool.and_eq_false_iff, decide_eq_false_iff_not,
    gt_iff_lt, UInt64.lt_iff_toNat_lt, UInt64.toNat_add] at hargs hapart
  refine ⟨toNat_pos hargs.2, fun hlt => ?_⟩
  have hle := hapart.1.resolve_left (not_not.mpr hlt)
  -- the end of the source does not wrap, since the destination lies behind it
  rw [Nat.mod_eq_of_lt (by omega)] at hle
  omega

/-- A fill writes whole patterns. -/
theorem memFill_accepted {queue : Queue} {svm_ptr pattern pattern_size size : UInt64}
    {waitlist : ℤ} (h : (Call.memFill queue svm_ptr pattern pattern_size size waitlist).Accepted) :
    0 < size.toNat ∧ 0 < pattern_size.toNat ∧ pattern_size.toNat ∣ size.toNat := by
  have hok := (firstError_eq_success
    (guards_sound_memFill queue svm_ptr pattern pattern_size size waitlist)).mp h
  have hptr := hok (.arg (svm_ptr = 0 || svm_ptr &&& (pattern_size - 1) ≠ 0) CL_INVALID_VALUE)
    (by simp [clEnqueueSVMMemFill])
  have hsize := hok (.arg (size = 0 || size % pattern_size ≠ 0) CL_INVALID_VALUE)
    (by simp [clEnqueueSVMMemFill])
  simp only [Guard.fails, Bool.or_eq_false_iff, decide_eq_false_iff_not, not_not] at hptr hsize
  refine ⟨toNat_pos hsize.1, toNat_pos ?_, Nat.dvd_of_mod_eq_zero ?_⟩
  · -- all bits of the pointer would have to be zero
    rintro rfl
    refine hptr.1 ?_
    have hall : svm_ptr &&& (0 - 1) = svm_ptr := UInt64.and_neg_one
    rw [← hall, hptr.2]
  · rw [← UInt64.toNat_mod, hsize.2]
    rfl

/-! ### Exactness -/

/-- A copy whose ranges are apart, or one, reads each byte before it is overwritten. -/
theorem safe_of_apart {dst src n : ℕ} (h : src < dst → src + n ≤ dst) :
    InPlace.Safe dst (fun i => src + i) n := by
  intro j hj i hi hclash
  have hclash : dst + i = src + j := hclash
  omega

theorem memcpy_exact_iff (ctx : Context) {dst src n : ℕ} (hn : 0 < n)
    (hapart : src < dst → src + n ≤ dst) :
    (∀ m : Bytes, InPlace.run (mapped ctx dst) (fun i => mapped ctx src + i) m n =
        InPlace.copied dst (fun i => src + i) m n) ↔
      dst = src ∨ AtBase ctx dst ∧ AtBase ctx src := by
  have : Nontrivial UInt8 := ⟨0, 1, by decide⟩
  rw [← mapped_eq_iff, ← mapped_eq_iff]
  constructor
  · intro h
    obtain hdst | hlt := (mapped_le ctx dst).eq_or_lt
    · rw [hdst] at h
      exact .inr ⟨hdst, InPlace.source_zero hn h⟩
    · -- the last byte stays only if it is copied to itself
      have hlast := (InPlace.displaced hn hlt h).2
      exact .inl (by omega)
  · rintro (rfl | ⟨hdst, hsrc⟩) m
    · have hself : ∀ a, InPlace.copied a (fun i => a + i) m n = m := by
        intro a
        funext x
        rw [InPlace.copied]
        split_ifs with hx
        · rw [Nat.add_sub_cancel' hx.1]
        · rfl
      rw [InPlace.run_eq_of_safe (safe_of_apart fun h => absurd h (lt_irrefl _)) m, hself, hself]
    · rw [hdst, hsrc]
      exact InPlace.run_eq_of_safe (safe_of_apart hapart) m

theorem memFill_exact_iff (ctx : Context) {ptr pattern pattern_size n : ℕ} (hn : 0 < n) :
    (∀ m : Bytes, InPlace.run (mapped ctx ptr) (patternByte pattern pattern_size) m n =
        InPlace.copied ptr (patternByte pattern pattern_size) m n) ↔
      AtBase ctx ptr ∧ InPlace.Safe ptr (patternByte pattern pattern_size) n := by
  have : Nontrivial UInt8 := ⟨0, 1, by decide⟩
  rw [← mapped_eq_iff]
  constructor
  · intro h
    obtain hptr | hlt := (mapped_le ctx ptr).eq_or_lt
    · rw [hptr] at h
      exact ⟨hptr, InPlace.exact_iff.mp h⟩
    · -- the pattern cannot start at both ends
      exfalso
      obtain ⟨hfirst, hlast⟩ := InPlace.displaced hn hlt h
      rw [patternByte, Nat.zero_mod] at hfirst
      have hmod : (n - 1) % pattern_size ≤ n - 1 := Nat.mod_le ..
      rw [patternByte] at hlast
      omega
  · rintro ⟨hptr, hsafe⟩ m
    rw [hptr]
    exact InPlace.run_eq_of_safe hsafe m

/-- A result that is there in every memory. -/
theorem forall_ite_eq_some {P : Prop} [Decidable P] {f g : Bytes → Bytes} :
    (∀ m, (if P then some (f m) else none) = some (g m)) ↔ P ∧ ∀ m, f m = g m := by
  by_cases hP : P
  · simp [hP]
  · simp [hP]

/-- **Commands on shared virtual memory.**  An accepted copy or fill acts on the addresses it was
given exactly when they are bases of their allocations (or a copy goes to where it comes from),
there are fewer than `2 ^ 31` bytes, and a fill does not spoil its own pattern. -/
theorem svm_exact_iff (ctx : Context) (c : Call) (h : c.Accepted) :
    c.Exact ctx ↔ c.AtBases ctx := by
  cases c with
  | memcpy queue dst_ptr src_ptr size waitlist =>
    obtain ⟨hn, hapart⟩ := memcpy_accepted h
    have hexec : ∀ m, (Call.memcpy queue dst_ptr src_ptr size waitlist).exec ctx m = _ :=
      copyLoop_eq (mapped ctx dst_ptr.toNat) (mapped ctx src_ptr.toNat) size.toNat
    simp only [Call.Exact, hexec]
    rw [forall_ite_eq_some]
    refine and_congr_right fun _ => (memcpy_exact_iff ctx hn hapart).trans ?_
    rw [UInt64.toNat_inj]
  | memFill queue svm_ptr pattern pattern_size size waitlist =>
    obtain ⟨hn, hpos, hdvd⟩ := memFill_accepted h
    have hexec : ∀ m, (Call.memFill queue svm_ptr pattern pattern_size size waitlist).exec ctx m =
        _ := fun m => fillLoop_eq (mapped ctx svm_ptr.toNat) pattern.toNat m hpos hdvd
    simp only [Call.Exact, hexec]
    rw [forall_ite_eq_some]
    exact and_congr_right fun _ => memFill_exact_iff ctx hn

/-- A context with one allocation, of the page at 4096. -/
def onePage : Context where
  mem_objects := [⟨4096, 4096, true, true, .svm, 0⟩]
  userptr := by simp
  apart := List.pairwise_singleton ..

/-- Four times the byte at 256. -/
def fillFour (svm_ptr : UInt64) : Call := .memFill ⟨true, 0⟩ svm_ptr 256 1 4 CL_SUCCESS

theorem fillFour_base_exact : (fillFour 4096).Accepted ∧ (fillFour 4096).Exact onePage := by
  have h : (fillFour 4096).Accepted := rfl
  refine ⟨h, (svm_exact_iff onePage (fillFour 4096) h).mpr ⟨by decide, ?_, ?_⟩⟩
  · intro mem hmem _ _
    rw [List.mem_singleton.mp hmem]
    rfl
  · intro j hj i hi hclash
    exact congrArg (256 + ·) ((Nat.mod_one i).trans (Nat.mod_one j).symm)

/-- A fill in the middle of the page writes to its beginning. -/
theorem fillFour_middle_wrong :
    ((fillFour 4160).exec onePage (Function.update (fun _ => 0) 256 1)).map
        (fun m => (m 4096, m 4160)) = some (1, 0) ∧
      ¬ ∀ ctx c, Call.Accepted c → Call.Exact ctx c := by
  refine ⟨rfl, fun h => ?_⟩
  have hexec := h onePage (fillFour 4160) rfl (Function.update (fun _ => 0) 256 1)
  have hbyte : (0 : UInt8) = 1 := congrFun (Option.some.inj hexec) 4160
  exact absurd hbyte (by decide)

end Runtime.Svm
