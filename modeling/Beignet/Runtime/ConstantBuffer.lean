/-
The constant buffer of a kernel (`cl_upload_constant_buffer` of `cl_command_queue_gen7.c`), up to
OpenCL 1.2, where the program-global constants and the constant arguments share one surface.

A first pass adds up the sizes, a second one places the arguments, and both align as they go.  The
second pass leaves out arguments that the kernel does not use, so it never gets further than the
first.  But the first one counts in 32 bits, and a buffer alone may have 4 GB.

Sizes and offsets in `size_t` are `ℕ`; the constant buffer is allocated and mapped, otherwise
nothing is written.

* `stacked_secondPass` — the arguments are placed one after the other;
* `usedEnd_le_total` — the second pass stays within the first;
* **`cl_upload_constant_buffer_iff`** — when the layout is right.
-/
import Beignet.Lib.Layout

namespace Runtime.ConstantBuffer

open Layout

/-- What the two passes read of an argument. -/
structure Arg where
  /-- the type is `GBE_ARG_CONSTANT_PTR` -/
  isConstant : Bool
  /-- the size of the memory object, if one is set -/
  mem : Option ℕ
  mem_pos : ∀ size ∈ mem, 0 < size
  /-- `interp_kernel_get_arg_align`: the alignment of a type -/
  alignment : ℕ
  alignment_dvd : alignment ∣ 2 ^ 31
  /-- `interp_kernel_get_curbe_offset`, negative when the kernel does not use the argument -/
  curbe_offset : ℤ

namespace Arg

/-- The size of a constant argument with a memory object. -/
def size? (arg : Arg) : Option ℕ := if arg.isConstant then arg.mem else none

theorem alignment_pos (arg : Arg) : 0 < arg.alignment :=
  Nat.pos_of_dvd_of_pos arg.alignment_dvd (by decide)

theorem size_pos {arg : Arg} {size : ℕ} (h : arg.size? = some size) : 0 < size := by
  unfold size? at h
  split_ifs at h
  exact arg.mem_pos size h

end Arg

/-- `_cl_kernel` -/
structure Kernel where
  args : List Arg
  global_const_size : ℕ

/-! ### The two passes -/

/-- The `ALIGN` macro in `uint32_t`. -/
def align32 (a b : ℕ) : ℕ := roundUp a b % 2 ^ 32

/-- `raw_size` and `aligned_size` -/
def firstPass : List Arg → ℕ → ℕ → ℕ × ℕ
  | [], raw_size, aligned_size => (raw_size, aligned_size)
  | arg :: args, raw_size, aligned_size =>
    match arg.size? with
    | none => firstPass args raw_size aligned_size
    | some size =>
      firstPass args ((raw_size + size) % 2 ^ 32)
        ((align32 aligned_size arg.alignment + size) % 2 ^ 32)

/-- One argument in the constant buffer. -/
structure Write where
  arg : Arg
  /-- the range that is copied to -/
  segment : Segment
  /-- the `uint32_t` that the kernel finds in its curbe -/
  value : ℕ

def secondPass : List Arg → ℕ → List Write
  | [], _ => []
  | arg :: args, offset =>
    match arg.size? with
    | none => secondPass args offset
    | some size =>
      let offset := roundUp offset arg.alignment
      if arg.curbe_offset < 0 then secondPass args offset
      else ⟨arg, ⟨offset, size⟩, offset % 2 ^ 32⟩ :: secondPass args (offset + size)

structure Upload where
  aligned_size : ℕ
  writes : List Write

/-- `none` when there is nothing to upload. -/
def cl_upload_constant_buffer (ker : Kernel) : Option Upload :=
  let raw_size := ker.global_const_size % 2 ^ 32
  -- eight bytes are reserved to get rid of address zero
  let aligned_size := if ker.global_const_size = 0 then 8 else align32 raw_size 4
  let (raw_size, aligned_size) := firstPass ker.args raw_size aligned_size
  if raw_size = 0 then none
  else
    let offset := if 0 < ker.global_const_size then ker.global_const_size else 8
    some ⟨aligned_size, secondPass ker.args offset⟩

/-- The layout of an upload, with the program-global constants in front. -/
structure LayoutOk (ker : Kernel) (up : Upload) : Prop where
  aligned : ∀ w ∈ up.writes, w.arg.alignment ∣ w.value
  value : ∀ w ∈ up.writes, w.value = w.segment.offset
  disjoint : up.writes.Pairwise fun w w' => Disjoint w.segment.bytes w'.segment.bytes
  globals : ∀ w ∈ up.writes, Disjoint (Set.Ico 0 ker.global_const_size) w.segment.bytes
  within : ∀ i, (i < ker.global_const_size ∨ ∃ w ∈ up.writes, i ∈ w.segment.bytes) →
    i < up.aligned_size

/-! ### The passes in unbounded integers -/

/-- The end of the arguments, used or not, each on its alignment. -/
def layoutEnd : List Arg → ℕ → ℕ
  | [], offset => offset
  | arg :: args, offset =>
    match arg.size? with
    | none => layoutEnd args offset
    | some size => layoutEnd args (roundUp offset arg.alignment + size)

namespace Kernel

variable (ker : Kernel)

/-- The sum of all sizes. -/
def rawTotal : ℕ := ker.global_const_size + (ker.args.filterMap Arg.size?).sum

/-- The size with all constant arguments. -/
def total : ℕ :=
  layoutEnd ker.args (if ker.global_const_size = 0 then 8 else roundUp ker.global_const_size 4)

/-- Where the second pass starts. -/
def base : ℕ := if 0 < ker.global_const_size then ker.global_const_size else 8

/-- The end of the arguments that the kernel uses. -/
def usedEnd : ℕ := finish ker.global_const_size ((secondPass ker.args ker.base).map Write.segment)

end Kernel

/-- The first pass counts modulo `2 ^ 32`. -/
theorem firstPass_eq (args : List Arg) (raw_size aligned_size : ℕ) :
    firstPass args (raw_size % 2 ^ 32) (aligned_size % 2 ^ 32) =
      ((raw_size + (args.filterMap Arg.size?).sum) % 2 ^ 32,
        layoutEnd args aligned_size % 2 ^ 32) := by
  induction args generalizing raw_size aligned_size with
  | nil => rfl
  | cons arg args ih =>
    rcases hsize : arg.size? with _ | size
    · simpa only [firstPass, layoutEnd, hsize, List.filterMap_cons] using ih raw_size aligned_size
    · have hdvd : arg.alignment ∣ 2 ^ 32 := arg.alignment_dvd.trans ⟨2, by decide⟩
      have halign : (align32 (aligned_size % 2 ^ 32) arg.alignment + size) % 2 ^ 32 =
          (roundUp aligned_size arg.alignment + size) % 2 ^ 32 := by
        rw [align32, roundUp_mod arg.alignment_pos hdvd, Nat.mod_add_mod]
      have hnext := ih (raw_size + size) (roundUp aligned_size arg.alignment + size)
      simp only [firstPass, layoutEnd, hsize, List.filterMap_cons, List.sum_cons, halign,
        Nat.mod_add_mod, ← Nat.add_assoc]
      exact hnext

theorem cl_upload_constant_buffer_eq (ker : Kernel) : cl_upload_constant_buffer ker =
    if ker.rawTotal % 2 ^ 32 = 0 then none
    else some ⟨ker.total % 2 ^ 32, secondPass ker.args ker.base⟩ := by
  have hstart : (if ker.global_const_size = 0 then 8
      else align32 (ker.global_const_size % 2 ^ 32) 4) =
        (if ker.global_const_size = 0 then 8 else roundUp ker.global_const_size 4) % 2 ^ 32 := by
    split_ifs
    · rfl
    · exact roundUp_mod (by decide) ⟨2 ^ 30, by decide⟩
  simp only [cl_upload_constant_buffer, hstart, firstPass_eq]
  rfl

/-! ### The second pass -/

/-- The arguments are placed one after the other. -/
theorem stacked_secondPass (args : List Arg) (offset : ℕ) :
    Stacked offset ((secondPass args offset).map Write.segment) := by
  induction args generalizing offset with
  | nil => trivial
  | cons arg args ih =>
    rw [secondPass]
    rcases arg.size? with _ | size
    · exact ih offset
    · have hle := le_roundUp (a := offset) arg.alignment_pos
      dsimp only
      split_ifs
      · exact (ih _).mono hle
      · exact ⟨hle, ih _⟩

/-- The second pass stays within the first, wherever this one starts further on. -/
theorem finish_secondPass_le (args : List Arg) {lo offset offset' : ℕ} (hlo : lo ≤ offset')
    (hle : offset ≤ offset') :
    finish lo ((secondPass args offset).map Write.segment) ≤ layoutEnd args offset' := by
  induction args generalizing lo offset offset' with
  | nil => exact hlo
  | cons arg args ih =>
    rw [secondPass, layoutEnd]
    rcases arg.size? with _ | size
    · exact ih hlo hle
    · have hmono := roundUp_mono arg.alignment_pos hle
      have hself := le_roundUp (a := offset') arg.alignment_pos
      dsimp only
      split_ifs
      · exact ih (by omega) (by omega)
      · exact ih (Nat.add_le_add_right hmono size) (Nat.add_le_add_right hmono size)

theorem usedEnd_le_total (ker : Kernel) : ker.usedEnd ≤ ker.total := by
  have hle := le_roundUp (a := ker.global_const_size) (show 0 < 4 by decide)
  refine finish_secondPass_le _ ?_ ?_
  · split_ifs <;> omega
  · unfold Kernel.base
    split_ifs <;> omega

theorem secondPass_spec (args : List Arg) (offset : ℕ) : ∀ w ∈ secondPass args offset,
    w.arg.alignment ∣ w.segment.offset ∧ w.value = w.segment.offset % 2 ^ 32 ∧
      0 < w.segment.size := by
  induction args generalizing offset with
  | nil => exact fun w hw => absurd hw List.not_mem_nil
  | cons arg args ih =>
    rw [secondPass]
    rcases hsize : arg.size? with _ | size
    · exact ih offset
    · dsimp only
      split_ifs
      · exact ih _
      · intro w hw
        rcases List.mem_cons.mp hw with rfl | hw
        · exact ⟨dvd_roundUp arg.alignment_pos, rfl, Arg.size_pos hsize⟩
        · exact ih _ w hw

/-- The program-global constants lie in front of the arguments. -/
theorem stacked_used (ker : Kernel) :
    Stacked ker.global_const_size ((secondPass ker.args ker.base).map Write.segment) := by
  refine (stacked_secondPass ker.args ker.base).mono ?_
  unfold Kernel.base
  split_ifs <;> omega

/-- In a buffer of less than 4 GB only the end matters. -/
theorem layoutOk_iff {ker : Kernel} {aligned_size : ℕ} (hlt : aligned_size < 2 ^ 32) :
    LayoutOk ker ⟨aligned_size, secondPass ker.args ker.base⟩ ↔ ker.usedEnd ≤ aligned_size := by
  have hstacked := stacked_used ker
  have hspec := secondPass_spec ker.args ker.base
  constructor
  · intro h
    -- the last byte is a global one, or one of the last argument
    rcases finish_mem ker.global_const_size ((secondPass ker.args ker.base).map Write.segment) with
      hend | ⟨s, hs, hend⟩
    · have hlast := h.within (ker.global_const_size - 1)
      have hend : ker.usedEnd = ker.global_const_size := hend
      by_cases hzero : ker.global_const_size = 0
      · omega
      · have hlast : ker.global_const_size - 1 < aligned_size := hlast (.inl (by omega))
        omega
    · obtain ⟨w, hw, rfl⟩ := List.mem_map.mp hs
      have hpos := (hspec w hw).2.2
      have hend : ker.usedEnd = w.segment.offset + w.segment.size := hend
      have hlast := h.within (w.segment.offset + w.segment.size - 1)
        (.inr ⟨w, hw, by omega, show _ < w.segment.offset + w.segment.size by omega⟩)
      have hlast : w.segment.offset + w.segment.size - 1 < aligned_size := hlast
      omega
  · intro hle
    have hfinish : ∀ w ∈ secondPass ker.args ker.base, w.segment.finish ≤ aligned_size :=
      fun w hw => (hstacked.finish_le _ (List.mem_map_of_mem hw)).trans hle
    have hvalue : ∀ w ∈ secondPass ker.args ker.base, w.value = w.segment.offset := by
      intro w hw
      have hend : w.segment.offset + w.segment.size ≤ aligned_size := hfinish w hw
      rw [(hspec w hw).2.1, Nat.mod_eq_of_lt (by omega)]
    refine ⟨fun w hw => ?_, hvalue, ?_, fun w hw => ?_, ?_⟩
    · rw [hvalue w hw]
      exact (hspec w hw).1
    · exact (List.pairwise_map.mp hstacked.pairwise).imp Segment.disjoint_bytes
    · have hoffset := hstacked.le_offset _ (List.mem_map_of_mem hw)
      exact Set.disjoint_left.mpr fun i hi hi' => absurd (hi.2.trans_le (hoffset.trans hi'.1))
        (lt_irrefl i)
    · rintro i (hi | ⟨w, hw, hi⟩)
      · exact hi.trans_le (hstacked.le_finish.trans hle)
      · exact hi.2.trans_le (hfinish w hw)

/-- **The constant buffer.**  The layout is right exactly when the total size stays below 4 GB, or
the sizes are lost altogether, or the arguments that are used end by what is left of the total. -/
theorem cl_upload_constant_buffer_iff (ker : Kernel) :
    (∀ up, cl_upload_constant_buffer ker = some up → LayoutOk ker up) ↔
      ker.total < 2 ^ 32 ∨ ker.rawTotal % 2 ^ 32 = 0 ∨ ker.usedEnd ≤ ker.total % 2 ^ 32 := by
  rw [cl_upload_constant_buffer_eq]
  by_cases hraw : ker.rawTotal % 2 ^ 32 = 0
  · rw [if_pos hraw]
    exact iff_of_true (fun up h => nomatch h) (.inr (.inl hraw))
  · have hused := usedEnd_le_total ker
    rw [if_neg hraw]
    simp only [Option.some.injEq, forall_eq', hraw, false_or]
    rw [layoutOk_iff (Nat.mod_lt _ (by decide))]
    constructor
    · exact .inr
    · rintro (hlt | hle)
      · rwa [Nat.mod_eq_of_lt hlt]
      · exact hle

/-- Two constant buffers of 2 GB, the second a little smaller. -/
def largeKernel : Kernel where
  args := [⟨true, some (2 ^ 31), by simp, 4, ⟨2 ^ 29, by decide⟩, 32⟩,
    ⟨true, some (2 ^ 31 - 4), by simp, 4, ⟨2 ^ 29, by decide⟩, 36⟩]
  global_const_size := 0

/-- Four bytes are allocated for them. -/
theorem largeKernel_wrong :
    (cl_upload_constant_buffer largeKernel).map (fun up => up.aligned_size) = some 4 ∧
      ¬ ∀ up, cl_upload_constant_buffer largeKernel = some up → LayoutOk largeKernel up := by
  have hsize : (cl_upload_constant_buffer largeKernel).map (fun up => up.aligned_size) =
      some 4 := by
    decide
  refine ⟨hsize, fun h => ?_⟩
  obtain ⟨up, hup, hfour⟩ := Option.map_eq_some_iff.mp hsize
  obtain rfl := Option.some_inj.mp (hup.symm.trans rfl)
  have hlast := (h _ hup).within 8 (.inr ⟨_, List.mem_cons_self, by decide, by decide⟩)
  rw [hfour] at hlast
  exact absurd hlast (by decide)

end Runtime.ConstantBuffer
