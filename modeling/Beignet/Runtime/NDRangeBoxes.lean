/-
The index space of an enqueued kernel (`clEnqueueNDRangeKernel` of `cl_api_kernel.c`).

A sub-launch runs the work-items whose global id is
`get_local_id + get_enqueued_local_size * get_group_id + get_global_offset`.  Together the
sub-launches are to run each item of the index space once.  A VME kernel works on blocks of
sixteen, and its index space is rounded up to these.

The call accepts local sizes of zero, which it divides by, and local sizes beyond the global
ones: the part with the whole groups has no groups then, but is launched all the same.

* `covers_subLaunch` — the work-items of one sub-launch;
* `partition_subLaunches` — the parts of the index space;
* **`clEnqueueNDRangeKernel_partitions_iff`** — which calls launch a partition.
-/
import Beignet.Runtime.NDRange

namespace Runtime.NDRange

/-- For the literals of `Fin 3`. -/
local instance neZero_dims : NeZero 3 := ⟨by decide⟩

/-- For the literals of `Fin 2`. -/
local instance neZero_parts : NeZero 2 := ⟨by decide⟩

/-! ### Work-items -/

/-- A sub-launch runs the work-item `p`. -/
def SubLaunch.Covers (sub : SubLaunch) (off local_sz p : Sizes) : Prop :=
  ∀ d, ∃ group_id local_id, sub.global_dim_off d ≤ group_id ∧
    group_id < sub.global_dim_off d + sub.global_wk_sz_use d / sub.local_wk_sz_use d ∧
    local_id < sub.local_wk_sz_use d ∧ p d = local_id + local_sz d * group_id + off d

/-- The index space. -/
def InRange (off global_sz p : Sizes) : Prop := ∀ d, off d ≤ p d ∧ p d < off d + global_sz d

/-- The sub-launches are not empty, and each work-item is run by exactly one of them. -/
structure Partition (off global_sz local_sz : Sizes) (subs : List SubLaunch) : Prop where
  nonzero : ∀ sub ∈ subs, ∀ d, sub.global_wk_sz_use d ≠ 0 ∧ sub.local_wk_sz_use d ≠ 0
  disjoint : subs.Pairwise fun sub sub' =>
    ∀ p, ¬ (sub.Covers off local_sz p ∧ sub'.Covers off local_sz p)
  union : ∀ p, (∃ sub ∈ subs, sub.Covers off local_sz p) ↔ InRange off global_sz p

/-! ### The parts -/

section Parts

variable {off global_sz local_sz : Sizes}

/-- The parts in the order of the loops. -/
def parts : List (Fin 3 → Fin 2) :=
  [![0, 0, 0], ![1, 0, 0], ![0, 1, 0], ![1, 1, 0], ![0, 0, 1], ![1, 0, 1], ![0, 1, 1], ![1, 1, 1]]

theorem mem_parts : ∀ part, part ∈ parts := by decide

theorem nodup_parts : parts.Nodup := by decide

theorem subLaunches_eq : subLaunches global_sz local_sz =
    (parts.map (subLaunch global_sz local_sz)).filter fun sub =>
      ∀ d, sub.local_wk_sz_use d ≠ 0 := rfl

/-- The part with the whole groups is always launched. -/
theorem whole_mem_subLaunches (hlocal : ∀ d, local_sz d ≠ 0) :
    subLaunch global_sz local_sz 0 ∈ subLaunches global_sz local_sz := by
  rw [subLaunches_eq, List.mem_filter]
  exact ⟨List.mem_map_of_mem (mem_parts 0), by simpa [subLaunch] using hlocal⟩

/-- Where a part lies in one dimension. -/
def InPart (off global_sz local_sz : ℕ) (part : Fin 2) (p : ℕ) : Prop :=
  if part = 0 then off ≤ p ∧ p < off + global_sz / local_sz * local_sz
  else off + global_sz / local_sz * local_sz ≤ p ∧ p < off + global_sz

/-- The whole groups in one dimension. -/
theorem exists_group_iff {off g l p : ℕ} (hl : l ≠ 0) :
    (∃ group_id local_id, group_id < g / l ∧ local_id < l ∧
        p = local_id + l * group_id + off) ↔
      off ≤ p ∧ p < off + g / l * l := by
  constructor
  · rintro ⟨group_id, local_id, hgroup, hlocal, rfl⟩
    have hnext : (group_id + 1) * l ≤ g / l * l := Nat.mul_le_mul_right l hgroup
    have hsucc : (group_id + 1) * l = l * group_id + l := by ring
    omega
  · rintro ⟨hle, hlt⟩
    have hdiv := Nat.mod_add_div (p - off) l
    have hquot : (p - off) / l < g / l := by
      rw [Nat.div_lt_iff_lt_mul (Nat.pos_of_ne_zero hl)]
      omega
    exact ⟨(p - off) / l, (p - off) % l, hquot, Nat.mod_lt _ (Nat.pos_of_ne_zero hl), by omega⟩

/-- **The work-items of one sub-launch.** -/
theorem covers_subLaunch (hlocal : ∀ d, local_sz d ≠ 0) (part : Fin 3 → Fin 2) (p : Sizes) :
    (subLaunch global_sz local_sz part).Covers off local_sz p ↔
      ∀ d, InPart (off d) (global_sz d) (local_sz d) (part d) (p d) := by
  refine forall_congr' fun d => ?_
  have hpos := Nat.pos_of_ne_zero (hlocal d)
  have hdiv := Nat.mod_add_div (global_sz d) (local_sz d)
  have hcomm := Nat.mul_comm (local_sz d) (global_sz d / local_sz d)
  simp only [subLaunch, InPart]
  by_cases hpart : part d = 0
  · simp only [hpart, if_pos, Fin.val_zero, Nat.zero_mul, Nat.zero_div, Nat.zero_le, true_and,
      Nat.zero_add, Nat.mul_div_cancel _ hpos]
    exact exists_group_iff (hlocal d)
  · have hone : part d = 1 := by omega
    simp only [hone, Fin.val_one, Nat.one_mul, Nat.mul_div_cancel _ hpos, if_neg (by decide :
      ¬ (1 : Fin 2) = 0)]
    -- there is one group, of the size of the remainder
    constructor
    · rintro ⟨group_id, local_id, hge, hlt, hitem, heq⟩
      have hrem : 0 < global_sz d % local_sz d := by omega
      rw [Nat.div_self hrem] at hlt
      obtain rfl : group_id = global_sz d / local_sz d := by omega
      omega
    · rintro ⟨hge, hlt⟩
      have hrem : 0 < global_sz d % local_sz d := by omega
      refine ⟨global_sz d / local_sz d, p d - off d - global_sz d / local_sz d * local_sz d,
        le_rfl, ?_, by omega, by omega⟩
      rw [Nat.div_self hrem]
      exact Nat.lt_succ_self _

theorem covers_use {part : Fin 3 → Fin 2} {p : Sizes}
    (h : (subLaunch global_sz local_sz part).Covers off local_sz p) (d : Fin 3) :
    (subLaunch global_sz local_sz part).local_wk_sz_use d ≠ 0 := by
  obtain ⟨_, local_id, -, -, hlt, -⟩ := h d
  exact fun h => absurd (h ▸ hlt) (Nat.not_lt_zero _)

/-- **The sub-launches** run each work-item once; none is empty exactly when there is a whole
group in each dimension. -/
theorem partition_subLaunches (hlocal : ∀ d, local_sz d ≠ 0) :
    Partition off global_sz local_sz (subLaunches global_sz local_sz) ↔
      ∀ d, local_sz d ≤ global_sz d := by
  constructor
  · intro h d
    have hne := (h.nonzero _ (whole_mem_subLaunches hlocal) d).1
    simp only [subLaunch, Pi.zero_apply, if_pos] at hne
    by_contra hlt
    rw [Nat.div_eq_of_lt (by omega), Nat.zero_mul] at hne
    exact hne rfl
  · intro hle
    refine ⟨fun sub hsub d => ?_, ?_, fun p => ?_⟩
    · rw [subLaunches_eq, List.mem_filter] at hsub
      obtain ⟨hsub, huse⟩ := hsub
      have huse : ∀ d, sub.local_wk_sz_use d ≠ 0 := by simpa using huse
      obtain ⟨part, -, rfl⟩ := List.mem_map.mp hsub
      refine ⟨?_, huse d⟩
      have hd := huse d
      simp only [subLaunch] at hd ⊢
      by_cases hpart : part d = 0
      · rw [if_pos hpart] at hd ⊢
        exact Nat.mul_ne_zero (Nat.div_pos (hle d) (Nat.pos_of_ne_zero hd)).ne' hd
      · rwa [if_neg hpart] at hd ⊢
    · rw [subLaunches_eq]
      refine List.Pairwise.filter _ (List.pairwise_map.mpr (nodup_parts.imp fun hne p hboth => ?_))
      obtain ⟨h1, h2⟩ := hboth
      rw [covers_subLaunch hlocal] at h1 h2
      obtain ⟨d, hd⟩ := Function.ne_iff.mp hne
      have h1 := h1 d
      have h2 := h2 d
      -- two different parts of one dimension
      unfold InPart at h1 h2
      split_ifs at h1 h2 <;> omega
    · constructor
      · rintro ⟨sub, hsub, hcovers⟩ d
        rw [subLaunches_eq, List.mem_filter] at hsub
        obtain ⟨part, -, rfl⟩ := List.mem_map.mp hsub.1
        have hd := (covers_subLaunch hlocal part p).mp hcovers d
        have hdiv := Nat.div_mul_le_self (global_sz d) (local_sz d)
        unfold InPart at hd
        split_ifs at hd <;> omega
      · intro hp
        -- the part of each dimension that the item lies in
        have hcovers : (subLaunch global_sz local_sz fun d =>
            if p d < off d + global_sz d / local_sz d * local_sz d then 0 else 1).Covers
              off local_sz p := by
          rw [covers_subLaunch hlocal]
          intro d
          have hd := hp d
          unfold InPart
          split_ifs with h1 h2 h2 <;> simp_all
        refine ⟨_, ?_, hcovers⟩
        rw [subLaunches_eq, List.mem_filter]
        exact ⟨List.mem_map_of_mem (mem_parts _), by simpa using covers_use hcovers⟩

end Parts

/-! ### The call -/

/-- The global sizes of the launch, in unbounded integers. -/
def launchSize (args : Args) (ker : Kernel) (global_work_size : Sizes) : Sizes :=
  if ker.vme then ![(global_work_size 0 + 15) / 16 * 16, (global_work_size 1 + 15) / 16, 1]
  else fun d => if d.val < args.work_dim then global_work_size d else 1

/-- The offsets of the launch; a null pointer is `none`. -/
def fixed_global_off (work_dim : ℕ) : Option Sizes → Sizes
  | none => fun _ => 0
  | some global_work_offset => fun d => if d.val < work_dim then global_work_offset d else 0

/-- No sum of the call wraps around: the rounding for VME kernels, and the ends of the ranges. -/
def NoWrap (args : Args) (ker : Kernel) (off global_work_size : Sizes) : Prop :=
  (ker.vme = true → ∀ d, d.val < args.work_dim → global_work_size d + 15 < 2 ^ 64) ∧
    ∀ d, off d + launchSize args ker global_work_size d < 2 ^ 64

/-- An accepted call divides by no zero, no sum wraps around, and the sub-launches are a partition
of the index space. -/
def Partitions (args : Args) (ker : Kernel) (global_work_offset : Option Sizes) : Prop :=
  ∀ global_sz local_sz, check args ker = .inr (global_sz, local_sz) →
    ∀ global_work_size, args.global_work_size = some global_work_size →
      (∀ d, local_sz d ≠ 0) ∧
      NoWrap args ker (fixed_global_off args.work_dim global_work_offset) global_work_size ∧
      Partition (fixed_global_off args.work_dim global_work_offset)
        (launchSize args ker global_work_size) local_sz (subLaunches global_sz local_sz)

section Call

variable {args : Args} {ker : Kernel} {global_work_size : Sizes}

/-- What the call is given when it passes the checks. -/
theorem check_inr {global_sz local_sz : Sizes} (h : check args ker = .inr (global_sz, local_sz))
    (hg : args.global_work_size = some global_work_size) :
    (args.work_dim ≠ 0 ∧ args.work_dim ≤ 3) ∧
      (ker.vme = true → args.work_dim = 2 ∧ args.local_work_size = none) ∧
      global_sz = fixed_global_sz args ker global_work_size ∧
      local_sz = fixed_local_sz args ker global_work_size := by
  obtain ⟨-, h⟩ | ⟨-, h⟩ := inl_or_rest h
  · cases h
  obtain ⟨-, h⟩ | ⟨-, h⟩ := inl_or_rest h
  · cases h
  obtain ⟨-, h⟩ | ⟨hdim, h⟩ := inl_or_rest h
  · cases h
  simp only [hg] at h
  obtain ⟨-, h⟩ | ⟨htwo, h⟩ := inl_or_rest h
  · cases h
  obtain ⟨-, h⟩ | ⟨hlocal, h⟩ := inl_or_rest h
  · cases h
  obtain ⟨-, h⟩ | ⟨-, h⟩ := inl_or_rest h
  · cases h
  obtain ⟨-, h⟩ | ⟨-, h⟩ := inl_or_rest h
  · cases h
  obtain ⟨-, h⟩ | ⟨-, h⟩ := inl_or_rest h
  · cases h
  obtain ⟨rfl, rfl⟩ := Prod.mk.inj (Sum.inr.inj h)
  refine ⟨by omega, fun hvme => ⟨?_, ?_⟩, rfl, rfl⟩
  · by_contra hne
    exact htwo ⟨hvme, hne⟩
  · by_contra hne
    exact hlocal ⟨hvme, Option.isSome_iff_ne_none.mpr hne⟩

/-- Without wraparound the launch has the exact sizes. -/
theorem fixed_global_sz_eq (hdim : ker.vme = true → args.work_dim = 2)
    (hwrap : ker.vme = true → ∀ d, d.val < args.work_dim → global_work_size d + 15 < 2 ^ 64) :
    fixed_global_sz args ker global_work_size = launchSize args ker global_work_size := by
  unfold fixed_global_sz launchSize
  split_ifs with hvme
  · have h0 := hwrap hvme 0 (by rw [hdim hvme]; decide)
    have h1 := hwrap hvme 1 (by rw [hdim hvme]; decide)
    rw [Nat.mod_eq_of_lt h0, Nat.mod_eq_of_lt h1]
  · rfl

/-- The search finds a divisor. -/
theorem findSize_spec {global_sz maxGroupSize : ℕ} {n j : ℕ}
    (h : findSize global_sz maxGroupSize n = some j) : 1 < j ∧ j ∣ global_sz := by
  induction n with
  | zero => exact absurd h (by simp [findSize])
  | succ n ih =>
    rw [findSize] at h
    split at h
    · rename_i hcond
      obtain rfl := Option.some_inj.mp h
      exact ⟨hcond.1, Nat.dvd_of_mod_eq_zero hcond.2.1⟩
    · exact ih h

/-- The local sizes that the call chooses are divisors of the global ones. -/
theorem chooseLocal_spec {global_sz local_sz : Sizes} {is : List (Fin 3)}
    {maxDimSize maxGroupSize : ℕ} (hlocal : ∀ d, local_sz d ≠ 0 ∧ local_sz d ∣ global_sz d)
    (d : Fin 3) :
    chooseLocal global_sz is maxDimSize maxGroupSize local_sz d ≠ 0 ∧
      chooseLocal global_sz is maxDimSize maxGroupSize local_sz d ∣ global_sz d := by
  induction is generalizing maxDimSize maxGroupSize local_sz with
  | nil => exact hlocal d
  | cons i is ih =>
    rw [chooseLocal]
    rcases hfind : findSize (global_sz i) maxGroupSize maxDimSize with _ | j
    · exact ih hlocal
    · refine ih fun d => ?_
      by_cases hd : d = i
      · obtain ⟨hj, hdvd⟩ := findSize_spec hfind
        subst hd
        rw [Function.update_self]
        exact ⟨by omega, hdvd⟩
      · rw [Function.update_of_ne hd]
        exact hlocal d

/-- A dimension that the call does not choose keeps its local size. -/
theorem chooseLocal_eq {global_sz : Sizes} {is : List (Fin 3)} {maxDimSize maxGroupSize : ℕ}
    {local_sz : Sizes} {d : Fin 3} (hd : d ∉ is) :
    chooseLocal global_sz is maxDimSize maxGroupSize local_sz d = local_sz d := by
  induction is generalizing maxDimSize maxGroupSize local_sz with
  | nil => rfl
  | cons i is ih =>
    obtain ⟨hne, hd⟩ := not_or.mp (List.mem_cons.not.mp hd)
    rw [chooseLocal]
    rcases findSize (global_sz i) maxGroupSize maxDimSize with _ | j
    · exact ih hd
    · exact (ih hd).trans (Function.update_of_ne hne ..)

/-- The local sizes of the launch fit exactly when those given by the caller do, and there is
something to run. -/
theorem fixed_local_sz_fits
    (hvme : ker.vme = true → args.work_dim = 2 ∧ args.local_work_size = none) :
    (∀ d, fixed_local_sz args ker global_work_size d ≠ 0 ∧
        fixed_local_sz args ker global_work_size d ≤ launchSize args ker global_work_size d) ↔
      (∀ d, d.val < args.work_dim → global_work_size d ≠ 0) ∧
        ∀ local_work_size, args.local_work_size = some local_work_size → ∀ d,
          d.val < args.work_dim →
            local_work_size d ≠ 0 ∧ local_work_size d ≤ global_work_size d := by
  by_cases hker : ker.vme = true
  · -- a VME kernel runs groups of sixteen, and none is given
    obtain ⟨hdim, hnone⟩ := hvme hker
    have hlocal : fixed_local_sz args ker global_work_size = ![16, 1, 1] := by
      simp only [fixed_local_sz, hnone, if_pos hker]
    have hlaunch : launchSize args ker global_work_size =
        ![(global_work_size 0 + 15) / 16 * 16, (global_work_size 1 + 15) / 16, 1] := by
      rw [launchSize, if_pos hker]
    simp only [hlocal, hlaunch, hnone, hdim, Fin.forall_fin_succ]
    simp
    omega
  · have hlaunch : ∀ d, launchSize args ker global_work_size d =
        if d.val < args.work_dim then global_work_size d else 1 := by
      intro d
      rw [launchSize, if_neg hker]
    rcases hgiven : args.local_work_size with _ | local_work_size
    · have hlocal : fixed_local_sz args ker global_work_size =
          chooseLocal global_work_size (dims args.work_dim) 64 256 fun _ => 1 := by
        simp only [fixed_local_sz, hgiven, if_neg hker]
      have hspec : ∀ d, fixed_local_sz args ker global_work_size d ≠ 0 ∧
          fixed_local_sz args ker global_work_size d ∣ global_work_size d := by
        rw [hlocal]
        exact chooseLocal_spec fun _ => ⟨Nat.one_ne_zero, one_dvd _⟩
      constructor
      · intro h
        refine ⟨fun d hd hzero => ?_, fun _ hsome => nomatch hsome⟩
        have hle := (h d).2
        rw [hlaunch, if_pos hd, hzero] at hle
        exact (h d).1 (Nat.le_zero.mp hle)
      · rintro ⟨hne, -⟩ d
        refine ⟨(hspec d).1, ?_⟩
        rw [hlaunch]
        by_cases hd : d.val < args.work_dim
        · rw [if_pos hd]
          exact Nat.le_of_dvd (Nat.pos_of_ne_zero (hne d hd)) (hspec d).2
        · have hmem : d ∉ dims args.work_dim := by simpa [dims] using hd
          rw [if_neg hd, hlocal, chooseLocal_eq hmem]
    · have hlocal : ∀ d, fixed_local_sz args ker global_work_size d =
          if d.val < args.work_dim then local_work_size d else 1 := by
        intro d
        simp only [fixed_local_sz, hgiven]
      constructor
      · intro h
        have hfit : ∀ d : Fin 3, d.val < args.work_dim →
            local_work_size d ≠ 0 ∧ local_work_size d ≤ global_work_size d := by
          intro d hd
          simpa only [hlocal, hlaunch, if_pos hd] using h d
        refine ⟨fun d hd hzero => ?_, fun _ hsome => ?_⟩
        · have hle := (hfit d hd).2
          rw [hzero] at hle
          exact (hfit d hd).1 (Nat.le_zero.mp hle)
        · obtain rfl := Option.some_inj.mp hsome
          exact hfit
      · rintro ⟨-, hfit⟩ d
        rw [hlocal, hlaunch]
        by_cases hd : d.val < args.work_dim
        · simpa only [if_pos hd] using hfit local_work_size rfl d hd
        · simp only [if_neg hd]
          exact ⟨Nat.one_ne_zero, le_rfl⟩

/-- **Partitions.**  The call launches a partition of the index space exactly when no dimension
is empty, the local sizes given are not zero and not larger than the global ones, and no sum
wraps around. -/
theorem clEnqueueNDRangeKernel_partitions_iff (args : Args) (ker : Kernel)
    (global_work_offset : Option Sizes) :
    Partitions args ker global_work_offset ↔
      ∀ global_sz local_sz, check args ker = .inr (global_sz, local_sz) →
        ∀ global_work_size, args.global_work_size = some global_work_size →
          (∀ d, d.val < args.work_dim → global_work_size d ≠ 0) ∧
          (∀ local_work_size, args.local_work_size = some local_work_size → ∀ d,
            d.val < args.work_dim →
              local_work_size d ≠ 0 ∧ local_work_size d ≤ global_work_size d) ∧
          NoWrap args ker (fixed_global_off args.work_dim global_work_offset)
            global_work_size := by
  refine forall₃_congr fun global_sz local_sz hcheck => forall₂_congr fun g hg => ?_
  obtain ⟨-, hvme, rfl, rfl⟩ := check_inr hcheck hg
  refine Iff.trans ?_ and_assoc
  rw [← fixed_local_sz_fits hvme]
  constructor
  · rintro ⟨hlocal, hwrap, hpart⟩
    rw [fixed_global_sz_eq (fun h => (hvme h).1) hwrap.1] at hpart
    exact ⟨fun d => ⟨hlocal d, (partition_subLaunches hlocal).mp hpart d⟩, hwrap⟩
  · rintro ⟨hfits, hwrap⟩
    refine ⟨fun d => (hfits d).1, hwrap, ?_⟩
    rw [fixed_global_sz_eq (fun h => (hvme h).1) hwrap.1]
    exact (partition_subLaunches fun d => (hfits d).1).mpr fun d => (hfits d).2

/-- Three work-items in groups of eight. -/
def wideArgs : Args where
  isCommandQueue := true
  isKernel := true
  sameContext := true
  work_dim := 1
  global_work_size := some ![3, 1, 1]
  local_work_size := some ![8, 1, 1]
  waitlist := ⟨0, nonpos_zero⟩

def plainKernel : Kernel where
  vme := false
  compile_wg_sz := ![0, 0, 0]
  required_sz := ![0, 0, 0]
  max_wg_sz := 256

/-- The first sub-launch has no work-items at all. -/
theorem wide_wrong :
    ((check wideArgs plainKernel).elim (fun _ => []) fun sizes =>
        (subLaunches sizes.1 sizes.2).map fun sub => sub.global_wk_sz_use 0) = [0, 3] ∧
      ¬ Partitions wideArgs plainKernel none := by
  refine ⟨by decide, fun h => ?_⟩
  obtain ⟨-, -, hpart⟩ := h (fixed_global_sz wideArgs plainKernel ![3, 1, 1])
    (fixed_local_sz wideArgs plainKernel ![3, 1, 1]) rfl ![3, 1, 1] rfl
  exact (hpart.nonzero _ (whole_mem_subLaunches (by decide)) 0).1 rfl

end Call

end Runtime.NDRange
