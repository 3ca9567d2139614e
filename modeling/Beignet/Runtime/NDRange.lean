/-
Enqueueing a kernel: `clEnqueueNDRangeKernel` (`cl_api_kernel.c`),
`cl_command_queue_ND_range_gen7` (`cl_command_queue_gen7.c`) and `cl_kernel_work_group_sz`
(`cl_kernel.c`).

The call checks its arguments and then covers the index space with at most eight
sub-launches, the whole work groups and the remainders of each dimension, which are
prepared and submitted one after the other.  The outcome of each internal step of a
sub-launch is a parameter; the work-group size check is computed.  In two places the
error is assigned inside a condition, `err = f(…) != CL_SUCCESS`, and the truth value
of the comparison is what is returned.

* `launch_eq` — a sub-launch returns the code of the first step that fails, but 1 when
  this is the work-group size check or the binding of the images;
* `enqueue_failure` — what the whole call returns and has submitted by then;
* `clEnqueueNDRangeKernel_atomic_iff` — the call is all or nothing and reports the
  true error exactly when only the first sub-launch fails and not in these two steps.
-/
import Mathlib

namespace Runtime.NDRange

/-- For the literals of `Fin 3`. -/
local instance neZero_three : NeZero 3 := ⟨by decide⟩

/-- For the literals of `Fin 2`. -/
local instance neZero_two : NeZero 2 := ⟨by decide⟩

abbrev CL_SUCCESS : ℤ := 0
abbrev CL_OUT_OF_RESOURCES : ℤ := -5
abbrev CL_EXEC_STATUS_ERROR_FOR_EVENTS_IN_WAIT_LIST : ℤ := -14
abbrev CL_INVALID_CONTEXT : ℤ := -34
abbrev CL_INVALID_COMMAND_QUEUE : ℤ := -36
abbrev CL_INVALID_KERNEL : ℤ := -48
abbrev CL_INVALID_WORK_DIMENSION : ℤ := -53
abbrev CL_INVALID_WORK_GROUP_SIZE : ℤ := -54
abbrev CL_INVALID_WORK_ITEM_SIZE : ℤ := -55
abbrev CL_INVALID_GLOBAL_WORK_SIZE : ℤ := -63

/-- What a step of the runtime returns: `CL_SUCCESS` or a negative error code. -/
abbrev Code := {c : ℤ // c ≤ 0}

/-- One `size_t` for each dimension. -/
abbrev Sizes := Fin 3 → ℕ

/-- The part of a kernel that the call reads. -/
structure Kernel where
  vme : Bool
  compile_wg_sz : Sizes
  /-- `interp_kernel_get_required_work_group_size` -/
  required_sz : Sizes
  /-- `cl_get_kernel_max_wg_sz` -/
  max_wg_sz : ℕ

/-- The arguments of the call; a null pointer is `none`. -/
structure Args where
  isCommandQueue : Bool
  isKernel : Bool
  sameContext : Bool
  work_dim : ℕ
  global_work_size : Option Sizes
  local_work_size : Option Sizes
  /-- the result of `cl_event_check_waitlist` -/
  waitlist : Code

/-- The outcomes of the internal steps of one sub-launch. -/
structure Steps where
  /-- `cl_event_create` -/
  event_create : Code
  /-- `cl_kernel_check_args` -/
  check_args : Code
  scratch_fits : Bool
  slm_fits : Bool
  /-- state, printf and profiling buffers -/
  setup : Bool
  /-- `cl_command_queue_bind_image` -/
  bind_image : Code
  /-- scratch, constants, constant URB and batch buffer -/
  upload : Bool
  /-- `cl_event_is_ready` -/
  event_status : ℤ
  /-- `cl_event_exec` -/
  event_exec : Code

/-! ### One sub-launch -/

def cl_kernel_work_group_sz (ker : Kernel) (local_wk_sz : Sizes) : ℤ :=
  if ∃ i, ker.required_sz i ≠ 0 ∧ ker.required_sz i ≠ local_wk_sz i then CL_INVALID_WORK_ITEM_SIZE
  else if ker.max_wg_sz < local_wk_sz 0 * local_wk_sz 1 % 2 ^ 64 * local_wk_sz 2 % 2 ^ 64 then
    CL_INVALID_WORK_ITEM_SIZE
  else CL_SUCCESS

/-- The value of the comparison `c != CL_SUCCESS`. -/
def isError (c : ℤ) : ℤ := if c ≠ CL_SUCCESS then 1 else 0

def cl_command_queue_ND_range_gen7 (ker : Kernel) (st : Steps) (local_wk_sz_use : Sizes) : ℤ :=
  -- `err = cl_kernel_work_group_sz(…) != CL_SUCCESS`
  let err := isError (cl_kernel_work_group_sz ker local_wk_sz_use)
  if err ≠ 0 then err
  else if st.scratch_fits = false then CL_OUT_OF_RESOURCES
  else if st.slm_fits = false then CL_OUT_OF_RESOURCES
  else if st.setup = false then CL_OUT_OF_RESOURCES
  else
    -- `err = cl_command_queue_bind_image(…) != CL_SUCCESS`
    let err := isError st.bind_image
    if err ≠ 0 then err
    else if st.upload = false then CL_OUT_OF_RESOURCES
    else CL_SUCCESS

def cl_command_queue_ND_range (ker : Kernel) (st : Steps) (local_wk_sz_use : Sizes) : ℤ :=
  if st.check_args.val ≠ CL_SUCCESS then st.check_args
  else cl_command_queue_ND_range_gen7 ker st local_wk_sz_use

/-- The body of the three loops; `CL_SUCCESS` means that the sub-launch is in the queue. -/
def launch (ker : Kernel) (st : Steps) (local_wk_sz_use : Sizes) : ℤ :=
  if st.event_create.val ≠ CL_SUCCESS then st.event_create
  else
    let err := cl_command_queue_ND_range ker st local_wk_sz_use
    if err ≠ CL_SUCCESS then err
    else if st.event_status < 0 then CL_EXEC_STATUS_ERROR_FOR_EVENTS_IN_WAIT_LIST
    else st.event_exec

/-! ### The call -/

/-- A sub-launch: its part of the index space, where it starts, and its work groups. -/
structure SubLaunch where
  global_wk_sz_use : Sizes
  global_dim_off : Sizes
  local_wk_sz_use : Sizes

/-- What the call returns, and the sub-launches that are in the queue by then. -/
structure Outcome where
  err : ℤ
  enqueued : List SubLaunch

/-- The search for a divisor of the global size, from `j` downwards. -/
def findSize (global_sz maxGroupSize : ℕ) : ℕ → Option ℕ
  | 0 => none
  | j + 1 =>
    if 1 < j + 1 ∧ global_sz % (j + 1) = 0 ∧ j + 1 ≤ maxGroupSize then some (j + 1)
    else findSize global_sz maxGroupSize j

/-- The local sizes of the dimensions in the list when the caller gives none. -/
def chooseLocal (global_sz : Sizes) : List (Fin 3) → ℕ → ℕ → Sizes → Sizes
  | [], _, _, local_sz => local_sz
  | i :: is, maxDimSize, maxGroupSize, local_sz =>
    match findSize (global_sz i) maxGroupSize maxDimSize with
    | none => chooseLocal global_sz is maxDimSize maxGroupSize local_sz
    | some j =>
      chooseLocal global_sz is (min maxDimSize (maxGroupSize / j)) (maxGroupSize / j)
        (Function.update local_sz i j)

/-- The dimensions of the call. -/
def dims (work_dim : ℕ) : List (Fin 3) := (List.finRange 3).filter fun i => i.val < work_dim

def fixed_local_sz (args : Args) (ker : Kernel) (global_work_size : Sizes) : Sizes :=
  match args.local_work_size with
  | some local_work_size => fun i => if i.val < args.work_dim then local_work_size i else 1
  | none =>
    if ker.vme then ![16, 1, 1]
    else chooseLocal global_work_size (dims args.work_dim) 64 256 fun _ => 1

def fixed_global_sz (args : Args) (ker : Kernel) (global_work_size : Sizes) : Sizes :=
  if ker.vme then
    ![(global_work_size 0 + 15) % 2 ^ 64 / 16 * 16, (global_work_size 1 + 15) % 2 ^ 64 / 16, 1]
  else fun i => if i.val < args.work_dim then global_work_size i else 1

/-- The checks in front of the loops, with the sizes when they all pass.  The check of
the offsets is left out: it compares a `size_t` with its largest value, and it only
leaves its own loop, so that the error is overwritten by the next check. -/
def check (args : Args) (ker : Kernel) : ℤ ⊕ Sizes × Sizes :=
  if args.isCommandQueue = false then .inl CL_INVALID_COMMAND_QUEUE
  else if args.isKernel = false then .inl CL_INVALID_KERNEL
  else if args.work_dim = 0 ∨ 3 < args.work_dim then .inl CL_INVALID_WORK_DIMENSION
  else match args.global_work_size with
    | none => .inl CL_INVALID_GLOBAL_WORK_SIZE
    | some global_work_size =>
      if ker.vme = true ∧ args.work_dim ≠ 2 then .inl CL_INVALID_WORK_DIMENSION
      else if ker.vme = true ∧ args.local_work_size.isSome then .inl CL_INVALID_WORK_GROUP_SIZE
      else if args.sameContext = false then .inl CL_INVALID_CONTEXT
      else
        let local_sz := fixed_local_sz args ker global_work_size
        if (∃ i, ker.compile_wg_sz i ≠ 0) ∧ ∃ i, local_sz i ≠ ker.compile_wg_sz i then
          .inl CL_INVALID_WORK_GROUP_SIZE
        else if args.waitlist.val ≠ CL_SUCCESS then .inl args.waitlist
        else .inr (fixed_global_sz args ker global_work_size, local_sz)

/-- The sub-launch for the whole groups (`0`) or the remainder (`1`) of each
dimension. -/
def subLaunch (global_sz local_sz : Sizes) (part : Fin 3 → Fin 2) : SubLaunch where
  global_wk_sz_use d :=
    if part d = 0 then global_sz d / local_sz d * local_sz d else global_sz d % local_sz d
  global_dim_off d := (part d).val * (global_sz d / local_sz d * local_sz d) / local_sz d
  local_wk_sz_use d := if part d = 0 then local_sz d else global_sz d % local_sz d

/-- The sub-launches in the order of the loops, without those that have no work items. -/
def subLaunches (global_sz local_sz : Sizes) : List SubLaunch :=
  ([![0, 0, 0], ![1, 0, 0], ![0, 1, 0], ![1, 1, 0], ![0, 0, 1], ![1, 0, 1], ![0, 1, 1],
    ![1, 1, 1]].map (subLaunch global_sz local_sz)).filter fun sub =>
      ∀ d, sub.local_wk_sz_use d ≠ 0

/-- The loops; `env n` are the outcomes for the `n`-th of the sub-launches. -/
def enqueue (ker : Kernel) : (ℕ → Steps) → List SubLaunch → Outcome
  | _, [] => ⟨CL_SUCCESS, []⟩
  | env, sub :: subs =>
    let err := launch ker (env 0) sub.local_wk_sz_use
    if err ≠ CL_SUCCESS then ⟨err, []⟩
    else
      let rest := enqueue ker (fun n => env (n + 1)) subs
      ⟨rest.err, sub :: rest.enqueued⟩

/-- `none` when a local size is zero: the division traps. -/
def clEnqueueNDRangeKernel (args : Args) (ker : Kernel) (env : ℕ → Steps) : Option Outcome :=
  match check args ker with
  | .inl err => some ⟨err, []⟩
  | .inr (global_sz, local_sz) =>
    if ∃ d, local_sz d = 0 then none
    else some (enqueue ker env (subLaunches global_sz local_sz))

/-! ### The first step that fails -/

inductive Step
  | eventCreate
  | checkArgs
  | workGroupSize
  | scratch
  | slm
  | setup
  | bindImage
  | upload
  | eventStatus
  | eventExec

/-- The code that each step of a sub-launch produces, in order. -/
def codes (ker : Kernel) (st : Steps) (local_wk_sz_use : Sizes) : List (Step × ℤ) :=
  [(.eventCreate, st.event_create), (.checkArgs, st.check_args),
    (.workGroupSize, cl_kernel_work_group_sz ker local_wk_sz_use),
    (.scratch, if st.scratch_fits then CL_SUCCESS else CL_OUT_OF_RESOURCES),
    (.slm, if st.slm_fits then CL_SUCCESS else CL_OUT_OF_RESOURCES),
    (.setup, if st.setup then CL_SUCCESS else CL_OUT_OF_RESOURCES),
    (.bindImage, st.bind_image),
    (.upload, if st.upload then CL_SUCCESS else CL_OUT_OF_RESOURCES),
    (.eventStatus, if st.event_status < 0 then CL_EXEC_STATUS_ERROR_FOR_EVENTS_IN_WAIT_LIST
      else CL_SUCCESS),
    (.eventExec, st.event_exec)]

/-- The first step of a sub-launch that fails, with its code. -/
def failure (ker : Kernel) (st : Steps) (local_wk_sz_use : Sizes) : Option (Step × ℤ) :=
  (codes ker st local_wk_sz_use).find? fun sc => sc.2 ≠ CL_SUCCESS

/-- The steps whose code is lost. -/
def Step.loses : Step → Bool
  | .workGroupSize | .bindImage => true
  | _ => false

theorem cl_kernel_work_group_sz_le (ker : Kernel) (local_wk_sz : Sizes) :
    cl_kernel_work_group_sz ker local_wk_sz ≤ 0 := by
  rw [cl_kernel_work_group_sz]
  split_ifs
  · decide
  · decide
  · decide

/-- The code of a failing step is a negative number. -/
theorem failure_neg {ker : Kernel} {st : Steps} {local_sz : Sizes} {step : Step} {c : ℤ}
    (h : failure ker st local_sz = some (step, c)) : c < 0 := by
  have hne : c ≠ 0 := by simpa using List.find?_some h
  have hmem := List.mem_of_find?_eq_some h
  have hwg := cl_kernel_work_group_sz_le ker local_sz
  have hbool : ∀ b : Bool, (if b then CL_SUCCESS else CL_OUT_OF_RESOURCES) ≤ 0 := by decide
  have hle : c ≤ 0 := by
    simp only [codes, List.mem_cons, Prod.mk.injEq, List.not_mem_nil, or_false] at hmem
    rcases hmem with ⟨-, rfl⟩ | ⟨-, rfl⟩ | ⟨-, rfl⟩ | ⟨-, rfl⟩ | ⟨-, rfl⟩ | ⟨-, rfl⟩ | ⟨-, rfl⟩ |
      ⟨-, rfl⟩ | ⟨-, rfl⟩ | ⟨-, rfl⟩
    · exact st.event_create.2
    · exact st.check_args.2
    · exact hwg
    · exact hbool _
    · exact hbool _
    · exact hbool _
    · exact st.bind_image.2
    · exact hbool _
    · split_ifs
      · decide
      · decide
    · exact st.event_exec.2
  omega

/-- What a sub-launch returns. -/
theorem launch_eq (ker : Kernel) (st : Steps) (local_sz : Sizes) :
    launch ker st local_sz = match failure ker st local_sz with
      | none => CL_SUCCESS
      | some (step, c) => if step.loses then 1 else c := by
  obtain ⟨create, args, scratch, slm, setup, image, upload, status, exec⟩ := st
  simp only [launch, cl_command_queue_ND_range, cl_command_queue_ND_range_gen7, isError, failure,
    codes, List.find?]
  -- the steps in order: each one either decides or is skipped on both sides
  rcases ne_or_eq create.val 0 with h | h1
  · simp [h, Step.loses]
  rcases ne_or_eq args.val 0 with h | h2
  · simp [h1, h, Step.loses]
  rcases ne_or_eq (cl_kernel_work_group_sz ker local_sz) 0 with h | h3
  · simp [h1, h2, h, Step.loses, CL_SUCCESS]
  rcases scratch with _ | _
  · simp [h1, h2, h3, Step.loses]
  rcases slm with _ | _
  · simp [h1, h2, h3, Step.loses]
  rcases setup with _ | _
  · simp [h1, h2, h3, Step.loses]
  rcases ne_or_eq image.val 0 with h | h4
  · simp [h1, h2, h3, h, Step.loses, CL_SUCCESS]
  rcases upload with _ | _
  · simp [h1, h2, h3, h4, Step.loses]
  by_cases h5 : status < 0
  · simp [h1, h2, h3, h4, h5, Step.loses]
  rcases ne_or_eq exec.val 0 with h | h6
  · simp [h1, h2, h3, h4, h5, h, Step.loses]
  · simp [h1, h2, h3, h4, h5, h6]

theorem launch_eq_success {ker : Kernel} {st : Steps} {local_sz : Sizes} :
    launch ker st local_sz = CL_SUCCESS ↔ failure ker st local_sz = none := by
  rw [launch_eq]
  rcases hf : failure ker st local_sz with _ | ⟨step, c⟩
  · simp
  · have hneg := failure_neg hf
    have hne : (if step.loses then 1 else c) ≠ CL_SUCCESS := by
      split_ifs
      · decide
      · exact hneg.ne
    simpa using hne

/-! ### The first sub-launch that fails -/

/-- Sub-launch `n` is the first that fails, in `step` and with code `c`. -/
def FirstFailure (ker : Kernel) (env : ℕ → Steps) (subs : List SubLaunch) (n : ℕ) (step : Step)
    (c : ℤ) : Prop :=
  (∃ sub, subs[n]? = some sub ∧ failure ker (env n) sub.local_wk_sz_use = some (step, c)) ∧
    ∀ m < n, ∀ sub, subs[m]? = some sub → failure ker (env m) sub.local_wk_sz_use = none

theorem firstFailure_succ {ker : Kernel} {env : ℕ → Steps} {sub : SubLaunch}
    {subs : List SubLaunch} (hf : failure ker (env 0) sub.local_wk_sz_use = none) {n : ℕ}
    {step : Step} {c : ℤ} :
    FirstFailure ker env (sub :: subs) (n + 1) step c ↔
      FirstFailure ker (fun m => env (m + 1)) subs n step c := by
  constructor
  · rintro ⟨⟨s, hs, hfs⟩, hbefore⟩
    refine ⟨⟨s, by simpa using hs, hfs⟩, fun m hm s hs => ?_⟩
    exact hbefore (m + 1) (by omega) s (by simpa using hs)
  · rintro ⟨⟨s, hs, hfs⟩, hbefore⟩
    refine ⟨⟨s, by simpa using hs, hfs⟩, fun m hm s hs => ?_⟩
    rcases m with _ | m
    · obtain rfl : sub = s := by simpa using hs
      exact hf
    · exact hbefore m (by omega) s (by simpa using hs)

/-- Either all the sub-launches get into the queue, or those in front of the first that
fails do, and the call returns what this one returns. -/
theorem enqueue_failure (ker : Kernel) (env : ℕ → Steps) (subs : List SubLaunch) :
    ((enqueue ker env subs).err = CL_SUCCESS ∧
      ∀ n step c, ¬ FirstFailure ker env subs n step c) ∨
    ∃ n step c, FirstFailure ker env subs n step c ∧
      (enqueue ker env subs).err = (if step.loses then 1 else c) ∧
      (enqueue ker env subs).enqueued = subs.take n := by
  induction subs generalizing env with
  | nil =>
    refine .inl ⟨rfl, ?_⟩
    rintro n step c ⟨⟨sub, hsub, -⟩, -⟩
    simp at hsub
  | cons sub subs ih =>
    rcases hf : failure ker (env 0) sub.local_wk_sz_use with _ | ⟨step, c⟩
    · -- this one goes through: the first failure, if any, is one further on
      have hok : launch ker (env 0) sub.local_wk_sz_use = CL_SUCCESS := launch_eq_success.mpr hf
      have henq : enqueue ker env (sub :: subs) =
          ⟨(enqueue ker (fun n => env (n + 1)) subs).err,
            sub :: (enqueue ker (fun n => env (n + 1)) subs).enqueued⟩ := by
        simp [enqueue, hok]
      rw [henq]
      rcases ih fun n => env (n + 1) with ⟨herr, hnone⟩ | ⟨n, step, c, hfirst, herr, hlist⟩
      · refine .inl ⟨herr, ?_⟩
        rintro (_ | n) step c hfirst
        · obtain ⟨⟨s, hs, hfs⟩, -⟩ := hfirst
          obtain rfl : sub = s := by simpa using hs
          exact absurd (hf.symm.trans hfs) (by simp)
        · exact hnone n step c ((firstFailure_succ hf).mp hfirst)
      · exact .inr ⟨n + 1, step, c, (firstFailure_succ hf).mpr hfirst, herr, by simp [hlist]⟩
    · have herr : launch ker (env 0) sub.local_wk_sz_use = if step.loses then 1 else c := by
        rw [launch_eq, hf]
      have hne : launch ker (env 0) sub.local_wk_sz_use ≠ CL_SUCCESS := by
        rw [Ne, launch_eq_success, hf]
        simp
      refine .inr ⟨0, step, c, ⟨⟨sub, rfl, hf⟩, fun m hm => absurd hm (by omega)⟩, ?_, ?_⟩
      · rw [enqueue]
        simp only [if_pos hne]
        exact herr
      · simp [enqueue, hne]

theorem FirstFailure.unique {ker : Kernel} {env : ℕ → Steps} {subs : List SubLaunch} {n n' : ℕ}
    {step step' : Step} {c c' : ℤ} (h : FirstFailure ker env subs n step c)
    (h' : FirstFailure ker env subs n' step' c') : n = n' ∧ step = step' ∧ c = c' := by
  obtain ⟨⟨sub, hsub, hf⟩, hbefore⟩ := h
  obtain ⟨⟨sub', hsub', hf'⟩, hbefore'⟩ := h'
  obtain hlt | rfl | hgt := Nat.lt_trichotomy n n'
  · exact absurd ((hbefore' n hlt sub hsub).symm.trans hf) (by simp)
  · obtain rfl : sub = sub' := Option.some_inj.mp (hsub.symm.trans hsub')
    exact ⟨rfl, Prod.mk.inj (Option.some_inj.mp (hf.symm.trans hf'))⟩
  · exact absurd ((hbefore n' hgt sub' hsub').symm.trans hf') (by simp)

/-! ### All or nothing -/

/-- The code of the step that failed: a check in front of the sub-launches or the first
failure among them. -/
def Cause (args : Args) (ker : Kernel) (env : ℕ → Steps) (c : ℤ) : Prop :=
  match check args ker with
  | .inl err => c = err
  | .inr (global_sz, local_sz) =>
    ∃ n step, FirstFailure ker env (subLaunches global_sz local_sz) n step c

/-- When the call fails, nothing is in the queue and the result is the negative code of
the step that failed. -/
def Atomic (args : Args) (ker : Kernel) (env : ℕ → Steps) : Prop :=
  ∀ o, clEnqueueNDRangeKernel args ker env = some o → o.err ≠ CL_SUCCESS →
    o.enqueued = [] ∧ o.err < 0 ∧ Cause args ker env o.err

/-- A failed test ends the checks. -/
theorem inl_or_rest {β : Type*} {c : Prop} [Decidable c] {err : ℤ} {rest x : ℤ ⊕ β}
    (h : (if c then .inl err else rest) = x) : c ∧ x = .inl err ∨ ¬ c ∧ rest = x := by
  by_cases hc : c
  · exact .inl ⟨hc, by rw [← h, if_pos hc]⟩
  · exact .inr ⟨hc, by rw [← h, if_neg hc]⟩

theorem check_neg {args : Args} {ker : Kernel} {err : ℤ} (h : check args ker = .inl err) :
    err < 0 := by
  have hwait := args.waitlist.2
  obtain ⟨-, h⟩ | ⟨-, h⟩ := inl_or_rest h
  · cases h
    decide
  obtain ⟨-, h⟩ | ⟨-, h⟩ := inl_or_rest h
  · cases h
    decide
  obtain ⟨-, h⟩ | ⟨-, h⟩ := inl_or_rest h
  · cases h
    decide
  cases hg : args.global_work_size with
  | none =>
    rw [hg] at h
    cases h
    decide
  | some global_work_size =>
    simp only [hg] at h
    obtain ⟨-, h⟩ | ⟨-, h⟩ := inl_or_rest h
    · cases h
      decide
    obtain ⟨-, h⟩ | ⟨-, h⟩ := inl_or_rest h
    · cases h
      decide
    obtain ⟨-, h⟩ | ⟨-, h⟩ := inl_or_rest h
    · cases h
      decide
    obtain ⟨-, h⟩ | ⟨-, h⟩ := inl_or_rest h
    · cases h
      decide
    obtain ⟨hne, h⟩ | ⟨-, h⟩ := inl_or_rest h
    · cases h
      exact lt_of_le_of_ne hwait hne
    · cases h

/-- **Enqueueing a kernel.**  The call is all or nothing and reports the true error
exactly when no sub-launch but the first is the first to fail, and this one fails
neither in the work-group size check nor when the images are bound. -/
theorem clEnqueueNDRangeKernel_atomic_iff (args : Args) (ker : Kernel) (env : ℕ → Steps) :
    Atomic args ker env ↔
      ∀ global_sz local_sz, check args ker = .inr (global_sz, local_sz) →
        (∀ d, local_sz d ≠ 0) →
        ∀ n step c, FirstFailure ker env (subLaunches global_sz local_sz) n step c →
          n = 0 ∧ step ≠ .workGroupSize ∧ step ≠ .bindImage := by
  rcases hcheck : check args ker with err | ⟨global_sz, local_sz⟩
  · -- nothing is launched
    constructor
    · intro _ global_sz local_sz h
      cases h
    · intro _ o ho _
      simp only [clEnqueueNDRangeKernel, hcheck, Option.some_inj] at ho
      subst ho
      refine ⟨rfl, check_neg hcheck, ?_⟩
      simp only [Cause, hcheck]
  · have hcall : (∀ d, local_sz d ≠ 0) → clEnqueueNDRangeKernel args ker env =
        some (enqueue ker env (subLaunches global_sz local_sz)) := by
      intro hlocal
      simp only [clEnqueueNDRangeKernel, hcheck]
      rw [if_neg (by simpa using hlocal)]
    have hdecide := enqueue_failure ker env (subLaunches global_sz local_sz)
    constructor
    · intro hatomic g l h hlocal n step c hfirst
      obtain ⟨rfl, rfl⟩ := Prod.mk.inj (Sum.inr.inj h)
      rcases hdecide with ⟨-, hnone⟩ | ⟨n', step', c', hfirst', herr, hlist⟩
      · exact absurd hfirst (hnone n step c)
      obtain ⟨rfl, rfl, rfl⟩ := hfirst.unique hfirst'
      obtain ⟨⟨sub, hsub, hf⟩, -⟩ := hfirst
      have hne : (enqueue ker env (subLaunches global_sz local_sz)).err ≠ CL_SUCCESS := by
        rw [herr]
        split_ifs
        · decide
        · exact (failure_neg hf).ne
      obtain ⟨hempty, hneg, -⟩ := hatomic _ (hcall hlocal) hne
      -- a positive result would be the truth value of a comparison
      have hloses : step.loses = false := by
        by_contra htrue
        rw [herr, if_pos (by simpa using htrue)] at hneg
        exact absurd hneg (by decide)
      refine ⟨?_, ?_, ?_⟩
      · rw [hlist, List.take_eq_nil_iff] at hempty
        rcases hempty with rfl | hnil
        · rfl
        · rw [hnil] at hsub
          cases hsub
      · rintro rfl
        exact absurd hloses (by decide)
      · rintro rfl
        exact absurd hloses (by decide)
    · intro hcond o ho herr
      have hlocal : ∀ d, local_sz d ≠ 0 := by
        by_contra hzero
        simp only [clEnqueueNDRangeKernel, hcheck] at ho
        rw [if_pos (by simpa using hzero)] at ho
        cases ho
      obtain rfl := Option.some_inj.mp ((hcall hlocal).symm.trans ho)
      rcases hdecide with ⟨hok, -⟩ | ⟨n, step, c, hfirst, herr', hlist⟩
      · exact absurd hok herr
      obtain ⟨rfl, hwg, himage⟩ := hcond global_sz local_sz rfl hlocal n step c hfirst
      have hloses : step.loses = false := by
        cases step <;> first | rfl | exact absurd rfl hwg | exact absurd rfl himage
      rw [hloses, if_neg (by decide)] at herr'
      obtain ⟨⟨sub, -, hf⟩, -⟩ := id hfirst
      rw [herr', hlist]
      refine ⟨rfl, failure_neg hf, ?_⟩
      simp only [Cause, hcheck]
      exact ⟨0, step, hfirst⟩

theorem nonpos_zero : (0 : ℤ) ≤ 0 := le_rfl

/-- Twelve work items in groups of eight, as the kernel requires. -/
def remainderArgs : Args where
  isCommandQueue := true
  isKernel := true
  sameContext := true
  work_dim := 1
  global_work_size := some ![12, 1, 1]
  local_work_size := some ![8, 1, 1]
  waitlist := ⟨0, nonpos_zero⟩

def requiredKernel : Kernel where
  vme := false
  compile_wg_sz := ![8, 1, 1]
  required_sz := ![8, 1, 1]
  max_wg_sz := 256

/-- Every internal step succeeds. -/
def allWell : Steps where
  event_create := ⟨0, nonpos_zero⟩
  check_args := ⟨0, nonpos_zero⟩
  scratch_fits := true
  slm_fits := true
  setup := true
  bind_image := ⟨0, nonpos_zero⟩
  upload := true
  event_status := 0
  event_exec := ⟨0, nonpos_zero⟩

/-- The eight whole items are in the queue when the remainder of four is refused, and the
call returns 1. -/
theorem remainder_wrong :
    (clEnqueueNDRangeKernel remainderArgs requiredKernel fun _ => allWell).map
        (fun o => (o.err, o.enqueued.length)) = some (1, 1) ∧
      ¬ Atomic remainderArgs requiredKernel fun _ => allWell := by
  have hcall : (clEnqueueNDRangeKernel remainderArgs requiredKernel fun _ => allWell).map
      (fun o => (o.err, o.enqueued.length)) = some (1, 1) := by decide
  refine ⟨hcall, fun hatomic => ?_⟩
  obtain ⟨o, ho, hval⟩ := Option.map_eq_some_iff.mp hcall
  obtain ⟨herr, -⟩ := Prod.mk.inj hval
  have hneg := (hatomic o ho (by rw [herr]; decide)).2.1
  rw [herr] at hneg
  exact absurd hneg (by decide)

end Runtime.NDRange
